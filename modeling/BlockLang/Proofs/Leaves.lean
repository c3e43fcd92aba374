import Mathlib.Data.Prod.Lex
import Mathlib.Order.Bounds.Basic
import BlockLang.Proofs.Expressions

/-! Types are ordered by width, and of two types of one width the unsigned one is above the other.
The common type of two operands is their join. So the type of an expression depends on its leaves
alone: it is the join of their types, however these are put together. -/

namespace BlockLang

open Code BlockLang.Tree Compiler

namespace IntType

/-- Types are ordered by width first, and then the unsigned one is above the signed one. -/
def rank (type : IntType) : Nat ×ₗ Bool := toLex (type.width, !type.signed)

theorem rank_injective : Function.Injective rank := by
  rintro ⟨width, signed⟩ ⟨width', signed'⟩ h
  have hpairs : (width, !signed) = (width', !signed') := toLex_inj.1 h
  obtain ⟨rfl, hsigned⟩ := Prod.mk.inj hpairs
  rw [Bool.not_inj hsigned]

instance : LinearOrder IntType := .lift' rank rank_injective

variable {first second : IntType}

theorem le_iff : first ≤ second ↔ first.width < second.width ∨
    first.width = second.width ∧ (second.signed = true → first.signed = true) := by
  have hsigned : (!first.signed) ≤ (!second.signed) ↔
      (second.signed = true → first.signed = true) := by
    cases first.signed <;> cases second.signed <;> decide
  rw [← hsigned]
  exact Prod.Lex.toLex_le_toLex

theorem join_eq_right (h : first ≤ second) : first.join second = second := by
  obtain ⟨width, signed⟩ := first
  obtain ⟨width', signed'⟩ := second
  rcases le_iff.1 h with hless | ⟨rfl, hsigned⟩
  · exact (if_neg (Nat.not_lt_of_lt hless)).trans (if_pos hless)
  · have hboth : (signed && signed') = signed' := by
      rwa [Bool.and_eq_right_iff_imp]
    rw [join, if_neg (Nat.lt_irrefl _), if_neg (Nat.lt_irrefl _), hboth]

theorem join_eq_max (first second : IntType) : first.join second = max first second := by
  rcases le_total first second with hbelow | habove
  · rw [join_eq_right hbelow, max_eq_right hbelow]
  · rw [join_comm, join_eq_right habove, max_eq_left habove]

/-- Types joined two by two. -/
inductive Grouping where
  | single (type : IntType)
  | pair (first second : Grouping)
  deriving Repr, DecidableEq

namespace Grouping

/-- The types that are joined, in order. -/
def types : Grouping → List IntType
  | single type => [type]
  | pair first second => first.types ++ second.types

def joined : Grouping → IntType
  | single type => type
  | pair first second => first.joined.join second.joined

theorem joined_le_iff {grouping : Grouping} {bound : IntType} :
    grouping.joined ≤ bound ↔ ∀ type ∈ grouping.types, type ≤ bound := by
  induction grouping with
  | single type => rw [joined, types, List.forall_mem_singleton]
  | pair first second ihfirst ihsecond =>
    rw [joined, join_eq_max, max_le_iff, ihfirst, ihsecond]
    exact List.forall_mem_append.symm

end Grouping

end IntType

namespace Core

/-- What the type of an expression depends on: its variables and its constants. The value of a
constant is the one it has under all the minus signs in front of it. -/
inductive Leaf where
  | cell (id : Nat) (type : IntType)
  | constant (value : Int64)
  deriving Repr, DecidableEq

/-- A variable has the type it was declared with, and a constant 32 bits if these can hold it. -/
def Leaf.type : Leaf → IntType
  | cell _ type => type
  | constant value => if IntType.int32.Contains value.toInt then .int32 else .int64

theorem Leaf.type_constant (value : Int64) : (constant value).type = .ofConstant value := by
  have hmin : Int32.minValue.toInt64.toInt = -2 ^ 31 := by decide
  have hmax : Int32.maxValue.toInt64.toInt = 2 ^ 31 - 1 := by decide
  have hfits : IntType.int32.Contains value.toInt ↔
      Int32.minValue.toInt64 ≤ value ∧ value ≤ Int32.maxValue.toInt64 := by
    rw [Int64.le_iff_toInt_le, Int64.le_iff_toInt_le, hmin, hmax]
    exact and_congr_right fun _ => (Int.le_sub_one_iff).symm
  exact if_congr hfits rfl rfl

namespace Expr

/-- The leaves from left to right. -/
def leaves : Expr → List Leaf
  | number value => [.constant value]
  | cell id type => [.cell id type]
  | negate operand =>
    match operand.constant? with
    | some value => [.constant (-value)]
    | none => operand.leaves
  | binary _ left right => left.leaves ++ right.leaves

theorem leaves_ne_nil (expr : Expr) : expr.leaves ≠ [] := by
  induction expr with
  | number value => exact List.cons_ne_nil _ _
  | cell id type => exact List.cons_ne_nil _ _
  | negate operand ih =>
    rw [leaves]
    cases operand.constant? with
    | some value => exact List.cons_ne_nil _ _
    | none => exact ih
  | binary op left right ihleft ihright => exact List.append_ne_nil_of_left_ne_nil ihleft _

/-- The type of an expression is the least type that is above all its leaves. -/
theorem type_le_iff {expr : Expr} {bound : IntType} :
    expr.type ≤ bound ↔ ∀ leaf ∈ expr.leaves, leaf.type ≤ bound := by
  induction expr with
  | number value => rw [leaves, List.forall_mem_singleton, Leaf.type_constant, Expr.type]
  | cell id type => rw [leaves, List.forall_mem_singleton, Leaf.type, Expr.type]
  | negate operand ih =>
    rw [leaves, Expr.type]
    cases operand.constant? with
    | some value => rw [List.forall_mem_singleton, Leaf.type_constant]
    | none => exact ih
  | binary op left right ihleft ihright =>
    rw [leaves, Expr.type, IntType.join_eq_max, max_le_iff, ihleft, ihright]
    exact List.forall_mem_append.symm

theorem type_eq_joined {expr : Expr} {grouping : IntType.Grouping}
    (h : ∀ type, type ∈ grouping.types ↔ type ∈ expr.leaves.map Leaf.type) :
    expr.type = grouping.joined := by
  refine eq_of_forall_ge_iff fun bound => ?_
  simp only [type_le_iff, IntType.Grouping.joined_le_iff, h, List.forall_mem_map]

end Expr

end Core

namespace Compiler

variable {session next : Session}

/-- What code is written does not change what names stand for. -/
theorem value?_of_build_eq_ok {α : Type} {step : Build α} {value : α}
    (h : build step session = .ok value next) : next.value? = session.value? := by
  obtain ⟨_, -, rfl⟩ := of_build_eq_ok h
  rfl

theorem describes_of_loadName {name : Ident} {operand : Operand}
    (h : loadName name session = .ok operand next) :
    ∃ found, session.value? name.name = some found ∧ found.Describes operand ∧
      next.value? = session.value? := by
  rcases loadName_cases h with ⟨value, hvalue, rfl, rfl⟩ | ⟨source, type, value, hvalue, rfl, hload⟩
  · exact ⟨.number value, hvalue, ⟨rfl, _, rfl⟩, rfl⟩
  · have hregister : ∃ type id, value = .register type id := by
      unfold Build.load at hload
      rw [build_bind] at hload
      obtain ⟨global, _, -, hdefine⟩ := exists_of_bind_eq_ok hload
      exact ⟨_, _, (wrote_define hdefine).value_eq⟩
    have hvalues : next.value? = (session.locatedAt name.place).value? :=
      value?_of_build_eq_ok hload
    exact ⟨.cell source type, hvalue, ⟨rfl, hregister⟩, hvalues⟩

theorem of_unify_eq_ok {left right : Operand} {unified : Value × Value × IntType}
    (h : unify left right session = .ok unified next) :
    unified.2.2 = left.type.join right.type ∧ next.value? = session.value? := by
  obtain ⟨_, _, hfirst, hrest⟩ := exists_of_bind_eq_ok h
  obtain ⟨_, _, hsecond, hpure⟩ := exists_of_bind_eq_ok hrest
  cases hpure
  exact ⟨rfl, (value?_of_build_eq_ok hsecond).trans (value?_of_build_eq_ok hfirst)⟩

theorem describes_of_combine {op : Operator} {left right : Core.Expr}
    {first second operand : Operand} (hleft : left.Describes first) (hright : right.Describes second)
    (h : combine op first second session = .ok operand next) :
    (Core.Expr.binary op left right).Describes operand ∧ next.value? = session.value? := by
  obtain ⟨unified, _, hunify, hrest⟩ := exists_of_bind_eq_ok h
  obtain ⟨value, _, hbinary, hpure⟩ := exists_of_bind_eq_ok hrest
  cases hpure
  obtain ⟨htype, hvalues⟩ := of_unify_eq_ok hunify
  rw [hleft.type_eq, hright.type_eq] at htype
  have hregister := (wrote_define hbinary).value_eq
  exact ⟨⟨htype, _, _, hregister⟩, (value?_of_build_eq_ok hbinary).trans hvalues⟩

end Compiler

/-- Wherever an expression can be carried out, what it stands for describes the operand. -/
theorem Tree.Expr.describes_of_emit {session next : Session} {expr : Expr} {operand : Operand}
    (h : expr.emit session = .ok operand next) :
    ∃ found, expr.resolveBy session.value? = some found ∧ found.Describes operand ∧
      next.value? = session.value? := by
  induction expr generalizing session next operand with
  | number value =>
    cases h
    exact ⟨.number value, rfl, ⟨rfl, _, rfl⟩, rfl⟩
  | name ident => exact describes_of_loadName h
  | negate inner ih =>
    obtain ⟨value, middle, hinner, hnegate⟩ := exists_of_bind_eq_ok h
    obtain ⟨found, hfound, hdescribes, hvalues⟩ := ih hinner
    obtain ⟨rfl, ⟨location, rfl⟩, -⟩ := wrote_negate hnegate
    refine ⟨.negate found, ?_, hdescribes.negate _, hvalues⟩
    rw [resolveBy, hfound]
    rfl
  | binary op left right ihleft ihright =>
    obtain ⟨first, middle, hleft, hrest⟩ := exists_of_bind_eq_ok h
    obtain ⟨second, last, hright, hcombine⟩ := exists_of_bind_eq_ok hrest
    obtain ⟨found, hfound, hdescribes, hvalues⟩ := ihleft hleft
    obtain ⟨other, hother, hdescribes', hvalues'⟩ := ihright hright
    obtain ⟨hbinary, hlast⟩ := describes_of_combine hdescribes hdescribes' hcombine
    refine ⟨.binary op found other, ?_, hbinary, hlast.trans (hvalues'.trans hvalues)⟩
    rw [hvalues] at hother
    rw [resolveBy, hfound, hother]
    rfl
  | missing mistake => exact (raise_ne_ok h).elim
  | unclosed inner mistake ih =>
    obtain ⟨_, _, -, hraise⟩ := exists_of_bind_eq_ok h
    exact (raise_ne_ok hraise).elim

/-- Joining types is taking the least upper bound in their order. So in whatever session an
expression can be read and carried out, its type is got by joining the types of its leaves, in any
order and grouping, and depends on nothing else. Parentheses are not in the tree that the grammar
gives the tokens, and operators have no part in the leaves. -/
theorem readExpr_joins_leaves :
    (∀ first second : IntType, first ≤ second ↔ first.width < second.width ∨
      first.width = second.width ∧ (second.signed = true → first.signed = true)) ∧
    (∀ first second : IntType, IsLUB {first, second} (first.join second)) ∧
    (∀ first second : IntType, first.join second = second.join first) ∧
    (∀ first second third : IntType,
      (first.join second).join third = first.join (second.join third)) ∧
    (∀ type : IntType, type.join type = type) ∧
    ∀ (session next : Session) (ahead : Ahead) (operand : Operand),
      (readExpr ahead).1.emit session = .ok operand next →
      ∃ found,
        (readExpr ahead).1.Derives .sum ahead.tokens (readExpr ahead).2.val.tokens ∧
        (readExpr ahead).1.resolveBy session.value? = some found ∧ found.leaves ≠ [] ∧
        ∀ grouping : IntType.Grouping,
          (∀ type, type ∈ grouping.types ↔ type ∈ found.leaves.map Core.Leaf.type) →
          operand.type = grouping.joined := by
  refine ⟨fun _ _ => IntType.le_iff, fun first second => ?_, IntType.join_comm,
    fun first second third => ?_, fun type => ?_, fun session next ahead operand h => ?_⟩
  · rw [IntType.join_eq_max]
    exact isLUB_pair
  · simp only [IntType.join_eq_max]
    exact max_assoc first second third
  · rw [IntType.join_eq_max, max_self]
  · obtain ⟨found, hfound, hdescribes, -⟩ := Expr.describes_of_emit h
    have hderives := derives_readExpr rfl (Expr.whole_of_emit h)
    refine ⟨found, hderives, hfound, found.leaves_ne_nil, fun grouping hgrouping => ?_⟩
    rw [hdescribes.type_eq]
    exact Core.Expr.type_eq_joined hgrouping

/-- A session in a procedure whose first assignment breaks off before its expression. -/
def beforeNegations : Session :=
  (Session.start "unit").fed
    [.source "CONST K = -2147483648; VAR X: UINT8; VAR Y: UINT32; PROCEDURE P; BEGIN Y :="]

/-- The tokens of `-(X * Y) + -(-K)`. -/
def negations : Ahead where
  tokens := [.sign .minus, .sign .leftParen, .identifier "X", .sign .star, .identifier "Y",
    .sign .rightParen, .sign .plus, .sign .minus, .sign .leftParen, .sign .minus, .identifier "K",
    .sign .rightParen].map fun token => ⟨token, default⟩
  stop := default

/-- The constant negated once needs 64 bits, but negated twice it is a leaf of 32 bits. -/
theorem readExpr_joins_leaves_negations :
    ∃ operand next, (readExpr negations).1.emit beforeNegations = .ok operand next ∧
      operand.type = (IntType.Grouping.pair (.single .int32)
        (.pair (.single ⟨32, false⟩) (.single ⟨8, false⟩))).joined ∧
      operand.type = ⟨32, false⟩ := by
  cases hrun : (readExpr negations).1.emit beforeNegations with
  | error failure next =>
    have hgood : (match (readExpr negations).1.emit beforeNegations with
      | .ok _ _ => true
      | .error _ _ => false) = true := by decide +kernel
    rw [hrun] at hgood
    cases hgood
  | ok operand next =>
    obtain ⟨-, -, -, -, -, hjoins⟩ := readExpr_joins_leaves
    obtain ⟨found, -, hfound, -, hgroupings⟩ := hjoins _ _ _ _ hrun
    have hresolve : (readExpr negations).1.resolveBy beforeNegations.value? =
        some (.binary .add (.negate (.binary .mul (.cell 0 ⟨8, false⟩) (.cell 1 ⟨32, false⟩)))
          (.negate (.negate (.number (-2147483648))))) := by
      decide +kernel
    obtain rfl := Option.some.inj (hfound.symm.trans hresolve)
    have hsame : List.Perm [.int32, ⟨32, false⟩, ⟨8, false⟩] (List.map Core.Leaf.type
        [.cell 0 ⟨8, false⟩, .cell 1 ⟨32, false⟩, .constant (-2147483648)]) := by decide
    have hjoined := hgroupings (.pair (.single .int32)
      (.pair (.single ⟨32, false⟩) (.single ⟨8, false⟩))) fun _ => hsame.mem_iff
    exact ⟨operand, next, rfl, hjoined, hjoined.trans (by decide)⟩

end BlockLang
