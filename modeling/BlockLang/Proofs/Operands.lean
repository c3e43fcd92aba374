import Mathlib.Algebra.Order.Ring.Int
import Mathlib.Data.Int.ModEq
import BlockLang.Proofs.Core.Evaluation
import BlockLang.Proofs.Session.Runs

/-! Operands of different types meet in their common type. As long as that type can hold both
numbers, comparing and dividing them is comparing and dividing integers; sums, differences and
products agree with the integers up to a multiple of `2 ^ width` in any case. -/

namespace BlockLang

open Code BlockLang.Tree

/-- The operands that expressions leave: constants, and registers of a declared type that were
defined before `next`. -/
inductive Operand.Formed (next : Nat) : Operand → Prop
  | constant (value : Int64) : Formed next (.constant value)
  | register {type : IntType} (htype : type ∈ IntType.declarable) {id : Nat} (hid : id < next) :
    Formed next ⟨.register type.backend id, type⟩

namespace Operand

variable {next : Nat} {registers : Registers} {operand : Operand} {number : Int}

/-- The number that an operand stands for by its declared type. -/
def number? (registers : Registers) (operand : Operand) : Option Int :=
  (operand.value.read? registers operand.type.width).map operand.type.number

theorem Stands.number?_eq (h : operand.Stands next registers number) :
    operand.number? registers = some number := by
  rw [number?, h.holds.read, Option.map_some, IntType.number_ofInt,
    h.contains.wrap_eq (IntType.width_bounds h.declarable).1]

/-- A constant stands for its value, whatever the registers hold. -/
theorem number?_constant (registers : Registers) (value : Int64) :
    (constant value).number? registers = some value.toInt :=
  (stands_constant 0 registers value).number?_eq

theorem Formed.stands (h : operand.Formed next)
    (hnumber : operand.number? registers = some number) :
    operand.Stands next registers number := by
  cases h with
  | constant value =>
    rw [number?_constant] at hnumber
    cases hnumber
    exact stands_constant next registers value
  | @register type htype id hid =>
    obtain ⟨bits, hread, rfl⟩ := Option.map_eq_some_iff.1 hnumber
    refine ⟨htype, type.contains_number bits, ⟨rfl, ?_, ?_⟩, by rintro _ _ ⟨⟩⟩
    · rw [IntType.ofInt_number]
      exact hread
    · rintro _ ⟨⟩
      exact hid

theorem Formed.mono {last : Nat} (h : operand.Formed next) (hle : next ≤ last) :
    operand.Formed last := by
  cases h with
  | constant value => exact .constant value
  | register htype hid => exact .register htype (Nat.lt_of_lt_of_le hid hle)

theorem Formed.declarable (h : operand.Formed next) : operand.type ∈ IntType.declarable := by
  cases h with
  | constant value => exact (stands_constant next (fun _ => none) value).declarable
  | register htype hid => exact htype

theorem Formed.typed (h : operand.Formed next) : operand.value.type = operand.type.backend := by
  cases h with
  | constant value => rfl
  | register htype hid => rfl

theorem Formed.sound (h : operand.Formed next) : operand.Sound := by
  cases h with
  | constant value => exact sound_constant value
  | register htype hid => exact sound_register (IntType.width_bounds htype).1 _ _

end Operand

namespace Code.Straight

variable {next : Nat} {left right operand : Operand}

/-- Brought to a type, the value of an operand has that type. -/
theorem type_intCast (h : operand.value.type = operand.type.backend) (type : IntType) (next : Nat) :
    ((intCast operand.value type.backend operand.type.signed).value next).type = type.backend := by
  unfold intCast
  split
  · next hsame =>
    rw [h] at hsame
    rw [value_pure, h, IntType.backend, show operand.type.width = type.width from hsame]
    rfl
  · split <;> rfl

theorem formed_combine (op : Operator) (hleft : left.Formed next) (hright : right.Formed next) :
    ((combine op left right).value next).Formed ((combine op left right).after next) := by
  let first := intCast left.value (left.type.join right.type).backend left.type.signed
  have hvalue : (combine op left right).value next =
      ⟨.register (first.value next).type ((unify left right).after next),
        left.type.join right.type⟩ := rfl
  have hafter : (combine op left right).after next = (unify left right).after next + 1 := by
    unfold combine
    simp only [after_bind, after_pure]
    rfl
  rw [hvalue, hafter, type_intCast hleft.typed]
  exact .register (IntType.join_mem_declarable hleft.declarable hright.declarable)
    (Nat.lt_succ_self _)

theorem formed_negate (h : operand.Formed next) :
    ((negate operand).value next).Formed ((negate operand).after next) := by
  cases h with
  | constant value => exact .constant _
  | register htype hid => exact .register htype (Nat.lt_succ_self next)

end Code.Straight

/-- What the code of an expression leaves is one of these operands. -/
theorem Core.Expr.formed_code {cells : List IntType} {expr : Core.Expr}
    (hcells : ∀ type ∈ cells, type ∈ IntType.declarable) (h : expr.Fits cells) (next : Nat) :
    (expr.code.value next).Formed (expr.code.after next) := by
  induction expr generalizing next with
  | number value => exact .constant value
  | cell id type => exact .register (hcells type (List.mem_of_getElem? h)) (Nat.lt_succ_self next)
  | negate operand ih =>
    rw [Expr.code, Straight.value_bind, Straight.after_bind]
    exact Straight.formed_negate (ih h next)
  | binary op left right ihleft ihright =>
    rw [Expr.code, Straight.value_bind, Straight.after_bind, Straight.value_bind,
      Straight.after_bind]
    have hfirst := ihleft h.1 next
    exact Straight.formed_combine op (hfirst.mono (Nat.le_add_right _ _)) (ihright h.2 _)

namespace IntType

variable {left right type : IntType} {number : Int}

theorem join_comm (left right : IntType) : left.join right = right.join left := by
  unfold join
  rcases Nat.lt_trichotomy left.width right.width with hless | hsame | hgreater
  · rw [if_neg (Nat.not_lt_of_lt hless), if_pos hless, if_pos hless]
  · simp only [hsame, Nat.lt_irrefl, if_false, Bool.and_comm]
  · rw [if_pos hgreater, if_neg (Nat.not_lt_of_lt hgreater), if_pos hgreater]

/-- Each number of a type is one of every type that is wider, unless it has a sign that is
lost there. -/
theorem Contains.widen (h : left.Contains number) (hwider : left.width < type.width)
    (hsign : type.signed = true ∨ 0 ≤ number) : type.Contains number := by
  have hhalf : (2 : Int) ^ (left.width - 1) ≤ 2 ^ (type.width - 1) :=
    pow_le_pow_right₀ (by decide) (by omega)
  have hwhole : (2 : Int) ^ left.width ≤ 2 ^ (type.width - 1) :=
    pow_le_pow_right₀ (by decide) (by omega)
  have htop : (2 : Int) ^ (type.width - 1) ≤ 2 ^ type.width :=
    pow_le_pow_right₀ (by decide) (by omega)
  have hpositive : (0 : Int) < 2 ^ (type.width - 1) := Int.pow_pos (by decide)
  -- With the powers in order, the four cases of two signs are comparisons of bounds.
  unfold Contains at h ⊢
  grind

/-- An operand's number is one of the common type, unless it has a sign that is lost there. -/
theorem Contains.join (h : left.Contains number) (right : IntType)
    (hsign : (left.join right).signed = true ∨ 0 ≤ number) : (left.join right).Contains number := by
  unfold IntType.join at hsign ⊢
  split
  · exact h
  · next hnarrower =>
    rw [if_neg hnarrower] at hsign
    split
    · next hwider =>
      rw [if_pos hwider] at hsign
      exact h.widen hwider hsign
    · next hsame =>
      rw [if_neg hsame] at hsign
      have htop : (2 : Int) ^ (left.width - 1) ≤ 2 ^ left.width :=
        pow_le_pow_right₀ (by decide) (by omega)
      unfold Contains at h ⊢
      grind

theorem wrap_modEq (type : IntType) (value : Int) :
    type.wrap value ≡ value [ZMOD 2 ^ type.width] := by
  unfold wrap
  split
  · have hbmod := Int.bmod_emod (x := value) (m := 2 ^ type.width)
    push_cast at hbmod
    exact hbmod
  · exact Int.mod_modEq value _

end IntType

namespace Tree

/-- The result of an operator among the integers. -/
def Operator.exact (first second : Int) : Operator → Int
  | add => first + second
  | sub => first - second
  | mul => first * second
  | div => first.tdiv second
  | rem => first.tmod second

def Operator.divides : Operator → Bool
  | add | sub | mul => false
  | div | rem => true

variable {type : IntType} {first second : Int} {op : Operator}

/-- Where a quotient is defined, quotient and remainder are those of the integers. -/
theorem Operator.result?_of_divides (hop : op.divides = true) (hsecond : second ≠ 0)
    (hquotient : type.Contains (first.tdiv second)) :
    op.result? type first second = some (op.exact first second) := by
  cases op with
  | add | sub | mul => cases hop
  | div | rem => exact if_pos ⟨hsecond, hquotient⟩

/-- What does not divide has a result, which differs from that of the integers by a multiple. -/
theorem Operator.result?_modEq (hop : op.divides = false) (type : IntType) (first second : Int) :
    ∃ number, op.result? type (type.wrap first) (type.wrap second) = some number ∧
      number ≡ op.exact first second [ZMOD 2 ^ type.width] := by
  have hfirst := type.wrap_modEq first
  have hsecond := type.wrap_modEq second
  cases op with
  | add => exact ⟨_, rfl, (type.wrap_modEq _).trans (hfirst.add hsecond)⟩
  | sub => exact ⟨_, rfl, (type.wrap_modEq _).trans (hfirst.sub hsecond)⟩
  | mul => exact ⟨_, rfl, (type.wrap_modEq _).trans (hfirst.mul hsecond)⟩
  | div | rem => cases hop

end Tree

/-- The common type can hold both numbers if it is signed or neither number is negative. -/
theorem wrap_join_eq {left right : IntType} {first second : Int} (hleft : left ∈ IntType.declarable)
    (hright : right ∈ IntType.declarable) (hfirst : left.Contains first)
    (hsecond : right.Contains second)
    (hsign : (left.join right).signed = true ∨ 0 ≤ first ∧ 0 ≤ second) :
    (left.join right).wrap first = first ∧ (left.join right).wrap second = second := by
  have hwidth := (IntType.width_bounds (IntType.join_mem_declarable hleft hright)).1
  have hfirst' := hfirst.join right (hsign.imp_right And.left)
  have hsecond' : (left.join right).Contains second := by
    rw [IntType.join_comm] at hsign ⊢
    exact hsecond.join left (hsign.imp_right And.right)
  exact ⟨hfirst'.wrap_eq hwidth, hsecond'.wrap_eq hwidth⟩

open Compiler in
/-- Comparing two operands, or combining them, writes code that agrees with the integers whenever
the common type is signed or neither operand is negative; and sums, differences and products agree
up to a multiple of `2 ^ width` whatever the operands are. -/
theorem mixed_operands_agree {session : Session} {function : FunctionId} {draft : Draft}
    (hat : session.builder.At function draft) {left right : Operand}
    (hleft : left.Formed draft.nextRegister) (hright : right.Formed draft.nextRegister) :
    (∀ op : Comparison, ∃ instrs result,
      compare op left right session = .ok result (session.redraft function (draft.extend instrs)) ∧
      ∀ memory registers first second,
        left.number? registers = some first → right.number? registers = some second →
        (left.type.join right.type).signed = true ∨ 0 ≤ first ∧ 0 ≤ second →
        ∃ last, computeAll? memory instrs registers = some last ∧
          result.read? last 1 = some (.ofBool (op.holds first second))) ∧
    ∀ op : Operator, ∃ instrs result,
      combine op left right session = .ok result (session.redraft function (draft.extend instrs)) ∧
      result.type = left.type.join right.type ∧
      ∀ memory registers first second,
        left.number? registers = some first → right.number? registers = some second →
        (op.divides = true →
          (left.type.join right.type).signed = true ∨ 0 ≤ first ∧ 0 ≤ second →
          second ≠ 0 → (left.type.join right.type).Contains (first.tdiv second) →
          ∃ last, computeAll? memory instrs registers = some last ∧
            result.number? last = some (op.exact first second)) ∧
        (op.divides = false →
          ∃ last number, computeAll? memory instrs registers = some last ∧
            result.number? last = some number ∧
            number ≡ op.exact first second [ZMOD 2 ^ (left.type.join right.type).width]) := by
  refine ⟨fun op => ?_, fun op => ?_⟩
  · refine ⟨_, _, writes_compare op hleft.sound hright.sound session function draft hat, ?_⟩
    intro memory registers first second hfirst hsecond hsign
    have hfirst' := hleft.stands hfirst
    have hsecond' := hright.stands hsecond
    have hcomputes := Straight.computes_compareOperands memory op hfirst' hsecond'
    obtain ⟨hwrap, hwrap'⟩ := wrap_join_eq hleft.declarable hright.declarable hfirst'.contains
      hsecond'.contains hsign
    rw [hwrap, hwrap'] at hcomputes
    obtain ⟨last, hlast, -, hread⟩ := hcomputes
    exact ⟨last, hlast, hread⟩
  · refine ⟨_, _, writes_combine op hleft.sound hright.sound session function draft hat, rfl, ?_⟩
    intro memory registers first second hfirst hsecond
    have hfirst' := hleft.stands hfirst
    have hsecond' := hright.stands hsecond
    have hcomputes := Straight.computes_combine memory op hfirst' hsecond'
    refine ⟨fun hop hsign hne hquotient => ?_, fun hop => ?_⟩
    · obtain ⟨hwrap, hwrap'⟩ := wrap_join_eq hleft.declarable hright.declarable hfirst'.contains
        hsecond'.contains hsign
      rw [hwrap, hwrap', Operator.result?_of_divides hop hne hquotient] at hcomputes
      obtain ⟨last, hlast, -, hstands⟩ := hcomputes
      exact ⟨last, hlast, hstands.number?_eq⟩
    · obtain ⟨number, hnumber, hmod⟩ :=
        Operator.result?_modEq hop (left.type.join right.type) first second
      rw [hnumber] at hcomputes
      obtain ⟨last, hlast, -, hstands⟩ := hcomputes
      exact ⟨last, number, hlast, hstands.number?_eq, hmod⟩

/-- A function that has defined two registers. -/
def twoDraft : Draft := { Draft.entry with nextRegister := 2 }

def twoDefined : Session :=
  { Session.start "two" with
    builder := {
      code := {
        name := "two"
        functions :=
          [{ name := "f", internal := false, blocks := twoDraft.blocks, nextRegister := 2,
             taken := twoDraft.taken }] }
      cursor := some ⟨0, 0⟩ } }

/-- Minus seven in 16 bits and 254 in 8 bits without a sign: the first is the smaller one, and is
its own remainder. -/
theorem mixed_operands_agree_twoDefined :
    let left : Operand := ⟨.register (.int 16) 0, ⟨16, true⟩⟩
    let right : Operand := ⟨.register (.int 8) 1, ⟨8, false⟩⟩
    let registers : Registers := fun id => if id = 0 then some ⟨16, -7⟩ else some ⟨8, -2⟩
    (∃ instrs value last, Compiler.compare .less left right twoDefined =
        .ok value (twoDefined.redraft 0 (twoDraft.extend instrs)) ∧
      computeAll? [] instrs registers = some last ∧ value.read? last 1 = some 1) ∧
    ∃ instrs operand last, Compiler.combine .rem left right twoDefined =
        .ok operand (twoDefined.redraft 0 (twoDraft.extend instrs)) ∧
      computeAll? [] instrs registers = some last ∧ operand.number? last = some (-7) := by
  intro left right registers
  have hat : twoDefined.builder.At 0 twoDraft := ⟨rfl, ⟨_, rfl, rfl⟩, Nat.zero_lt_one⟩
  have hformed : left.Formed 2 :=
    .register (by decide : ⟨16, true⟩ ∈ IntType.declarable) (by decide)
  have hformed' : right.Formed 2 :=
    .register (by decide : ⟨8, false⟩ ∈ IntType.declarable) (by decide)
  have hleft : left.number? registers = some (-7) := by decide
  have hright : right.number? registers = some 254 := by decide
  obtain ⟨hcompare, hcombine⟩ := mixed_operands_agree hat hformed hformed'
  obtain ⟨instrs, value, hwritten, hrun⟩ := hcompare .less
  obtain ⟨last, hlast, hread⟩ := hrun [] registers _ _ hleft hright (.inl rfl)
  obtain ⟨instrs', operand, hwritten', -, hrun'⟩ := hcombine .rem
  obtain ⟨last', hlast', hnumber⟩ :=
    (hrun' [] registers _ _ hleft hright).1 rfl (.inl rfl) (by decide) (by decide)
  exact ⟨⟨instrs, value, last, hwritten, hlast, hread⟩,
    instrs', operand, last', hwritten', hlast', hnumber⟩

end BlockLang
