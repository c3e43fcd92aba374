import BlockLang.Proofs.Code.Neat
import BlockLang.Proofs.Core.Build

/-! The code of an expression is neat and leaves a value of the expression's type. -/

namespace BlockLang

open Code

/-- The numbers of `bits + 1` bits, read with a sign. -/
def InRange (bits : Nat) (value : Int) : Prop := -2 ^ bits ≤ value ∧ value < 2 ^ bits

private theorem pow_succ_cast (bits : Nat) : ((2 ^ (bits + 1) : Nat) : Int) = 2 * 2 ^ bits := by
  rw [Nat.pow_succ, Nat.mul_comm]
  push_cast
  rfl

theorem inRange_bmod (bits : Nat) (value : Int) : InRange bits (value.bmod (2 ^ (bits + 1))) := by
  have hpos : 0 < 2 ^ (bits + 1) := Nat.two_pow_pos _
  have hlow : _ ≤ value.bmod (2 ^ (bits + 1)) := Int.le_bmod hpos
  have hhigh : value.bmod (2 ^ (bits + 1)) < _ := Int.bmod_lt hpos
  rw [pow_succ_cast] at hlow hhigh
  exact ⟨by omega, by omega⟩

theorem InRange.bmod_eq {bits : Nat} {value : Int} (h : InRange bits value) :
    value.bmod (2 ^ (bits + 1)) = value := by
  obtain ⟨hlow, hhigh⟩ := h
  apply Int.bmod_eq_of_le_mul_two
  · rw [pow_succ_cast]
    omega
  · rw [pow_succ_cast]
    omega

theorem InRange.mono {bits more : Nat} {value : Int} (h : InRange bits value) (hle : bits ≤ more) :
    InRange more value := by
  have hpow : (2 : Int) ^ bits ≤ 2 ^ more := by
    exact_mod_cast Nat.pow_le_pow_right (by decide) hle
  obtain ⟨hlow, hhigh⟩ := h
  exact ⟨by omega, by omega⟩

theorem InRange.toInt_ofInt {bits : Nat} {value : Int} (h : InRange bits value) (hbits : bits ≤ 63) :
    (Int64.ofInt value).toInt = value := by
  obtain ⟨hlow, hhigh⟩ := h.mono hbits
  exact Int64.toInt_ofInt_of_le hlow hhigh

theorem inRange_int64 (value : Int64) : InRange 63 value.toInt :=
  ⟨value.le_toInt, value.toInt_lt⟩

theorem inRange_int32 {value : Int64} (hlow : Int32.minValue.toInt64 ≤ value)
    (hhigh : value ≤ Int32.maxValue.toInt64) : InRange 31 value.toInt := by
  have hmin : Int32.minValue.toInt64.toInt = -2 ^ 31 := by decide
  have hmax : Int32.maxValue.toInt64.toInt = 2 ^ 31 - 1 := by decide
  rw [Int64.le_iff_toInt_le] at hlow hhigh
  exact ⟨by omega, by omega⟩

namespace Code.Straight

/-- Narrowing a constant keeps its lowest bits, and widening keeps its value. -/
theorem toInt_castConstant {source target : Nat} {constant : Int64}
    (hconstant : InRange source constant.toInt) (hsource : source ≤ 63) :
    (castConstant (source + 1) (target + 1) true constant).toInt =
      if target < source then constant.toInt.bmod (2 ^ (target + 1)) else constant.toInt := by
  unfold castConstant foldCast signedValue
  by_cases hnarrow : target < source
  · have hlong : ¬ 64 ≤ target + 1 := by omega
    simp only [Nat.add_lt_add_iff_right, hnarrow, if_true, Nat.succ_ne_zero, if_false, hlong,
      BitVec.toInt_ofInt]
    exact (inRange_bmod target constant.toInt).toInt_ofInt (by omega)
  · simp only [Nat.add_lt_add_iff_right, hnarrow, if_false, if_true, Nat.succ_ne_zero]
    split
    · exact hconstant.toInt_ofInt hsource
    · rw [BitVec.toInt_ofInt, hconstant.bmod_eq]
      exact hconstant.toInt_ofInt hsource

theorem inRange_castConstant {source target : Nat} {constant : Int64}
    (hconstant : InRange source constant.toInt) (hsource : source ≤ 63) :
    InRange target (castConstant (source + 1) (target + 1) true constant).toInt := by
  rw [toInt_castConstant hconstant hsource]
  split
  · exact inRange_bmod target constant.toInt
  · exact hconstant.mono (by omega)

end Code.Straight

theorem IntType.width_bounds {type : IntType} (h : type ∈ IntType.declarable) :
    1 ≤ type.width ∧ type.width ≤ 64 := by
  revert h type
  decide

theorem IntType.join_mem_declarable {left right : IntType} (hleft : left ∈ IntType.declarable)
    (hright : right ∈ IntType.declarable) : left.join right ∈ IntType.declarable := by
  revert hright
  revert right
  revert hleft
  revert left
  decide

/-- A known value of the declared type. Constants have signed types only. -/
structure Operand.Neat (known : List Value) (operand : Operand) : Prop where
  known : operand.value.Known known
  typed : operand.value.type = operand.type.backend
  declarable : operand.type ∈ IntType.declarable
  signed : ∀ type constant, operand.value = .const type constant → operand.type.signed = true

theorem Operand.Neat.mono {known more : List Value} {operand : Operand}
    (h : operand.Neat known) (hsubset : known ⊆ more) : operand.Neat more :=
  ⟨h.known.mono hsubset, h.typed, h.declarable, h.signed⟩

theorem Operand.neat_constant (known : List Value) (value : Int64) :
    (Operand.constant value).Neat known := by
  have hnarrow : IntType.int32 ∈ IntType.declarable := by decide
  have hwide : IntType.int64 ∈ IntType.declarable := by decide
  unfold Operand.constant IntType.ofConstant
  split
  · next hrange => exact ⟨⟨31, rfl, inRange_int32 hrange.1 hrange.2⟩, rfl, hnarrow, fun _ _ _ => rfl⟩
  · exact ⟨⟨63, rfl, inRange_int64 value⟩, rfl, hwide, fun _ _ _ => rfl⟩

namespace Code.Straight

variable {cells : List IntType} {known : List Value}

/-- A value at the width of another type. -/
theorem leaves_intCast {operand : Operand} (h : operand.Neat known) {type : IntType}
    (htype : type ∈ IntType.declarable) :
    (intCast operand.value type.backend operand.type.signed).Leaves cells known
      fun more value => value.Known more ∧ value.type = type.backend := by
  obtain ⟨value, source⟩ := operand
  obtain ⟨hknown, htyped, hsource, hsigned⟩ := h
  dsimp only at hknown htyped hsource hsigned ⊢
  have hbits : value.type.bits = source.width := by rw [htyped]; rfl
  unfold intCast
  split
  · next hsame =>
    refine leaves_pure ⟨hknown, ?_⟩
    rw [hbits] at hsame
    rw [htyped, IntType.backend, hsame]
    rfl
  · next hdifferent =>
    cases value with
    | const constantType constant =>
      obtain ⟨bits, rfl, hrange⟩ := hknown
      have hwidth := (IntType.width_bounds hsource).2
      have htarget := (IntType.width_bounds htype).1
      obtain ⟨target, htarget⟩ : ∃ target, type.backend = .int (target + 1) :=
        ⟨type.width - 1, by rw [IntType.backend]; congr 1; omega⟩
      refine leaves_pure ⟨⟨target, htarget, ?_⟩, rfl⟩
      rw [hsigned _ _ rfl, htarget]
      exact inRange_castConstant hrange (by change bits + 1 = source.width at hbits; omega)
    | register registerType id =>
      refine (leaves_define ?_ ?_ (fun _ => rfl)).mono ?_
      · intro _ value hvalue
        rw [List.mem_singleton.1 hvalue]
        exact hknown
      · intro _
        change CastOp.fits (.between registerType.bits type.backend.bits source.signed)
          registerType.bits type.backend.bits = true
        change ¬ registerType.bits = type.backend.bits at hdifferent
        unfold CastOp.between
        split
        · split <;> simpa [CastOp.fits]
        · simp only [CastOp.fits, decide_eq_true_eq]
          omega
      · rintro more _ ⟨hmore, _, rfl⟩
        exact ⟨hmore, rfl⟩

theorem leaves_unify {left right : Operand} (hleft : left.Neat known) (hright : right.Neat known) :
    (unify left right).Leaves cells known fun more unified =>
      unified.1.Known more ∧ unified.2.1.Known more ∧
        unified.1.type = unified.2.2.backend ∧ unified.2.1.type = unified.2.2.backend ∧
          unified.2.2 = left.type.join right.type := by
  have htype := IntType.join_mem_declarable hleft.declarable hright.declarable
  refine (leaves_intCast hleft htype).bind ?_
  rintro middle first hmiddle ⟨hfirst, hfirstType⟩
  refine (leaves_intCast (hright.mono hmiddle) htype).bind ?_
  rintro more second hmore ⟨hsecond, hsecondType⟩
  exact leaves_pure ⟨hfirst.mono hmore, hsecond, hfirstType, hsecondType, rfl⟩

private theorem known_pair {first second : Value} (hfirst : first.Known known)
    (hsecond : second.Known known) : ∀ value ∈ [first, second], value.Known known := by
  intro value hvalue
  rcases List.mem_cons.1 hvalue with rfl | hvalue
  · exact hfirst
  · rw [List.mem_singleton.1 hvalue]
    exact hsecond

theorem leaves_load {source : GlobalId} {type : IntType} (h : cells[source]? = some type) :
    (load source type.backend).Leaves cells known fun more value =>
      value.Known more ∧ ∃ id, value = .register type.backend id :=
  leaves_define (fun _ _ hmem => by cases hmem) (fun _ => ⟨type, h, rfl⟩) (fun _ => rfl)

theorem leaves_binary (op : BinOp) {first second : Value} (hfirst : first.Known known)
    (hsecond : second.Known known) (htype : first.type = second.type) :
    (binary op first second).Leaves cells known fun more value =>
      value.Known more ∧ ∃ id, value = .register first.type id :=
  leaves_define (fun _ => known_pair hfirst hsecond) (fun _ => ⟨htype, rfl⟩) (fun _ => rfl)

theorem leaves_compare (predicate : Predicate) {first second : Value}
    (hfirst : first.Known known) (hsecond : second.Known known)
    (htype : first.type = second.type) :
    (compare predicate first second).Leaves cells known fun more value =>
      value.Known more ∧ ∃ id, value = .register (.int 1) id :=
  leaves_define (fun _ => known_pair hfirst hsecond) (fun _ => ⟨htype, rfl⟩) (fun _ => rfl)

theorem leaves_combine (op : Tree.Operator) {left right : Operand} (hleft : left.Neat known)
    (hright : right.Neat known) :
    (combine op left right).Leaves cells known fun more operand => operand.Neat more := by
  refine (leaves_unify hleft hright).bind ?_
  rintro middle ⟨first, second, type⟩ - ⟨hfirst, hsecond, hfirstType, hsecondType, rfl⟩
  refine (leaves_binary _ hfirst hsecond (hfirstType.trans hsecondType.symm)).bind ?_
  rintro more _ - ⟨hmore, id, rfl⟩
  exact leaves_pure ⟨hmore, hfirstType,
    IntType.join_mem_declarable hleft.declarable hright.declarable, fun _ _ h => by cases h⟩

theorem leaves_compareOperands (op : Tree.Comparison) {left right : Operand}
    (hleft : left.Neat known) (hright : right.Neat known) :
    (compareOperands op left right).Leaves cells known fun more value =>
      value.Known more ∧ value.type = .int 1 := by
  refine (leaves_unify hleft hright).bind ?_
  rintro middle ⟨first, second, type⟩ - ⟨hfirst, hsecond, hfirstType, hsecondType, rfl⟩
  refine (leaves_compare _ hfirst hsecond (hfirstType.trans hsecondType.symm)).mono ?_
  rintro more _ ⟨hmore, id, rfl⟩
  exact ⟨hmore, rfl⟩

theorem leaves_negate {operand : Operand} (h : operand.Neat known) :
    (negate operand).Leaves cells known fun more negated => negated.Neat more := by
  unfold negate
  split
  · exact leaves_pure (Operand.neat_constant _ _)
  · have hwidth := (IntType.width_bounds h.declarable).1
    have hzero : (Value.const operand.type.backend 0).Known known := by
      refine ⟨operand.type.width - 1, ?_, ?_, ?_⟩
      · rw [IntType.backend]
        congr 1
        omega
      · exact Int.neg_nonpos_of_nonneg (Int.pow_nonneg (by decide))
      · exact Int.pow_pos (by decide)
    refine (leaves_binary .sub hzero h.known h.typed.symm).bind ?_
    rintro more _ - ⟨hmore, id, rfl⟩
    exact leaves_pure ⟨hmore, rfl, h.declarable, fun _ _ h => by cases h⟩

end Code.Straight

namespace Core

open Code.Straight

variable {cells : List IntType} {known : List Value}

theorem Expr.leaves_code (hcells : ∀ type ∈ cells, type ∈ IntType.declarable) {expr : Expr}
    (h : expr.Fits cells) : expr.code.Leaves cells known fun more operand => operand.Neat more := by
  induction expr generalizing known with
  | number value => exact leaves_pure (Operand.neat_constant _ _)
  | cell id type =>
    refine (leaves_load h).bind ?_
    rintro more _ - ⟨hmore, _, rfl⟩
    exact leaves_pure ⟨hmore, rfl, hcells type (List.mem_of_getElem? h), fun _ _ h => by cases h⟩
  | negate operand ih =>
    refine (ih h).bind ?_
    intro more value _ hvalue
    exact leaves_negate hvalue
  | binary op left right ihleft ihright =>
    refine (ihleft h.1).bind ?_
    intro middle first _ hfirst
    refine (ihright h.2).bind ?_
    intro more second hmore hsecond
    exact leaves_combine op (hfirst.mono hmore) hsecond

theorem Cond.leaves_code (hcells : ∀ type ∈ cells, type ∈ IntType.declarable) {cond : Cond}
    (h : cond.Fits cells) :
    cond.code.Leaves cells known fun more value => value.Known more ∧ value.type = .int 1 := by
  refine (Expr.leaves_code hcells h.1).bind ?_
  intro middle first _ hfirst
  refine (Expr.leaves_code hcells h.2).bind ?_
  intro more second hmore hsecond
  exact leaves_compareOperands cond.op (hfirst.mono hmore) hsecond

theorem Expr.leaves_codeAs (hcells : ∀ type ∈ cells, type ∈ IntType.declarable) {expr : Expr}
    (h : expr.Fits cells) {type : IntType} (htype : type ∈ IntType.declarable) :
    (expr.codeAs type).Leaves cells known fun more value =>
      value.Known more ∧ value.type = type.backend := by
  refine (Expr.leaves_code hcells h).bind ?_
  intro middle operand _ hoperand
  exact leaves_intCast hoperand htype

end Core

end BlockLang
