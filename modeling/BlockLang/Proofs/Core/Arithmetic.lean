import BlockLang.Proofs.Code.Machine
import BlockLang.Proofs.Core.Meaning

/-! Words stand for the numbers of a type, and what the machine does to words is what the
language does to numbers. -/

namespace BlockLang

open Code

namespace IntType

/-- The number of the type that a word stands for. -/
def number (type : IntType) (bits : BitVec type.width) : Int :=
  if type.signed then bits.toInt else bits.toNat

variable {type : IntType}

theorem number_ofInt (type : IntType) (value : Int) :
    type.number (.ofInt type.width value) = type.wrap value := by
  unfold number wrap
  split
  · exact BitVec.toInt_ofInt value
  · have hpos : (0 : Int) < 2 ^ type.width := Int.pow_pos (by decide)
    rw [BitVec.toNat_ofInt]
    push_cast
    exact Int.toNat_of_nonneg (Int.emod_nonneg _ (Int.ne_of_gt hpos))

theorem number_injective {first second : BitVec type.width}
    (h : type.number first = type.number second) : first = second := by
  unfold number at h
  split at h
  · exact BitVec.eq_of_toInt_eq h
  · exact BitVec.eq_of_toNat_eq (Int.ofNat.inj h)

@[simp] theorem ofInt_number (bits : BitVec type.width) :
    BitVec.ofInt type.width (type.number bits) = bits := by
  unfold number
  split
  · exact BitVec.ofInt_toInt
  · exact BitVec.eq_of_toNat_eq (by simp)

@[simp] theorem ofInt_wrap (type : IntType) (value : Int) :
    BitVec.ofInt type.width (type.wrap value) = .ofInt type.width value := by
  rw [← number_ofInt, ofInt_number]

theorem contains_number (bits : BitVec type.width) : type.Contains (type.number bits) := by
  unfold Contains number
  split
  · exact ⟨BitVec.le_toInt bits, BitVec.toInt_lt⟩
  · exact ⟨Int.natCast_nonneg _, by exact_mod_cast bits.isLt⟩

theorem contains_wrap (type : IntType) (value : Int) : type.Contains (type.wrap value) := by
  rw [← number_ofInt]
  exact contains_number _

theorem Contains.wrap_eq (htype : 0 < type.width) {value : Int} (h : type.Contains value) :
    type.wrap value = value := by
  unfold Contains at h
  unfold wrap
  split at h
  · next hsigned =>
    rw [if_pos hsigned, ← BitVec.toInt_ofInt]
    exact BitVec.toInt_ofInt_eq_self htype h.1 h.2
  · next hsigned =>
    rw [if_neg hsigned]
    exact Int.emod_eq_of_lt h.1 h.2

end IntType

namespace Code

/-- A number of a type, in more bits. -/
theorem CastOp.apply_widen {source : IntType} {target : Nat} {value : Int}
    (hsource : 0 < source.width) (hvalue : source.Contains value) (hwider : source.width < target) :
    (CastOp.between source.width target source.signed).apply (.ofInt source.width value) target =
      .ofInt target value := by
  have hnumber : source.number (.ofInt source.width value) = value := by
    rw [IntType.number_ofInt, hvalue.wrap_eq hsource]
  unfold IntType.number at hnumber
  unfold CastOp.between
  rw [if_pos hwider]
  split
  · next hsigned =>
    rw [if_pos hsigned] at hnumber
    change BitVec.ofInt target (BitVec.ofInt source.width value).toInt = _
    rw [hnumber]
  · next hsigned =>
    rw [if_neg hsigned] at hnumber
    apply BitVec.eq_of_toNat_eq
    rw [← hnumber, BitVec.ofInt_natCast, BitVec.ofInt_natCast, BitVec.ofNat_toNat, BitVec.setWidth_eq,
      BitVec.ofNat_toNat]
    rfl

/-- Any number, in fewer bits. -/
theorem CastOp.apply_narrow {source target : Nat} (signed : Bool) (value : Int)
    (hnarrower : target < source) :
    (CastOp.between source target signed).apply (.ofInt source value) target =
      .ofInt target value := by
  unfold CastOp.between
  rw [if_neg (Nat.not_lt_of_lt hnarrower)]
  have hpos : (0 : Int) < 2 ^ source := Int.pow_pos (by decide)
  have hdvd : ((2 ^ target : Nat) : Int) ∣ ((2 ^ source : Nat) : Int) := by
    exact_mod_cast Nat.pow_dvd_pow 2 (Nat.le_of_lt hnarrower)
  have hbits : ((BitVec.ofInt source value).toNat : Int) = value % ((2 ^ source : Nat) : Int) := by
    rw [BitVec.toNat_ofInt]
    exact Int.toNat_of_nonneg (Int.emod_nonneg _ (by push_cast; omega))
  apply BitVec.eq_of_toInt_eq
  change ((BitVec.ofInt source value).setWidth target).toInt = _
  rw [BitVec.toInt_setWidth, BitVec.toInt_ofInt, hbits, ← Int.emod_bmod, Int.emod_emod_of_dvd _ hdvd,
    Int.emod_bmod]

variable {type : IntType}

/-- A signed quotient is a number of its type, unless the lowest one is divided by -1. -/
private theorem quotient_iff_signed {width : Nat} (hwidth : 0 < width) (first second : BitVec width) :
    (second.toInt ≠ 0 ∧ IntType.Contains ⟨width, true⟩ (first.toInt.tdiv second.toInt)) ↔
      ¬(second = 0 ∨ first = .intMin width ∧ second = -1) := by
  have hzero : second.toInt = 0 ↔ second = 0 := by
    rw [← BitVec.toInt_inj, BitVec.ofNat_eq_ofNat, BitVec.toInt_zero]
  rw [not_or, IntType.Contains, if_pos rfl]
  refine and_congr (not_congr hzero) ⟨?_, ?_⟩
  · rintro ⟨-, hhigh⟩ ⟨rfl, rfl⟩
    have hlowest : (-1 : BitVec width).toInt = -1 := by
      change (-BitVec.ofNat width 1).toInt = -1
      rw [BitVec.neg_one_eq_allOnes, BitVec.toInt_allOnes, if_pos hwidth]
    rw [BitVec.toInt_intMin_of_pos hwidth, hlowest, Int.tdiv_neg, Int.tdiv_one, Int.neg_neg] at hhigh
    exact Int.lt_irrefl _ hhigh
  · intro hne
    have hquotient := BitVec.toInt_sdiv_of_ne_or_ne first second
      (Decidable.not_and_iff_not_or_not.1 hne)
    rw [← hquotient]
    exact ⟨BitVec.le_toInt _, BitVec.toInt_lt⟩

/-- An unsigned quotient is always a number of its type. -/
private theorem quotient_iff_unsigned {width : Nat} (first second : BitVec width) :
    ((second.toNat : Int) ≠ 0 ∧
      IntType.Contains ⟨width, false⟩ ((first.toNat : Int).tdiv second.toNat)) ↔ ¬second = 0 := by
  have hzero : (second.toNat : Int) = 0 ↔ second = 0 := by
    rw [← BitVec.toNat_inj, BitVec.ofNat_eq_ofNat, BitVec.toNat_ofNat, Nat.zero_mod]
    exact Int.natCast_eq_zero
  have hquotient : first.toNat / second.toNat < 2 ^ width :=
    Nat.lt_of_le_of_lt (Nat.div_le_self _ _) first.isLt
  rw [← Int.ofNat_tdiv, IntType.Contains, if_neg Bool.false_ne_true]
  refine ⟨fun h => (not_congr hzero).1 h.1, fun h => ⟨(not_congr hzero).2 h, ?_, ?_⟩⟩
  · exact Int.natCast_nonneg _
  · exact_mod_cast hquotient

private theorem quotient_signed {width : Nat} (hwidth : 0 < width) (first second : BitVec width)
    {bits : BitVec width} {result : Int} (hbits : bits = .ofInt width result) :
    (if second = 0 ∨ first = .intMin width ∧ second = -1 then none else some bits) =
      (if second.toInt ≠ 0 ∧ IntType.Contains ⟨width, true⟩ (first.toInt.tdiv second.toInt) then
        some result else none).map (BitVec.ofInt width) := by
  have hiff := quotient_iff_signed hwidth first second
  rw [hbits]
  split
  · next h => rw [if_neg (fun hdefined => hiff.1 hdefined h)]; rfl
  · next h => rw [if_pos (hiff.2 h)]; rfl

private theorem quotient_unsigned {width : Nat} (first second : BitVec width) {bits : BitVec width}
    {result : Int} (hbits : bits = .ofInt width result) :
    (if second = 0 then none else some bits) =
      (if (second.toNat : Int) ≠ 0 ∧
        IntType.Contains ⟨width, false⟩ ((first.toNat : Int).tdiv second.toNat) then
          some result else none).map (BitVec.ofInt width) := by
  have hiff := quotient_iff_unsigned first second
  rw [hbits]
  split
  · next h => rw [if_neg (fun hdefined => hiff.1 hdefined h)]; rfl
  · next h => rw [if_pos (hiff.2 h)]; rfl

/-- What the machine does to two words is what the language does to their numbers. -/
theorem BinOp.result?_eq (htype : 0 < type.width) (op : Tree.Operator)
    (first second : BitVec type.width) :
    (op.binOp type.signed).result? first second =
      (op.result? type (type.number first) (type.number second)).map (.ofInt type.width) := by
  cases op with
  | add =>
    change some (first + second) = some (BitVec.ofInt _ (type.wrap _))
    rw [IntType.ofInt_wrap, BitVec.ofInt_add, IntType.ofInt_number, IntType.ofInt_number]
  | sub =>
    change some (first - second) = some (BitVec.ofInt _ (type.wrap _))
    rw [IntType.ofInt_wrap, Int.sub_eq_add_neg, BitVec.ofInt_add, BitVec.ofInt_neg,
      IntType.ofInt_number, IntType.ofInt_number, BitVec.sub_eq_add_neg]
  | mul =>
    change some (first * second) = some (BitVec.ofInt _ (type.wrap _))
    rw [IntType.ofInt_wrap, BitVec.ofInt_mul, IntType.ofInt_number, IntType.ofInt_number]
  | div =>
    obtain ⟨width, signed⟩ := type
    cases signed with
    | true =>
      have hresult : first.sdiv second = .ofInt width (first.toInt.tdiv second.toInt) :=
        BitVec.eq_of_toInt_eq (by rw [BitVec.toInt_sdiv, BitVec.toInt_ofInt])
      exact quotient_signed htype first second hresult
    | false =>
      have hresult : first / second = .ofInt width ((first.toNat : Int).tdiv second.toNat) := by
        rw [← Int.ofNat_tdiv, BitVec.ofInt_natCast, ← BitVec.udiv_def]
      exact quotient_unsigned first second hresult
  | rem =>
    obtain ⟨width, signed⟩ := type
    cases signed with
    | true =>
      have hresult : first.srem second = .ofInt width (first.toInt.tmod second.toInt) := by
        rw [← BitVec.toInt_srem, BitVec.ofInt_toInt]
      exact quotient_signed htype first second hresult
    | false =>
      have hresult : first % second = .ofInt width ((first.toNat : Int).tmod second.toNat) := by
        rw [← Int.ofNat_tmod, BitVec.ofInt_natCast, ← BitVec.umod_def]
      exact quotient_unsigned first second hresult

/-- The result of an operator is a number of its type. -/
theorem contains_result? {op : Tree.Operator} {first second : BitVec type.width} {result : Int}
    (h : op.result? type (type.number first) (type.number second) = some result) :
    type.Contains result := by
  cases op with
  | add | sub | mul =>
    cases h
    exact type.contains_wrap _
  | div =>
    obtain ⟨hdefined, hresult⟩ := Option.ite_none_right_eq_some.1 h
    cases hresult
    exact hdefined.2
  | rem =>
    obtain ⟨-, hresult⟩ := Option.ite_none_right_eq_some.1 h
    cases hresult
    obtain ⟨width, signed⟩ := type
    cases signed with
    | true =>
      change IntType.Contains ⟨width, true⟩ (first.toInt.tmod second.toInt)
      rw [← BitVec.toInt_srem]
      exact IntType.contains_number _
    | false =>
      change IntType.Contains ⟨width, false⟩ ((first.toNat : Int).tmod second.toNat)
      rw [← Int.ofNat_tmod, ← BitVec.toNat_umod]
      exact IntType.contains_number _

theorem Predicate.holds_eq (op : Tree.Comparison) (first second : BitVec type.width) :
    (op.predicate type.signed).holds first second =
      op.holds (type.number first) (type.number second) := by
  have heq : (first == second) = decide (type.number first = type.number second) := by
    by_cases hsame : first = second
    · simp [hsame]
    · have hdiffer : type.number first ≠ type.number second :=
        fun hnumber => hsame (IntType.number_injective hnumber)
      simp [hsame, hdiffer]
  cases op with
  | equal => exact heq
  | notEqual =>
    change (!(first == second)) = _
    rw [heq]
    simp [Tree.Comparison.holds]
  | less | lessEqual | greater | greaterEqual =>
    unfold IntType.number Tree.Comparison.predicate Tree.Comparison.holds
    cases type.signed <;> simp [Predicate.holds, BitVec.slt, BitVec.sle, BitVec.ult, BitVec.ule]

end Code

end BlockLang
