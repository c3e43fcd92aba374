import BlockLang.Proofs.Code.Computes
import BlockLang.Proofs.Core.Arithmetic
import BlockLang.Proofs.Core.Typing

/-! A constant is cast when the code is written, a register when it is run. Both casts give the
same word, whatever the constant is and whether or not it was a number of its width before. -/

namespace BlockLang.Code

open Straight

variable {source target : Nat} {signed : Bool} {value : Int64}

theorem inRange_toInt {bits : Nat} (word : BitVec (bits + 1)) : InRange bits word.toInt :=
  ⟨BitVec.le_toInt word, BitVec.toInt_lt⟩

theorem toInt_castConstant_narrow (htarget : 0 < target) (hnarrower : target < source)
    (hlong : source ≤ 64) :
    (castConstant source target signed value).toInt = (BitVec.ofInt target value.toInt).toInt := by
  obtain ⟨bits, rfl⟩ := Nat.exists_eq_add_one.2 htarget
  unfold castConstant foldCast signedValue
  rw [if_pos hnarrower, if_neg (Nat.ne_of_gt htarget), if_neg (by omega)]
  exact (inRange_toInt _).toInt_ofInt (by omega)

theorem toInt_castConstant_sext (hsource : 0 < source) (hwider : source < target)
    (hlong : target ≤ 64) :
    (castConstant source target true value).toInt = (BitVec.ofInt source value.toInt).toInt := by
  obtain ⟨bits, rfl⟩ := Nat.exists_eq_add_one.2 hsource
  unfold castConstant foldCast signedValue
  rw [if_neg (Nat.not_lt_of_lt hwider), if_pos rfl, if_neg (Nat.ne_of_gt hsource),
    if_neg (by omega)]
  exact (inRange_toInt _).toInt_ofInt (by omega)

theorem toInt_castConstant_zext (hwider : source < target) (hlong : target ≤ 64) :
    (castConstant source target false value).toInt = (BitVec.ofInt source value.toInt).toNat := by
  unfold castConstant foldCast unsignedValue
  rw [if_neg (Nat.not_lt_of_lt hwider), if_neg Bool.false_ne_true, if_neg (by omega)]
  have hbound : (BitVec.ofInt source value.toInt).toNat < 2 ^ 63 :=
    Nat.lt_of_lt_of_le (BitVec.isLt _) (Nat.pow_le_pow_right (by decide) (by omega))
  have hrange : InRange 63 (BitVec.ofInt source value.toInt).toNat :=
    ⟨by omega, by exact_mod_cast hbound⟩
  exact hrange.toInt_ofInt (Nat.le_refl 63)

/-- The constant has the bits that the instruction makes of the same word. -/
theorem ofInt_castConstant_eq (hsource : 0 < source ∧ source ≤ 64)
    (htarget : 0 < target ∧ target ≤ 64) (hdifferent : source ≠ target) :
    BitVec.ofInt target (castConstant source target signed value).toInt =
      (CastOp.between source target signed).apply (.ofInt source value.toInt) target := by
  rcases Nat.lt_or_gt_of_ne hdifferent with hwider | hnarrower
  · unfold CastOp.between
    rw [if_pos hwider]
    cases signed with
    | true =>
      rw [toInt_castConstant_sext hsource.1 hwider htarget.2]
      rfl
    | false =>
      rw [toInt_castConstant_zext hwider htarget.2, BitVec.ofInt_natCast, BitVec.ofNat_toNat]
      rfl
  · -- The number may be any that has these bits: reading it with a sign takes none of them away.
    rw [toInt_castConstant_narrow htarget.1 hnarrower hsource.2, CastOp.apply_narrow _ _ hnarrower]
    apply BitVec.eq_of_toInt_eq
    rw [BitVec.toInt_ofInt, BitVec.toInt_ofInt, Int.bmod_bmod]

/-- What is written to cast a register. -/
def castInstrs (source target : Nat) (signed : Bool) (register next : Nat) : List Instr :=
  if source = target then []
  else
    [.cast (.register (.int target) next) (.between source target signed)
      (.register (.int source) register)]

/-- What stands for a register once it is cast. -/
def castResult (source target register next : Nat) : Value :=
  if source = target then .register (.int target) register else .register (.int target) next

theorem intCast_register_eq {builder : Builder} {function : FunctionId} {draft : Draft}
    (hat : builder.At function draft) (register : Nat) (htarget : 0 < target) :
    Build.intCast (.register (.int source) register) (.int target) signed builder =
      .ok (castResult source target register draft.nextRegister)
        (builder.redraft function
          (draft.extend (castInstrs source target signed register draft.nextRegister))) := by
  rw [Build.intCast_eq hat (by rintro _ _ ⟨⟩) (show 0 < (Ty.int target).bits from htarget)]
  unfold castResult castInstrs
  by_cases hsame : source = target
  · subst hsame
    have hcode : Straight.intCast (.register (.int source) register) (.int source) signed =
        pure (.register (.int source) register) := if_pos rfl
    rw [hcode, if_pos rfl, if_pos rfl]
    rfl
  · have hcode : Straight.intCast (.register (.int source) register) (.int target) signed =
        define (.int target) fun dest =>
          .cast dest (.between source target signed) (.register (.int source) register) :=
      if_neg hsame
    rw [hcode, if_neg hsame, if_neg hsame]
    rfl

/-- Run on a register that holds a word, the code leaves the word that the cast makes of it. -/
theorem computeAll?_castInstrs {register : Nat} {registers : Registers} {bits : BitVec source}
    (hregister : registers register = some ⟨source, bits⟩) {result : BitVec target}
    (hsame : ∀ h : source = target, bits.cast h = result)
    (hcast : source ≠ target → (CastOp.between source target signed).apply bits target = result)
    (memory : List Word) (next : Nat) :
    ∃ last, computeAll? memory (castInstrs source target signed register next) registers =
        some last ∧
      (castResult source target register next).read? last target = some result := by
  unfold castInstrs castResult
  by_cases heq : source = target
  · subst heq
    rw [if_pos rfl, if_pos rfl]
    refine ⟨registers, rfl, ?_⟩
    simp [Value.read?, hregister, ← hsame rfl]
  · rw [if_neg heq, if_neg heq]
    refine ⟨fun other => if other = next then some ⟨target, result⟩ else registers other, ?_, ?_⟩
    · simp [computeAll?, Instr.compute?, Value.read?, Value.define?, Value.type, Ty.bits, hregister,
        hcast heq]
    · simp [Value.read?]

/-- Casting a constant writes nothing and leaves a constant. Its bits are those that the same cast
of a register leaves, if the register holds the bits of the constant; and it is no larger than a
number of the narrower width can be, read with a sign if bits were cut off. -/
theorem intCast_folds (source target : Nat) (hsource : 1 ≤ source ∧ source ≤ 64)
    (htarget : 1 ≤ target ∧ target ≤ 64) (signed : Bool) (value : Int64) :
    ∃ folded : Int64,
      (∀ builder, Build.intCast (.const (.int source) value) (.int target) signed builder =
        .ok (.const (.int target) folded) builder) ∧
      (∀ (builder : Builder) (function : FunctionId) (draft : Draft) (register : Nat),
        builder.At function draft →
        ∃ result, Build.intCast (.register (.int source) register) (.int target) signed builder =
            .ok result (builder.redraft function
              (draft.extend (castInstrs source target signed register draft.nextRegister))) ∧
          ∀ memory registers,
            registers register = some ⟨source, BitVec.ofInt source value.toInt⟩ →
            ∃ last, computeAll? memory
                (castInstrs source target signed register draft.nextRegister) registers = some last ∧
              result.read? last target = some (BitVec.ofInt target folded.toInt)) ∧
      (target < source → -2 ^ (target - 1) ≤ folded.toInt ∧ folded.toInt < 2 ^ (target - 1)) ∧
      (source < target → signed = true →
        -2 ^ (source - 1) ≤ folded.toInt ∧ folded.toInt < 2 ^ (source - 1)) ∧
      (source < target → signed = false → 0 ≤ folded.toInt ∧ folded.toInt < 2 ^ source) := by
  by_cases hsame : source = target
  · subst hsame
    have hcode : Build.intCast (.const (.int source) value) (.int source) signed =
        pure (.const (.int source) value) := if_pos rfl
    refine ⟨value, fun builder => by rw [hcode]; rfl, ?_, fun h => (Nat.lt_irrefl _ h).elim,
      fun h => (Nat.lt_irrefl _ h).elim, fun h => (Nat.lt_irrefl _ h).elim⟩
    intro builder function draft register hat
    refine ⟨_, intCast_register_eq hat register htarget.1, ?_⟩
    intro memory registers hregister
    exact computeAll?_castInstrs hregister (fun _ => rfl) (fun h => (h rfl).elim) memory _
  · refine ⟨castConstant source target signed value, ?_, ?_, ?_, ?_, ?_⟩
    · intro builder
      have hbits : (Value.const (.int source) value).type.bits ≠ (Ty.int target).bits := hsame
      have hfold : foldCast (Ty.int source).bits (Ty.int target).bits signed value =
          .ok (castConstant source target signed value) :=
        foldCast_eq hsource.1 htarget.1 signed value
      unfold Build.intCast
      rw [if_neg hbits]
      dsimp only
      rw [hfold]
      rfl
    · intro builder function draft register hat
      refine ⟨_, intCast_register_eq hat register htarget.1, ?_⟩
      intro memory registers hregister
      refine computeAll?_castInstrs hregister (fun h => (hsame h).elim) (fun _ => ?_) memory _
      exact (ofInt_castConstant_eq hsource htarget hsame).symm
    · intro hnarrower
      rw [toInt_castConstant_narrow htarget.1 hnarrower hsource.2]
      exact ⟨BitVec.le_toInt _, BitVec.toInt_lt⟩
    · rintro hwider rfl
      rw [toInt_castConstant_sext hsource.1 hwider htarget.2]
      exact ⟨BitVec.le_toInt _, BitVec.toInt_lt⟩
    · rintro hwider rfl
      rw [toInt_castConstant_zext hwider htarget.2]
      exact ⟨Int.natCast_nonneg _, by exact_mod_cast BitVec.isLt _⟩

/-- A function that has loaded a byte. -/
def byteDraft : Draft where
  blocks := [{ label := "entry", newest := [.load (.register (.int 8) 0) 0] }]
  nextRegister := 1

def byteLoaded : Builder where
  code := {
    name := "bytes"
    globals := [⟨"byte", .int 8⟩]
    functions :=
      [{ name := "f", internal := false, blocks := byteDraft.blocks, nextRegister := 1 }] }
  cursor := some ⟨0, 0⟩

/-- A byte of ones is widened without a sign, be it written as -1 or loaded. -/
theorem intCast_folds_byte :
    ∃ folded : Int64,
      Build.intCast (.const (.int 8) (-1)) (.int 16) false byteLoaded =
        .ok (.const (.int 16) folded) byteLoaded ∧
      (∃ result last,
        Build.intCast (.register (.int 8) 0) (.int 16) false byteLoaded =
          .ok result (byteLoaded.redraft 0 (byteDraft.extend (castInstrs 8 16 false 0 1))) ∧
        computeAll? [⟨8, 255⟩] (castInstrs 8 16 false 0 1) (fun _ => some ⟨8, 255⟩) = some last ∧
        result.read? last 16 = some (.ofInt 16 folded.toInt)) ∧
      0 ≤ folded.toInt ∧ folded.toInt < 2 ^ 8 := by
  have hat : byteLoaded.At 0 byteDraft := ⟨rfl, ⟨_, rfl, rfl⟩, Nat.zero_lt_one⟩
  obtain ⟨folded, hfolded, hwritten, -, -, hrange⟩ :=
    intCast_folds 8 16 (by decide) (by decide) false (-1)
  obtain ⟨result, hresult, hrun⟩ := hwritten byteLoaded 0 byteDraft 0 hat
  obtain ⟨last, hlast, hread⟩ := hrun [⟨8, 255⟩] (fun _ => some ⟨8, 255⟩) (by decide)
  exact ⟨folded, hfolded byteLoaded, ⟨result, last, hresult, hlast, hread⟩,
    hrange (by decide) rfl⟩

end BlockLang.Code
