import BlockLang.Proofs.Code.Machine
import BlockLang.Proofs.Code.Neat

/-! What straight-line code does to the registers. The registers below the first one it
defines are left alone, so values that were computed before are still there. -/

namespace BlockLang.Code

/-- The registers once all instructions have been computed. -/
def computeAll? (memory : List Word) : List Instr → Registers → Option Registers
  | [], registers => some registers
  | instr :: rest, registers => do
    let next ← instr.compute? memory registers
    computeAll? memory rest next

theorem computeAll?_append (memory : List Word) (first second : List Instr)
    (registers : Registers) : computeAll? memory (first ++ second) registers =
      computeAll? memory first registers >>= computeAll? memory second := by
  induction first generalizing registers with
  | nil => rfl
  | cons instr rest ih =>
    rw [List.cons_append, computeAll?, computeAll?, bind_assoc]
    exact congrArg _ (funext fun next => ih next)

theorem Value.read?_congr {first second : Registers} {value : Value}
    (h : ∀ id, value.register? = some id → second id = first id) (width : Nat) :
    value.read? second width = value.read? first width := by
  cases value with
  | const type number => cases type <;> rfl
  | register type id =>
    cases type with
    | void => rfl
    | int bits => simp only [Value.read?, h id rfl]
    | ptr => rfl

theorem Instr.compute?_binary {memory : List Word} {registers : Registers} {left right : Value}
    {width : Nat} (hwidth : left.type.bits = width) {first second : BitVec width}
    (hfirst : left.read? registers width = some first)
    (hsecond : right.read? registers width = some second) (dest : Value) (op : BinOp) :
    (Instr.binary dest op left right).compute? memory registers =
      op.result? first second >>= fun result => dest.define? registers ⟨width, result⟩ := by
  subst hwidth
  simp only [Instr.compute?, hfirst, hsecond]
  rfl

theorem Instr.compute?_compare {memory : List Word} {registers : Registers} {left right : Value}
    {width : Nat} (hwidth : left.type.bits = width) {first second : BitVec width}
    (hfirst : left.read? registers width = some first)
    (hsecond : right.read? registers width = some second) (dest : Value) (predicate : Predicate) :
    (Instr.compare dest predicate left right).compute? memory registers =
      dest.define? registers ⟨1, .ofBool (predicate.holds first second)⟩ := by
  subst hwidth
  simp only [Instr.compute?, hfirst, hsecond]
  rfl

/-- A value of a type that can be read, and stays there while registers from `next` on are
written. -/
structure Value.Holds (next : Nat) (registers : Registers) (value : Value) (type : IntType)
    (number : Int) : Prop where
  typed : value.type = type.backend
  read : value.read? registers type.width = some (.ofInt type.width number)
  bound : ∀ id, value.register? = some id → id < next

theorem Value.Holds.mono {next last : Nat} {registers later : Registers} {value : Value}
    {type : IntType} {number : Int} (h : value.Holds next registers type number)
    (hkept : ∀ id < next, later id = registers id) (hle : next ≤ last) :
    value.Holds last later type number := by
  refine ⟨h.typed, ?_, fun id hid => Nat.lt_of_lt_of_le (h.bound id hid) hle⟩
  rw [Value.read?_congr fun id hid => hkept id (h.bound id hid)]
  exact h.read

namespace Straight

variable {α β ρ σ : Type} {memory : List Word} {next : Nat} {registers : Registers}

/-- Run with the given registers, the code gets stuck if there is no result. Otherwise it
ends, with the older registers as they were, and `done` holds of the result, the next free
register, the registers and the value the code leaves. -/
def Computes (code : Straight α) (memory : List Word) (next : Nat) (registers : Registers)
    (result : Option ρ) (done : ρ → Nat → Registers → α → Prop) : Prop :=
  match result with
  | none => computeAll? memory (code.instrs next) registers = none
  | some found => ∃ last, computeAll? memory (code.instrs next) registers = some last ∧
      (∀ id < next, last id = registers id) ∧ done found (code.after next) last (code.value next)

theorem computes_pure {value : α} {found : ρ} {done : ρ → Nat → Registers → α → Prop}
    (h : done found next registers value) :
    (pure value : Straight α).Computes memory next registers (some found) done :=
  ⟨registers, rfl, fun _ _ => rfl, h⟩

theorem Computes.bind {code : Straight α} {rest : α → Straight β} {result : Option ρ}
    {after : ρ → Option σ} {middle : ρ → Nat → Registers → α → Prop}
    {done : σ → Nat → Registers → β → Prop}
    (h : code.Computes memory next registers result middle)
    (hrest : ∀ found later, result = some found → (∀ id < next, later id = registers id) →
      middle found (code.after next) later (code.value next) →
        (rest (code.value next)).Computes memory (code.after next) later (after found) done) :
    (code >>= rest).Computes memory next registers (result >>= after) done := by
  cases result with
  | none =>
    change computeAll? memory (code.instrs next ++ _) registers = none
    rw [computeAll?_append, show computeAll? memory (code.instrs next) registers = none from h]
    rfl
  | some found =>
    obtain ⟨later, hlater, hkept, hmiddle⟩ := h
    have hcomputes := hrest found later rfl hkept hmiddle
    have hrun : computeAll? memory ((code >>= rest).instrs next) registers =
        computeAll? memory ((rest (code.value next)).instrs (code.after next)) later := by
      rw [instrs_bind, computeAll?_append, hlater]
      rfl
    unfold Computes at hcomputes ⊢
    rw [hrun]
    change match after found with | none => _ | some _ => _
    cases hafter : after found with
    | none => simpa only [hafter] using hcomputes
    | some whole =>
      simp only [hafter] at hcomputes
      obtain ⟨last, hlast, hkept', hdone⟩ := hcomputes
      rw [← after_bind] at hdone
      refine ⟨last, hlast, fun id hid => ?_, hdone⟩
      exact (hkept' id (Nat.lt_of_lt_of_le hid (Nat.le_add_right _ _))).trans (hkept id hid)

theorem Computes.mono {code : Straight α} {result : Option ρ}
    {done done' : ρ → Nat → Registers → α → Prop}
    (h : code.Computes memory next registers result done)
    (hdone : ∀ found last, result = some found → (∀ id < next, last id = registers id) →
      done found (code.after next) last (code.value next) →
        done' found (code.after next) last (code.value next)) :
    code.Computes memory next registers result done' := by
  cases result with
  | none => exact h
  | some found =>
    obtain ⟨last, hlast, hkept, hholds⟩ := h
    exact ⟨last, hlast, hkept, hdone found last rfl hkept hholds⟩

/-- The same result, told in other terms. -/
theorem Computes.of_map {code : Straight α} {result : Option ρ} {change : ρ → σ}
    {done : σ → Nat → Registers → α → Prop}
    (h : code.Computes memory next registers (result.map change) done) :
    code.Computes memory next registers result fun found => done (change found) := by
  cases result with
  | none => exact h
  | some found => exact h

/-- One instruction, which leaves the register it defines. -/
theorem computes_define {width : Nat} {instr : Value → Instr} {result : Option (BitVec width)}
    (h : (instr (.register (.int width) next)).compute? memory registers =
      result >>= fun bits => (Value.register (.int width) next).define? registers ⟨width, bits⟩) :
    (define (.int width) instr).Computes memory next registers result fun bits _ last value =>
      value = .register (.int width) next ∧ value.read? last width = some bits := by
  have hrun : computeAll? memory ((define (.int width) instr).instrs next) registers =
      result >>= fun bits => (Value.register (.int width) next).define? registers ⟨width, bits⟩ := by
    rw [← h]
    change ((instr (.register (.int width) next)).compute? memory registers >>= some) = _
    cases (instr (.register (.int width) next)).compute? memory registers <;> rfl
  cases result with
  | none => exact hrun
  | some bits =>
    refine ⟨fun other => if other = next then some ⟨width, bits⟩ else registers other, ?_, ?_, rfl, ?_⟩
    · rw [hrun]
      simp [Value.define?]
    · intro id hid
      simp [Nat.ne_of_lt hid]
    · simp [Value.read?]

end Straight

end BlockLang.Code
