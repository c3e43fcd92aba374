import Mathlib.Data.List.Count
import BlockLang.Proofs.Core.Writing
import BlockLang.Proofs.Unit

/-! The registers of a unit that was taken in: each is defined once, and before it is used,
in the block that uses it. The check looks at none of this. -/

namespace BlockLang

open Code

namespace Code

def Instr.defines (instr : Instr) (id : Nat) : Bool :=
  instr.dest?.any fun dest => dest.register? == some id

def Function.instrs (function : Function) : List Instr :=
  function.blocks.flatMap Block.instrs

/-- Every register has one definition, which stands before its uses in their own block, and
constants lie in the signed range of their types. -/
structure Function.Assigned (function : Function) : Prop where
  registers : ∀ instr ∈ function.instrs, ∀ dest, instr.dest? = some dest →
    ∃ type id, dest = .register type id
  once : ∀ id, function.instrs.countP (·.defines id) = if id < function.nextRegister then 1 else 0
  earlier : ∀ block ∈ function.blocks, ∀ before instr after,
    block.instrs = before ++ instr :: after → ∀ type id, .register type id ∈ instr.uses →
      ∃ definition ∈ before, definition.dest? = some (.register type id)
  constants : ∀ instr ∈ function.instrs, ∀ type value, .const type value ∈ instr.uses →
    ∃ width, type = .int width ∧ 0 < width ∧
      -2 ^ (width - 1) ≤ value.toInt ∧ value.toInt < 2 ^ (width - 1)

/-- Every use in a block that is local is of a constant in range, or of a register that is
defined further up. -/
theorem Local.known {instrs before after : List Instr} {instr : Instr} (h : Local [] instrs)
    (hsplit : instrs = before ++ instr :: after) {value : Value} (hvalue : value ∈ instr.uses) :
    value.Known (defined before) := by
  rw [hsplit, local_append, List.nil_append] at h
  exact h.2.1 value hvalue

theorem Draft.Sound.once {cells : List IntType} {functions : Nat} {draft : Draft}
    (h : draft.Sound cells functions) (id : Nat) :
    (draft.blocks.flatMap Block.instrs).countP (·.defines id) =
      if id < draft.nextRegister then 1 else 0 := by
  have hdefines : (fun instr : Instr => instr.defines id) = fun instr =>
      (instr.dest?.map ((· == some id) ∘ Value.register?)).getD false := by
    funext instr
    unfold Instr.defines
    cases instr.dest? <;> rfl
  calc
    _ = (draft.defined.map Value.register?).count (some id) := by
      rw [List.count, List.countP_map, hdefines]
      exact List.countP_filterMap.symm
    _ = ((List.range draft.nextRegister).map some).count (some id) := h.registers.count_eq _
    _ = (List.range draft.nextRegister).count id :=
      List.count_map_of_injective _ _ (fun _ _ => Option.some.inj) _
    _ = if id < draft.nextRegister then 1 else 0 := List.count_range

theorem Draft.Sound.assigned {cells : List IntType} {functions : Nat} {draft : Draft}
    (h : draft.Sound cells functions) {function : Function} (hsketch : function.sketch = draft.sketch) :
    function.Assigned := by
  have hblocks : function.blocks = draft.blocks := congrArg Prod.fst hsketch
  have hnext : function.nextRegister = draft.nextRegister := congrArg (fun sketch => sketch.2.1) hsketch
  have hlocal : ∀ block ∈ function.blocks, Local [] block.instrs := by
    rw [hblocks]
    exact h.uses
  refine ⟨?_, ?_, ?_, ?_⟩
  · intro instr hinstr dest hdest
    have hdefined : dest ∈ draft.defined := by
      rw [Function.instrs, hblocks] at hinstr
      exact List.mem_filterMap.2 ⟨instr, hinstr, hdest⟩
    have hregister := h.registers.subset (List.mem_map_of_mem hdefined)
    obtain ⟨id, -, hid⟩ := List.mem_map.1 hregister
    cases dest with
    | const type value => cases hid
    | register type other => exact ⟨type, other, rfl⟩
  · intro id
    rw [Function.instrs, hblocks, hnext]
    exact h.once id
  · intro block hblock before instr after hsplit type id huse
    have hknown : Value.register type id ∈ Code.defined before :=
      (hlocal block hblock).known hsplit huse
    exact List.mem_filterMap.1 hknown
  · intro instr hinstr type value huse
    obtain ⟨block, hblock, hinstr⟩ := List.mem_flatMap.1 hinstr
    obtain ⟨before, after, hsplit⟩ := List.append_of_mem hinstr
    obtain ⟨bits, rfl, hlow, hhigh⟩ := (hlocal block hblock).known hsplit huse
    exact ⟨bits + 1, rfl, Nat.succ_pos bits, hlow, hhigh⟩

end Code

/-- The code of a unit that was taken in is in static single assignment form. -/
theorem readUnit_assigned (file source : String) (session : Session)
    (h : readUnit file source = .ok () session) :
    ∀ function ∈ session.builder.code.functions, function.Assigned := by
  obtain ⟨program, -, hformed, -, hholds⟩ := readUnit_ok h
  intro function hfunction
  obtain ⟨id, hid⟩ := List.mem_iff_getElem?.1 hfunction
  obtain ⟨body, hbody, hsketch⟩ := hholds.code.function hid
  have hfits := hformed.bodies body (List.mem_of_getElem? hbody)
  exact (Core.Stmt.sound_draft hformed.cells hfits).assigned hsketch

/-- Loads, casts, arithmetic, a folded constant and a comparison in a loop. -/
def mixedWidths : String :=
  "PROCEDURE MAIN; VAR A : UINT8; VAR B : INT64; " ++
  "BEGIN A := -A * 3; WHILE B < A DO B := B + 70000 MOD A END END."

theorem mixedWidths_assigned :
    ∃ session, readUnit "unit" mixedWidths = .ok () session ∧
      session.builder.code.functions.map Function.nextRegister = [15] ∧
      ∀ function ∈ session.builder.code.functions, function.Assigned := by
  have hreads : readsTo "unit" mixedWidths fun session =>
      session.builder.code.functions.map Function.nextRegister == [15] := by decide +kernel
  obtain ⟨session, h, hregisters⟩ := readsTo_iff.1 hreads
  exact ⟨session, h, by simpa using hregisters, readUnit_assigned "unit" mixedWidths session h⟩

end BlockLang
