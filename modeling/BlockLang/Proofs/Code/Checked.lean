import BlockLang.Code.Check
import BlockLang.Proofs.Code.Steps
import BlockLang.Proofs.Fallible

/-! What is known of code that passed the check: every instruction refers to what is there,
with the right types, every block is left by its last instruction and no other, and every
function has a block to start in. -/

namespace BlockLang.Code

/-- What an instruction refers to is there, and its types agree. -/
def Instr.Proper (code : Module) (function : Function) : Instr → Prop
  | load dest source => ∃ global, code.globals[source]? = some global ∧ global.type = dest.type
  | store value target => ∃ global, code.globals[target]? = some global ∧ global.type = value.type
  | binary dest _ left right => left.type = right.type ∧ left.type = dest.type
  | compare dest _ left right => left.type = right.type ∧ dest.type = .int 1
  | cast dest op value => op.fits value.type.bits dest.type.bits = true
  | call callee => callee < code.functions.length
  | jump target => target < function.blocks.length
  | fork condition yes no => condition.type = .int 1 ∧ yes < function.blocks.length ∧
      no < function.blocks.length
  | ret => True

/-- Code in which nothing is left open. -/
structure Module.Checked (code : Module) : Prop where
  entry : ∀ function ∈ code.functions, function.blocks ≠ []
  finished : ∀ function ∈ code.functions, ∀ block ∈ function.blocks, block.Finished
  proper : ∀ function ∈ code.functions, ∀ block ∈ function.blocks, ∀ instr ∈ block.instrs,
    instr.Proper code function

theorem requireType_eq_ok {operation : String} {expected found : Ty} :
    requireType operation expected found = .ok () ↔ expected = found := by
  unfold requireType
  split <;> simp [*]

theorem requireBlock_eq_ok {function : Function} {id : BlockId} :
    requireBlock function id = .ok () ↔ id < function.blocks.length := by
  unfold requireBlock
  split <;> simp [*]

theorem globalType_eq_ok {code : Module} {id : GlobalId} {type : Ty} :
    globalType code id = .ok type ↔
      ∃ global, code.globals[id]? = some global ∧ global.type = type := by
  unfold globalType
  cases code.globals[id]? <;> simp

variable {code : Module} {function : Function} {instr : Instr} {block : Block}

theorem Instr.proper_of_check (h : instr.check code function = .ok ()) :
    instr.Proper code function := by
  cases instr with
  | load dest source =>
    obtain ⟨type, hglobal, htype⟩ := Except.exists_of_bind_eq_ok h
    obtain ⟨global, hfound, rfl⟩ := globalType_eq_ok.1 hglobal
    exact ⟨global, hfound, requireType_eq_ok.1 htype⟩
  | store value target =>
    obtain ⟨type, hglobal, htype⟩ := Except.exists_of_bind_eq_ok h
    obtain ⟨global, hfound, rfl⟩ := globalType_eq_ok.1 hglobal
    exact ⟨global, hfound, requireType_eq_ok.1 htype⟩
  | binary dest op left right =>
    obtain ⟨_, hright, hdest⟩ := Except.exists_of_bind_eq_ok h
    exact ⟨requireType_eq_ok.1 hright, requireType_eq_ok.1 hdest⟩
  | compare dest predicate left right =>
    obtain ⟨_, hright, hdest⟩ := Except.exists_of_bind_eq_ok h
    exact ⟨requireType_eq_ok.1 hright, requireType_eq_ok.1 hdest⟩
  | cast dest op value => simpa [check, Proper] using h
  | call callee => simpa [check, Proper] using h
  | jump target => exact requireBlock_eq_ok.1 h
  | fork condition yes no =>
    obtain ⟨_, htype, h⟩ := Except.exists_of_bind_eq_ok h
    obtain ⟨_, hyes, hno⟩ := Except.exists_of_bind_eq_ok h
    exact ⟨requireType_eq_ok.1 htype, requireBlock_eq_ok.1 hyes, requireBlock_eq_ok.1 hno⟩
  | ret => trivial

theorem Block.of_check_eq_ok (h : block.check code function = .ok ()) :
    block.Finished ∧ ∀ instr ∈ block.instrs, instr.Proper code function := by
  unfold check at h
  split at h
  · cases h
  split at h
  · cases h
  split at h
  · cases h
  next hnonempty hterminated hearly =>
  refine ⟨?_, fun instr hinstr => ?_⟩
  · rw [List.isEmpty_iff] at hnonempty
    refine ⟨block.instrs.dropLast, block.instrs.getLast hnonempty, ?_, ?_, ?_⟩
    · exact (List.dropLast_append_getLast hnonempty).symm
    · simpa [isTerminated, List.getLast?_eq_getLast_of_ne_nil hnonempty] using hterminated
    · simpa using hearly
  · exact Instr.proper_of_check (Except.mapError_eq_ok.1 (forM_eq_ok_iff.1 h instr hinstr))

theorem Function.of_check_eq_ok (h : function.check code = .ok ()) :
    function.blocks ≠ [] ∧ ∀ block ∈ function.blocks, block.check code function = .ok () := by
  unfold check at h
  split at h
  · cases h
  next hnonempty =>
  rw [List.isEmpty_iff] at hnonempty
  exact ⟨hnonempty, forM_eq_ok_iff.1 h⟩

theorem Module.check_function (h : code.check = .ok ()) :
    ∀ function ∈ code.functions, function.check code = .ok () := by
  intro function hfunction
  obtain ⟨id, hid⟩ := List.mem_iff_getElem?.1 hfunction
  have hlt := (List.getElem?_eq_some_iff.1 hid).1
  have hchecked := forM_eq_ok_iff.1 h id (List.mem_range.2 hlt)
  unfold checkFunction at hchecked
  rw [hid] at hchecked
  exact Except.mapError_eq_ok.1 hchecked

theorem Module.checked_of_check (h : code.check = .ok ()) : code.Checked := by
  have hfunction := fun function hmem => Function.of_check_eq_ok (check_function h function hmem)
  constructor
  case entry => exact fun function hmem => (hfunction function hmem).1
  case finished =>
    intro function hmem block hblock
    exact (Block.of_check_eq_ok ((hfunction function hmem).2 block hblock)).1
  case proper =>
    intro function hmem block hblock
    exact (Block.of_check_eq_ok ((hfunction function hmem).2 block hblock)).2

end BlockLang.Code
