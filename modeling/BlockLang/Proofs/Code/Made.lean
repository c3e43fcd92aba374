import BlockLang.Proofs.Code.Counting

/-! Code that has come about by edits of a store. Whatever an edit does not refuse, it could be
told to do with what was handed out before. -/

namespace BlockLang.Code

namespace Ledger

variable {ledger next last : Ledger} {edit : Edit} {edits : List Edit}

theorem Runs.concat (h : ledger.Runs edits last) (hstep : last.Step edit next) :
    ledger.Runs (edits ++ [edit]) next := by
  induction h with
  | done => exact .step hstep (.done _)
  | step hfirst _ ih => exact .step hfirst (ih hstep)

/-- Every function and every block has been handed out. -/
structure Complete (ledger : Ledger) : Prop where
  functions : ∀ (id : FunctionId) function, ledger.code.functions[id]? = some function →
    .function id ∈ ledger.handed
  blocks : ∀ place block, ledger.code.block place = .ok block → .block place ∈ ledger.handed

theorem complete_empty (name : String) : Complete ⟨{ name }, []⟩ where
  functions _ _ h := by simp at h
  blocks place _ h := by
    obtain ⟨function, hfunction, -⟩ := Module.block_eq_ok.1 h
    simp at hfunction

/-- What can be carried out uses nothing but what was handed out. -/
theorem Complete.uses (h : ledger.Complete) {handle : Handle} {code : Module}
    (hrun : edit.run ledger.code = .ok (handle, code)) : edit.Uses ledger.handed := by
  cases edit with
  | addGlobal | addFunction => trivial
  | appendBlock id base =>
    obtain ⟨_, happend, -⟩ := Except.exists_of_bind_eq_ok hrun
    obtain ⟨function, hfunction, -⟩ := Except.exists_of_bind_eq_ok happend
    exact h.functions id function (Module.function_eq_ok.1 hfunction)
  | freshRegister id type =>
    obtain ⟨_, hfresh, -⟩ := Except.exists_of_bind_eq_ok hrun
    obtain ⟨function, hfunction, -⟩ := Except.exists_of_bind_eq_ok hfresh
    exact h.functions id function (Module.function_eq_ok.1 hfunction)
  | push place instr =>
    obtain ⟨_, hpush, -⟩ := Except.exists_of_bind_eq_ok hrun
    obtain ⟨_, hdiscard, -⟩ := Except.exists_of_bind_eq_ok hpush
    obtain ⟨block, hblock, -⟩ := Except.exists_of_bind_eq_ok hdiscard
    exact h.blocks place block hblock

/-- A change of one function that makes no block but the one that is handed out. -/
theorem Complete.modifyFunction (h : ledger.Complete) {id : FunctionId} {function : Function}
    (hfunction : ledger.code.functions[id]? = some function) {change : Function → Function}
    {handle : Handle} (hblocks : ∀ (index : Nat) block,
      (change function).blocks[index]? = some block →
        (∃ old, function.blocks[index]? = some old) ∨ handle = .block ⟨id, index⟩) :
    Complete ⟨ledger.code.modifyFunction id change, ledger.handed ++ [handle]⟩ where
  functions other found hfound := by
    rw [Module.functions_modifyFunction] at hfound
    apply List.mem_append_left
    split at hfound
    next hother => exact h.functions other function (hother ▸ hfunction)
    next => exact h.functions other found hfound
  blocks place block hblock := by
    obtain ⟨found, hfound, hblock⟩ := Module.block_eq_ok.1 hblock
    rw [Module.functions_modifyFunction] at hfound
    split at hfound
    next hother =>
      subst hother
      rw [hfunction] at hfound
      obtain rfl := Option.some.inj hfound
      rcases hblocks place.block block hblock with ⟨old, hold⟩ | rfl
      · exact List.mem_append_left _
          (h.blocks place old (Module.block_eq_ok.2 ⟨_, hfunction, hold⟩))
      · exact List.mem_append_right _ (List.mem_singleton_self _)
    next =>
      exact List.mem_append_left _
        (h.blocks place block (Module.block_eq_ok.2 ⟨_, hfound, hblock⟩))

theorem Complete.addFunction (h : ledger.Complete) (base : String) (internal : Bool) :
    Complete ⟨(ledger.code.addFunction base internal).2,
      ledger.handed ++ [.function ledger.code.functions.length]⟩ where
  functions id function hfunction := by
    rw [Module.functions_addFunction] at hfunction
    split at hfunction
    next hid =>
      rw [hid]
      exact List.mem_append_right _ (List.mem_singleton_self _)
    next => exact List.mem_append_left _ (h.functions id function hfunction)
  blocks place block hblock := by
    obtain ⟨function, hfunction, hblock⟩ := Module.block_eq_ok.1 hblock
    rw [Module.functions_addFunction] at hfunction
    split at hfunction
    next =>
      obtain rfl := Option.some.inj hfunction
      cases hblock
    next =>
      exact List.mem_append_left _
        (h.blocks place block (Module.block_eq_ok.2 ⟨function, hfunction, hblock⟩))

theorem Complete.step (h : ledger.Complete) (hsound : ledger.Sound)
    (hstep : ledger.Step edit next) : next.Complete := by
  cases hstep with
  | @run handle code huses hrun =>
    cases edit with
    | addGlobal base type =>
      cases hrun
      exact ⟨fun id function hfunction => List.mem_append_left _ (h.functions id function hfunction),
        fun place block hblock => List.mem_append_left _ (h.blocks place block hblock)⟩
    | addFunction base internal =>
      cases hrun
      exact h.addFunction base internal
    | appendBlock id base =>
      obtain ⟨function, hfunction⟩ := hsound.has _ huses
      rw [Edit.run, Module.appendBlock_eq hfunction] at hrun
      cases hrun
      apply h.modifyFunction hfunction
      intro index block hblock
      by_cases hold : index < function.blocks.length
      · exact .inl ⟨_, List.getElem?_eq_getElem hold⟩
      · have hlast := (List.getElem?_eq_some_iff.1 hblock).1
        simp only [Function.addBlock, List.length_append, List.length_singleton] at hlast
        obtain rfl : index = function.blocks.length := by omega
        exact .inr rfl
    | freshRegister id type =>
      obtain ⟨function, hfunction⟩ := hsound.has _ huses
      rw [Edit.run, Module.freshRegister_eq hfunction rfl] at hrun
      cases hrun
      exact h.modifyFunction hfunction fun index block hblock => .inl ⟨block, hblock⟩
    | push place instr =>
      obtain ⟨block, hblock⟩ := hsound.has _ huses
      obtain ⟨function, hfunction, -⟩ := Module.block_eq_ok.1 hblock
      rw [Edit.run, Module.push_eq hblock] at hrun
      cases hrun
      apply h.modifyFunction hfunction
      intro index block hblock
      have hlt := (List.getElem?_eq_some_iff.1 hblock).1
      simp only [Function.push, List.length_modify] at hlt
      exact .inl ⟨_, List.getElem?_eq_getElem hlt⟩

theorem Runs.complete (hruns : ledger.Runs edits last) (hsound : ledger.Sound)
    (h : ledger.Complete) : last.Complete := by
  induction hruns with
  | done => exact h
  | step hstep _ ih => exact ih (hstep.sound hsound) (h.step hsound hstep)

end Ledger

namespace Module

variable {name : String} {code next : Module}

/-- The code has come about by edits of a store that had no more than this name. -/
def Made (name : String) (code : Module) : Prop :=
  ∃ edits handed, Ledger.Runs ⟨{ name }, []⟩ edits ⟨code, handed⟩

theorem Made.edit (h : code.Made name) {edit : Edit} {handle : Handle}
    (hrun : edit.run code = .ok (handle, next)) : next.Made name := by
  obtain ⟨edits, handed, hruns⟩ := h
  have hcomplete := hruns.complete (Ledger.sound_empty name) (Ledger.complete_empty name)
  exact ⟨_, _, hruns.concat (.run (hcomplete.uses hrun) hrun)⟩

/-- So it is the code that a store with registers of 32 bits holds, if these are enough. -/
theorem Made.bounded (h : code.Made name)
    (hbound : ∀ (id : FunctionId) function, code.functions[id]? = some function →
      function.nextRegister < UInt32.size) :
    ∃ edits, ∃ narrow : Ledger UInt32, Ledger.Runs ⟨{ name }, []⟩ edits narrow ∧
      narrow.code.widen = code := by
  obtain ⟨edits, handed, hruns⟩ := h
  obtain ⟨narrow, hnarrow, hsame⟩ := (Ledger.runs_bounded_iff name edits _).2 ⟨hruns, hbound⟩
  exact ⟨edits, narrow, hnarrow, congrArg Ledger.code hsame⟩

end Module

end BlockLang.Code
