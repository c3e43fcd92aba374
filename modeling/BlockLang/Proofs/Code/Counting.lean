import BlockLang.Proofs.Code.Store
import BlockLang.Proofs.Fallible

/-! Registers counted in 32 bits and registers counted without end. The same edits make the same
code as long as no function has more registers than 32 bits can count. -/

namespace BlockLang.Code

variable {ρ : Type} [Counter ρ]

def Function.widen (function : Function ρ) : Function where
  name := function.name
  internal := function.internal
  blocks := function.blocks
  nextRegister := Counter.number function.nextRegister
  taken := function.taken

/-- The same code, with registers that are counted without end. -/
def Module.widen (code : Module ρ) : Module where
  name := code.name
  globals := code.globals
  functions := code.functions.map Function.widen
  taken := code.taken

namespace Module

variable {code : Module ρ}

@[simp] theorem functions_widen (code : Module ρ) (id : FunctionId) :
    code.widen.functions[id]? = code.functions[id]?.map Function.widen :=
  List.getElem?_map

@[simp] theorem function_widen (code : Module ρ) (id : FunctionId) :
    code.widen.function id = (code.function id).map Function.widen :=
  fetch_map Function.widen code.functions id

@[simp] theorem block_widen (code : Module ρ) (place : BlockRef) :
    code.widen.block place = code.block place := by
  unfold Module.block
  rw [function_widen]
  cases code.function place.function <;> rfl

theorem widen_addFunction (code : Module ρ) (base : String) (internal : Bool) :
    (code.addFunction base internal).2.widen = (code.widen.addFunction base internal).2 := by
  simp [addFunction, widen, Function.widen, Function.bare, Counter.number_first]
  rfl

theorem widen_modifyFunction (code : Module ρ) (id : FunctionId) (change : Function ρ → Function ρ)
    (wide : Function → Function) (h : ∀ function, (change function).widen = wide function.widen) :
    (code.modifyFunction id change).widen = code.widen.modifyFunction id wide := by
  unfold modifyFunction widen
  rw [map_modify h]

end Module

namespace Edit

variable {code : Module ρ} {edit : Edit}

theorem run_of_overruns (h : edit.Overruns code) : edit.run code = .error .registersSpent := by
  cases edit with
  | freshRegister id type =>
    obtain ⟨function, hfunction, hspent⟩ := h
    rw [run, Module.freshRegister_eq_error hfunction hspent]
    rfl
  | addGlobal | addFunction | appendBlock | push => exact h.elim

/-- However registers are counted, an edit does the same where there is one left. -/
theorem run_widen (h : ¬edit.Overruns code) :
    edit.run code.widen = (edit.run code).map fun result => (result.1, result.2.widen) := by
  cases edit with
  | addGlobal base type => rfl
  | addFunction base internal =>
    change _ = Except.ok (_, (code.addFunction base internal).2.widen)
    rw [Module.widen_addFunction]
    simp [run, Module.addFunction, Module.widen]
  | appendBlock id base =>
    rw [run, run, Module.appendBlock, Module.appendBlock, Module.function_widen]
    cases code.function id with
    | error fault => rfl
    | ok function =>
      have hcode := code.widen_modifyFunction id (·.addBlock (fresh function.taken base))
        (·.addBlock (fresh function.taken base)) fun _ => rfl
      exact congrArg (fun next => Except.ok (Handle.block ⟨id, function.blocks.length⟩, next))
        hcode.symm
  | freshRegister id type =>
    rw [run, run, Module.freshRegister, Module.freshRegister, Module.function_widen]
    cases hfunction : code.function id with
    | error fault => rfl
    | ok function =>
      cases hlater : Counter.next? function.nextRegister with
      | none => exact (h ⟨function, Module.function_eq_ok.1 hfunction, hlater⟩).elim
      | some later =>
        have hcode := code.widen_modifyFunction id
          (fun found => { found with nextRegister := later })
          (fun found => { found with nextRegister := Counter.number later }) fun _ => rfl
        rw [Counter.number_next hlater] at hcode
        dsimp only [Except.map, bind, Except.bind]
        rw [hlater]
        exact congrArg (fun next => Except.ok (Handle.register id _, next)) hcode.symm
  | push place instr =>
    rw [run, run, Module.push, Module.push, Module.block_widen]
    cases code.block place with
    | error fault => rfl
    | ok block =>
      have hcode := code.widen_modifyFunction place.function (·.push place.block instr)
        (·.push place.block instr) fun _ => rfl
      exact congrArg (fun next => Except.ok (Handle.nothing, next)) hcode.symm

end Edit

namespace Ledger

def widen (ledger : Ledger ρ) : Ledger := ⟨ledger.code.widen, ledger.handed⟩

variable {ledger next last : Ledger ρ} {wide : Ledger} {edit : Edit} {edits : List Edit}

theorem Step.widen (h : ledger.Step edit next) : ledger.widen.Step edit next.widen := by
  cases h with
  | @run handle code huses hrun =>
    have hcounted : ¬edit.Overruns ledger.code := by
      intro hspent
      cases hrun.symm.trans (Edit.run_of_overruns hspent)
    have hwide : edit.run ledger.code.widen = .ok (handle, code.widen) := by
      rw [Edit.run_widen hcounted, hrun]
      rfl
    exact .run huses hwide

theorem Step.of_widen (h : ledger.widen.Step edit wide) (hcounted : ¬edit.Overruns ledger.code) :
    ∃ next, ledger.Step edit next ∧ next.widen = wide := by
  cases h with
  | @run handle code huses hrun =>
    change edit.run ledger.code.widen = _ at hrun
    rw [Edit.run_widen hcounted] at hrun
    cases hcode : edit.run ledger.code with
    | error fault =>
      rw [hcode] at hrun
      cases hrun
    | ok result =>
      rw [hcode] at hrun
      cases hrun
      exact ⟨_, .run huses hcode, rfl⟩

theorem Runs.widen (h : ledger.Runs edits last) : ledger.widen.Runs edits last.widen := by
  induction h with
  | done => exact .done _
  | step hstep _ ih => exact .step hstep.widen ih

theorem number_of_spent {count : UInt32} (h : Counter.next? count = none) :
    Counter.number count + 1 = UInt32.size := by
  have hlast : ¬count.toNat + 1 < UInt32.size := by
    intro hlt
    cases (if_pos hlt).symm.trans h
  have hlt : count.toNat < UInt32.size := count.toNat_lt_size
  change count.toNat + 1 = UInt32.size
  omega

variable {bounded : Ledger UInt32}

/-- Where 32 bits are not enough, there is one register more than they can count. -/
theorem Step.exceeds (hstep : bounded.widen.Step edit wide) (h : edit.Overruns bounded.code) :
    ∃ (id : FunctionId) (function : Function), wide.code.functions[id]? = some function ∧
      function.nextRegister = UInt32.size := by
  cases edit with
  | freshRegister id type =>
    obtain ⟨function, hfunction, hspent⟩ := h
    have hwide : bounded.widen.code.functions[id]? = some function.widen := by
      change bounded.code.widen.functions[id]? = _
      rw [Module.functions_widen, hfunction]
      rfl
    cases hstep with
    | run _ hrun =>
      rw [Edit.run, Module.freshRegister_eq hwide rfl] at hrun
      cases hrun
      exact ⟨id, _, Module.functions_modifyFunction_self hwide _, number_of_spent hspent⟩
  | addGlobal | addFunction | appendBlock | push => exact h.elim

theorem Runs.of_widen (hruns : bounded.widen.Runs edits wide) (hsound : bounded.widen.Sound)
    (hbound : ∀ (id : FunctionId) function, wide.code.functions[id]? = some function →
      function.nextRegister < UInt32.size) :
    ∃ narrow, bounded.Runs edits narrow ∧ narrow.widen = wide := by
  generalize hstart : bounded.widen = start at hruns
  induction hruns generalizing bounded with
  | done =>
    exact ⟨bounded, .done _, hstart⟩
  | @step start middle last edit edits hstep hrest ih =>
    subst hstart
    have hmiddle := hstep.sound hsound
    have hcounted : ¬edit.Overruns bounded.code := by
      intro hspent
      obtain ⟨id, function, hfunction, hnext⟩ := hstep.exceeds hspent
      obtain ⟨later, hlater, -, -, hgrown⟩ :=
        (hrest.grows hmiddle).functions id function hfunction
      exact absurd (hbound id later hlater) (Nat.not_lt.2 (hnext ▸ hgrown))
    obtain ⟨next, hnext, rfl⟩ := hstep.of_widen hcounted
    obtain ⟨narrow, hnarrow, hlast⟩ := ih hmiddle hbound rfl
    exact ⟨narrow, .step hnext hnarrow, hlast⟩

/-- Edits make the same code with registers of 32 bits as they make with registers without end,
if no function gets more of them. -/
theorem runs_bounded_iff (name : String) (edits : List Edit) (wide : Ledger) :
    (∃ narrow : Ledger UInt32, Runs ⟨{ name }, []⟩ edits narrow ∧ narrow.widen = wide) ↔
      Runs ⟨{ name }, []⟩ edits wide ∧
        ∀ (id : FunctionId) function, wide.code.functions[id]? = some function →
          function.nextRegister < UInt32.size := by
  constructor
  · rintro ⟨narrow, hruns, rfl⟩
    refine ⟨hruns.widen, ?_⟩
    intro id function hfunction
    change narrow.code.widen.functions[id]? = _ at hfunction
    rw [Module.functions_widen] at hfunction
    obtain ⟨counted, -, rfl⟩ := Option.map_eq_some_iff.1 hfunction
    exact counted.nextRegister.toNat_lt_size
  · rintro ⟨hruns, hbound⟩
    have hstart : (⟨{ name }, []⟩ : Ledger UInt32).widen = ⟨{ name }, []⟩ := rfl
    rw [← hstart] at hruns
    exact hruns.of_widen (sound_empty name) hbound

end Ledger

end BlockLang.Code
