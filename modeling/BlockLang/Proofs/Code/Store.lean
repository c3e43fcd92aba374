import BlockLang.Proofs.Code.Changes
import Mathlib.Data.List.Nodup

/-! The store of code over any number of edits that use the handles it has handed out. What
a handle stands for stays, blocks only grow at their end, names and labels are never given
twice, and neither are registers. All of it holds whatever counts the registers, be it without
end or up to 32 bits, where the register after the last one is refused. -/

namespace BlockLang.Code

/-- What can be done to a store. -/
inductive Edit where
  | addGlobal (name : String) (type : Ty)
  | addFunction (name : String) (internal : Bool)
  | appendBlock (function : FunctionId) (label : String)
  | freshRegister (function : FunctionId) (type : Ty)
  | push (place : BlockRef) (instr : Instr)
  deriving Repr, DecidableEq

/-- What an edit hands out. -/
inductive Handle where
  | global (id : GlobalId)
  | function (id : FunctionId)
  | block (place : BlockRef)
  /-- A register, and the function it belongs to. -/
  | register (function : FunctionId) (value : Value)
  | nothing
  deriving Repr, DecidableEq

variable {ρ : Type} [Counter ρ]

namespace Edit

def run (code : Module ρ) : Edit → Except Fault (Handle × Module ρ)
  | addGlobal name type =>
    let (id, next) := code.addGlobal name type
    .ok (.global id, next)
  | addFunction name internal =>
    let (id, next) := code.addFunction name internal
    .ok (.function id, next)
  | appendBlock function label => do
    let (place, next) ← code.appendBlock function label
    return (.block place, next)
  | freshRegister function type => do
    let (value, next) ← code.freshRegister function type
    return (.register function value, next)
  | push place instr => do
    let next ← code.push place instr
    return (.nothing, next)

/-- The edit refers to nothing but what has been handed out. -/
def Uses (handed : List Handle) : Edit → Prop
  | addGlobal .. | addFunction .. => True
  | appendBlock function _ | freshRegister function _ => .function function ∈ handed
  | push place _ => .block place ∈ handed

/-- The edit asks for a register of a function that has given out all it can count. -/
def Overruns (code : Module ρ) : Edit → Prop
  | freshRegister id _ => ∃ function, code.functions[id]? = some function ∧
      Counter.next? function.nextRegister = none
  | addGlobal .. | addFunction .. | appendBlock .. | push .. => False

/-- The instruction that is added to the block at `place`. -/
def pushedTo? (place : BlockRef) : Edit → Option Instr
  | push target instr => if target = place then some instr else none
  | addGlobal .. | addFunction .. | appendBlock .. | freshRegister .. => none

end Edit

/-- The number of a register of the function `id`. -/
def Handle.registerOf? (id : FunctionId) : Handle → Option Nat
  | register owner (.register _ number) => if owner = id then some number else none
  | _ => none

/-- A store and everything it has handed out, the oldest first. -/
structure Ledger (ρ : Type := Nat) where
  code : Module ρ
  handed : List Handle := []

namespace Ledger

/-- An edit that refers to what was handed out, carried out. -/
inductive Step (ledger : Ledger ρ) (edit : Edit) : Ledger ρ → Prop
  | run {handle : Handle} {next : Module ρ} (huses : edit.Uses ledger.handed)
    (hrun : edit.run ledger.code = .ok (handle, next)) :
    Step ledger edit ⟨next, ledger.handed ++ [handle]⟩

/-- Any number of edits, one after another. -/
inductive Runs : Ledger ρ → List Edit → Ledger ρ → Prop
  | done (ledger : Ledger ρ) : Runs ledger [] ledger
  | step {ledger next last : Ledger ρ} {edit : Edit} {edits : List Edit}
    (hstep : Step ledger edit next) (hruns : Runs next edits last) :
    Runs ledger (edit :: edits) last

end Ledger

namespace Module

/-- What the handle stands for exists. -/
def Has (code : Module ρ) : Handle → Prop
  | .global id => ∃ global, code.globals[id]? = some global
  | .function id => ∃ function, code.functions[id]? = some function
  | .block place => ∃ block, code.block place = .ok block
  | .register id value => ∃ function type number, code.functions[id]? = some function ∧
      value = .register type number ∧ number < Counter.number function.nextRegister
  | .nothing => True

/-- What is there stays as it is, and a block gets the instructions that the edits add to it,
behind those it has. -/
structure Grows (before : Module ρ) (edits : List Edit) (after : Module ρ) : Prop where
  globals : ∀ (id : GlobalId) global, before.globals[id]? = some global →
    after.globals[id]? = some global
  functions : ∀ (id : FunctionId) function, before.functions[id]? = some function →
    ∃ later, after.functions[id]? = some later ∧ later.name = function.name ∧
      later.internal = function.internal ∧
      Counter.number function.nextRegister ≤ Counter.number later.nextRegister
  blocks : ∀ place block, before.block place = .ok block →
    ∃ later, after.block place = .ok later ∧ later.label = block.label ∧
      later.instrs = block.instrs ++ edits.filterMap (Edit.pushedTo? place)

/-- What an edit hands out is new, and has the name that was asked for, or the first one
behind it that is free. -/
def Issues (before : Module ρ) (handed : List Handle) (after : Module ρ) (handle : Handle) :
    Edit → Prop
  | .addGlobal base type => ∃ id name, handle = .global id ∧ before.globals[id]? = none ∧
      after.globals[id]? = some ⟨name, type⟩ ∧ LeastFree before.names base name
  | .addFunction base internal => ∃ id name, handle = .function id ∧
      before.functions[id]? = none ∧ after.functions[id]? = some (.bare name internal) ∧
      LeastFree before.names base name
  | .appendBlock id base => ∃ function block label, handle = .block ⟨id, block⟩ ∧
      before.functions[id]? = some function ∧ function.blocks[block]? = none ∧
      after.block ⟨id, block⟩ = .ok { label } ∧ LeastFree function.labels base label
  | .freshRegister id type => ∃ number, handle = .register id (.register type number) ∧
      ∀ other, .register id (.register other number) ∉ handed
  | .push _ _ => handle = .nothing

variable {code next : Module ρ} {id : FunctionId} {function : Function ρ} {edits : List Edit}

theorem Grows.refl (code : Module ρ) : code.Grows [] code where
  globals _ _ h := h
  functions _ function h := ⟨function, h, rfl, rfl, Nat.le_refl _⟩
  blocks _ block h := ⟨block, h, rfl, by simp⟩

theorem Grows.trans {first second third : Module ρ} {edits more : List Edit}
    (hfirst : first.Grows edits second) (hsecond : second.Grows more third) :
    first.Grows (edits ++ more) third where
  globals id global h := hsecond.globals id global (hfirst.globals id global h)
  functions id function h := by
    obtain ⟨middle, hmiddle, hname, hinternal, hregister⟩ := hfirst.functions id function h
    obtain ⟨last, hlast, hname', hinternal', hregister'⟩ := hsecond.functions id middle hmiddle
    exact ⟨last, hlast, hname'.trans hname, hinternal'.trans hinternal,
      Nat.le_trans hregister hregister'⟩
  blocks place block h := by
    obtain ⟨middle, hmiddle, hlabel, hinstrs⟩ := hfirst.blocks place block h
    obtain ⟨last, hlast, hlabel', hinstrs'⟩ := hsecond.blocks place middle hmiddle
    refine ⟨last, hlast, hlabel'.trans hlabel, ?_⟩
    rw [hinstrs', hinstrs, List.filterMap_append, List.append_assoc]

theorem Grows.has (hgrows : code.Grows edits next) {handle : Handle} (h : code.Has handle) :
    next.Has handle := by
  cases handle with
  | global id =>
    obtain ⟨global, hglobal⟩ := h
    exact ⟨global, hgrows.globals id global hglobal⟩
  | function id =>
    obtain ⟨function, hfunction⟩ := h
    obtain ⟨later, hlater, -⟩ := hgrows.functions id function hfunction
    exact ⟨later, hlater⟩
  | block place =>
    obtain ⟨block, hblock⟩ := h
    obtain ⟨later, hlater, -⟩ := hgrows.blocks place block hblock
    exact ⟨later, hlater⟩
  | register id value =>
    obtain ⟨function, type, number, hfunction, rfl, hnumber⟩ := h
    obtain ⟨later, hlater, -, -, hregister⟩ := hgrows.functions id function hfunction
    exact ⟨later, type, number, hlater, rfl, Nat.lt_of_lt_of_le hnumber hregister⟩
  | nothing => trivial

theorem grows_addGlobal (code : Module ρ) (name : String) (type : Ty) :
    code.Grows [.addGlobal name type] (code.addGlobal name type).2 where
  globals id global h := List.getElem?_append_left (List.getElem?_eq_some_iff.1 h).1 ▸ h
  functions _ function h := ⟨function, h, rfl, rfl, Nat.le_refl _⟩
  blocks _ block h := ⟨block, h, rfl, by simp [Edit.pushedTo?]⟩

theorem grows_addFunction (code : Module ρ) (name : String) (internal : Bool) :
    code.Grows [.addFunction name internal] (code.addFunction name internal).2 := by
  have hold : ∀ (id : FunctionId) function, code.functions[id]? = some function →
      (code.addFunction name internal).2.functions[id]? = some function := by
    intro id function h
    have hlt := (List.getElem?_eq_some_iff.1 h).1
    rw [functions_addFunction, if_neg (Nat.ne_of_lt hlt), h]
  constructor
  case globals => exact fun _ _ h => h
  case functions => exact fun id function h => ⟨function, hold id function h, rfl, rfl, Nat.le_refl _⟩
  case blocks =>
    intro place block h
    obtain ⟨function, hfunction, hblock⟩ := block_eq_ok.1 h
    exact ⟨block, block_eq_ok.2 ⟨function, hold _ _ hfunction, hblock⟩, rfl,
      by simp [Edit.pushedTo?]⟩

/-- A change of one function that keeps its name and lets its blocks grow as the edit says. -/
theorem Grows.modifyFunction {edit : Edit} {change : Function ρ → Function ρ}
    (hname : ∀ function, (change function).name = function.name)
    (hinternal : ∀ function, (change function).internal = function.internal)
    (hregister : ∀ function, code.functions[id]? = some function →
      Counter.number function.nextRegister ≤ Counter.number (change function).nextRegister)
    (hblocks : ∀ function index block, function.blocks[index]? = some block →
      ∃ later, (change function).blocks[index]? = some later ∧ later.label = block.label ∧
        later.instrs = block.instrs ++ [edit].filterMap (Edit.pushedTo? ⟨id, index⟩))
    (hothers : ∀ place : BlockRef, place.function ≠ id → edit.pushedTo? place = none) :
    code.Grows [edit] (code.modifyFunction id change) where
  globals _ _ h := h
  functions other function h := by
    rw [functions_modifyFunction, h]
    by_cases hother : id = other
    · exact ⟨change function, if_pos hother, hname _, hinternal _, hregister _ (hother ▸ h)⟩
    · exact ⟨function, if_neg hother, rfl, rfl, Nat.le_refl _⟩
  blocks place block h := by
    obtain ⟨function, hfunction, hblock⟩ := block_eq_ok.1 h
    by_cases hother : id = place.function
    · obtain ⟨later, hlater, hlabel, hinstrs⟩ := hblocks function place.block block hblock
      refine ⟨later, block_eq_ok.2 ⟨change function, ?_, hlater⟩, hlabel, ?_⟩
      · rw [← hother] at hfunction ⊢
        exact functions_modifyFunction_self hfunction change
      · rw [hinstrs, hother]
    · refine ⟨block, block_eq_ok.2 ⟨function, ?_, hblock⟩, rfl, ?_⟩
      · rw [functions_modifyFunction, if_neg hother, hfunction]
      · simp [hothers place (Ne.symm hother)]

end Module

namespace Ledger

/-- What holds of every store that edits have made. -/
structure Sound (ledger : Ledger ρ) : Prop where
  /-- The set of names is in step with the globals and functions. -/
  taken : ledger.code.InStep
  names : ledger.code.names.Nodup
  /-- So is each function's set of labels with its blocks. -/
  labels : ∀ (id : FunctionId) function, ledger.code.functions[id]? = some function →
    function.InStep ∧ function.labels.Nodup
  has : ∀ handle ∈ ledger.handed, ledger.code.Has handle
  /-- Registers are numbered in the order they are handed out. -/
  registers : ∀ (id : FunctionId) function, ledger.code.functions[id]? = some function →
    ledger.handed.filterMap (Handle.registerOf? id) =
      List.range (Counter.number function.nextRegister)

/-- The edit leads to `next` and hands out `handle`, as it should. -/
structure Carries (ledger : Ledger ρ) (edit : Edit) (handle : Handle) (next : Module ρ) :
    Prop where
  run : edit.run ledger.code = .ok (handle, next)
  grows : ledger.code.Grows [edit] next
  issues : ledger.code.Issues ledger.handed next handle edit
  sound : Sound ⟨next, ledger.handed ++ [handle]⟩

variable {ledger : Ledger ρ} {id : FunctionId} {function : Function ρ}

theorem sound_empty (name : String) : Sound (ρ := ρ) ⟨{ name }, []⟩ where
  taken := Module.inStep_empty name
  names := List.nodup_nil
  labels _ _ h := by simp at h
  has _ h := by simp at h
  registers _ _ h := by simp at h

theorem filterMap_handed (handed : List Handle) (handle : Handle) (id : FunctionId) :
    (handed ++ [handle]).filterMap (Handle.registerOf? id) =
      handed.filterMap (Handle.registerOf? id) ++ (handle.registerOf? id).toList := by
  rw [List.filterMap_append]
  cases h : handle.registerOf? id <;> simp [h]

/-- A function that is not there has no registers. -/
theorem Sound.filterMap_eq_nil (hsound : ledger.Sound)
    (h : ledger.code.functions[id]? = none) :
    ledger.handed.filterMap (Handle.registerOf? id) = [] := by
  rw [List.filterMap_eq_nil_iff]
  intro handle hhandle
  have hhas := hsound.has handle hhandle
  unfold Handle.registerOf?
  split
  case h_1 owner type number =>
    obtain ⟨function, -, -, hfunction, -⟩ := hhas
    rw [if_neg]
    rintro rfl
    simp [h] at hfunction
  case h_2 => rfl

theorem Sound.nodup_registers (hsound : ledger.Sound) (id : FunctionId) :
    (ledger.handed.filterMap (Handle.registerOf? id)).Nodup := by
  cases h : ledger.code.functions[id]? with
  | none =>
    rw [hsound.filterMap_eq_nil h]
    exact List.nodup_nil
  | some function =>
    rw [hsound.registers id function h]
    exact List.nodup_range

theorem Sound.has_append (hsound : ledger.Sound) {edit : Edit} {next : Module ρ} {handle : Handle}
    (hgrows : ledger.code.Grows [edit] next) (hhas : next.Has handle) :
    ∀ other ∈ ledger.handed ++ [handle], next.Has other := by
  intro other hother
  rcases List.mem_append.1 hother with hold | hnew
  · exact hgrows.has (hsound.has other hold)
  · rwa [List.mem_singleton.1 hnew]

/-- What is chosen for a name is not there yet. -/
theorem Sound.nodup_concat (hsound : ledger.Sound) (base : String) :
    (ledger.code.names ++ [fresh ledger.code.taken base]).Nodup := by
  rw [← List.concat_eq_append]
  exact hsound.names.concat (leastFree_fresh hsound.taken base).not_mem

theorem Sound.addGlobal (hsound : ledger.Sound) (base : String) (type : Ty) :
    ledger.Carries (.addGlobal base type) (.global ledger.code.globals.length)
      (ledger.code.addGlobal base type).2 := by
  have hlast : (ledger.code.addGlobal base type).2.globals[ledger.code.globals.length]? =
      some ⟨fresh ledger.code.taken base, type⟩ := by
    simp [Module.addGlobal]
  have hgrows := ledger.code.grows_addGlobal base type
  refine ⟨rfl, hgrows, ⟨_, _, rfl, by simp, hlast, leastFree_fresh hsound.taken base⟩, ?_⟩
  constructor
  case taken => exact hsound.taken.addGlobal base type
  case names =>
    exact (ledger.code.names_addGlobal base type).nodup_iff.2 (hsound.nodup_concat base)
  case labels => exact hsound.labels
  case has => exact hsound.has_append hgrows ⟨_, hlast⟩
  case registers =>
    intro id function hfunction
    rw [filterMap_handed, hsound.registers id function hfunction]
    exact List.append_nil _

theorem Sound.addFunction (hsound : ledger.Sound) (base : String) (internal : Bool) :
    ledger.Carries (.addFunction base internal) (.function ledger.code.functions.length)
      (ledger.code.addFunction base internal).2 := by
  have hlast := ledger.code.functions_addFunction base internal ledger.code.functions.length
  rw [if_pos rfl] at hlast
  have hgrows := ledger.code.grows_addFunction base internal
  refine ⟨rfl, hgrows, ⟨_, _, rfl, by simp, hlast, leastFree_fresh hsound.taken base⟩, ?_⟩
  constructor
  case taken => exact hsound.taken.addFunction base internal
  case names =>
    rw [Module.names_addFunction]
    exact hsound.nodup_concat base
  case labels =>
    intro id function hfunction
    rw [Module.functions_addFunction] at hfunction
    split at hfunction
    · obtain rfl := Option.some.inj hfunction
      exact ⟨Function.inStep_bare _ internal, List.nodup_nil⟩
    · exact hsound.labels id function hfunction
  case has => exact hsound.has_append hgrows ⟨_, hlast⟩
  case registers =>
    intro id function hfunction
    rw [Module.functions_addFunction] at hfunction
    rw [filterMap_handed]
    split at hfunction
    next hid =>
      obtain rfl := Option.some.inj hfunction
      rw [hsound.filterMap_eq_nil (by simp [hid]), Function.bare, Counter.number_first]
      rfl
    next =>
      rw [hsound.registers id function hfunction]
      exact List.append_nil _

/-- A change of one function that keeps its labels apart and numbers its registers on. -/
theorem Sound.modifyFunction (hsound : ledger.Sound) {edit : Edit} {handle : Handle}
    {change : Function ρ → Function ρ} (hfunction : ledger.code.functions[id]? = some function)
    (hgrows : ledger.code.Grows [edit] (ledger.code.modifyFunction id change))
    (hname : ∀ function, (change function).name = function.name)
    (hlabels : (change function).InStep ∧ (change function).labels.Nodup)
    (hhas : (ledger.code.modifyFunction id change).Has handle)
    (hregister : List.range (Counter.number (change function).nextRegister) =
      List.range (Counter.number function.nextRegister) ++ (handle.registerOf? id).toList)
    (hothers : ∀ other, id ≠ other → handle.registerOf? other = none) :
    Sound ⟨ledger.code.modifyFunction id change, ledger.handed ++ [handle]⟩ where
  taken := hsound.taken.modifyFunction hname
  names := by
    rw [Module.names_modifyFunction hname]
    exact hsound.names
  labels other found hfound := by
    rw [Module.functions_modifyFunction] at hfound
    split at hfound
    next hother =>
      rw [← hother, hfunction] at hfound
      obtain rfl := Option.some.inj hfound
      exact hlabels
    next => exact hsound.labels other found hfound
  has := hsound.has_append hgrows hhas
  registers other found hfound := by
    rw [Module.functions_modifyFunction] at hfound
    rw [filterMap_handed]
    split at hfound
    next hother =>
      rw [← hother, hfunction] at hfound
      obtain rfl := Option.some.inj hfound
      rw [← hother, hsound.registers id function hfunction, hregister]
    next hother =>
      rw [hsound.registers other found hfound, hothers other hother]
      exact List.append_nil _

theorem Sound.appendBlock (hsound : ledger.Sound)
    (hfunction : ledger.code.functions[id]? = some function) (base : String) :
    ∃ handle next, ledger.Carries (.appendBlock id base) handle next := by
  obtain ⟨hinStep, hnodup⟩ := hsound.labels id function hfunction
  have hleast := leastFree_fresh hinStep base
  have hgrows : ledger.code.Grows [.appendBlock id base]
      (ledger.code.modifyFunction id (·.addBlock (fresh function.taken base))) := by
    apply Module.Grows.modifyFunction
    case hname | hinternal => exact fun _ => rfl
    case hregister => exact fun _ _ => Nat.le_refl _
    case hblocks =>
      intro found index block hblock
      refine ⟨block, ?_, rfl, by simp [Edit.pushedTo?]⟩
      rw [Function.addBlock, List.getElem?_append_left (List.getElem?_eq_some_iff.1 hblock).1,
        hblock]
    case hothers => exact fun _ _ => rfl
  have hplace : (ledger.code.modifyFunction id (·.addBlock (fresh function.taken base))).block
      ⟨id, function.blocks.length⟩ = .ok { label := fresh function.taken base } :=
    Module.block_eq_ok.2 ⟨_, Module.functions_modifyFunction_self hfunction _,
      List.getElem?_concat_length⟩
  refine ⟨.block ⟨id, function.blocks.length⟩, _, ?_, hgrows,
    ⟨function, _, _, rfl, hfunction, by simp, hplace, hleast⟩, ?_⟩
  · rw [Edit.run, Module.appendBlock_eq hfunction]
    rfl
  · apply hsound.modifyFunction hfunction hgrows (fun _ => rfl)
    case hlabels =>
      refine ⟨hinStep.addBlock _, ?_⟩
      rw [Function.labels_addBlock, ← List.concat_eq_append]
      exact hnodup.concat hleast.not_mem
    case hhas => exact ⟨_, hplace⟩
    case hregister => exact (List.append_nil _).symm
    case hothers => exact fun _ _ => rfl

theorem Sound.freshRegister (hsound : ledger.Sound)
    (hfunction : ledger.code.functions[id]? = some function) {later : ρ}
    (hlater : Counter.next? function.nextRegister = some later) (type : Ty) :
    ∃ handle next, ledger.Carries (.freshRegister id type) handle next := by
  have hnumber := Counter.number_next hlater
  have hgrows : ledger.code.Grows [.freshRegister id type] (ledger.code.modifyFunction id
      fun found => { found with nextRegister := later }) := by
    apply Module.Grows.modifyFunction
    case hname | hinternal => exact fun _ => rfl
    case hregister =>
      intro found hfound
      obtain rfl := Option.some.inj (hfunction.symm.trans hfound)
      exact hnumber ▸ Nat.le_succ _
    case hblocks => exact fun _ _ block hblock => ⟨block, hblock, rfl, by simp [Edit.pushedTo?]⟩
    case hothers => exact fun _ _ => rfl
  refine ⟨.register id (.register type (Counter.number function.nextRegister)), _, ?_, hgrows,
    ⟨_, rfl, ?_⟩, ?_⟩
  · rw [Edit.run, Module.freshRegister_eq hfunction hlater]
    rfl
  · intro other hmem
    obtain ⟨found, found', number, hfound, hvalue, hlt⟩ := hsound.has _ hmem
    obtain rfl := Option.some.inj (hfunction.symm.trans hfound)
    simp only [Value.register.injEq] at hvalue
    omega
  · apply hsound.modifyFunction hfunction hgrows (fun _ => rfl)
    case hlabels => exact hsound.labels id function hfunction
    case hhas =>
      exact ⟨_, type, _, Module.functions_modifyFunction_self hfunction _, rfl,
        hnumber ▸ Nat.lt_succ_self _⟩
    case hregister => simp [Handle.registerOf?, hnumber, List.range_succ]
    case hothers =>
      intro other hother
      simp [Handle.registerOf?, hother]

theorem Sound.push (hsound : ledger.Sound) {place : BlockRef} {block : Block}
    (hblock : ledger.code.block place = .ok block) (instr : Instr) :
    ∃ handle next, ledger.Carries (.push place instr) handle next := by
  obtain ⟨function, hfunction, -⟩ := Module.block_eq_ok.1 hblock
  obtain ⟨hinStep, hnodup⟩ := hsound.labels _ function hfunction
  have hgrows : ledger.code.Grows [.push place instr]
      (ledger.code.modifyFunction place.function (·.push place.block instr)) := by
    apply Module.Grows.modifyFunction
    case hname | hinternal => exact fun _ => rfl
    case hregister => exact fun _ _ => Nat.le_refl _
    case hblocks =>
      intro found index block hblock
      rw [Function.push, List.getElem?_modify, hblock]
      by_cases hindex : place.block = index
      · exact ⟨block.push instr, by simp [hindex], rfl, by simp [Edit.pushedTo?, ← hindex]⟩
      · refine ⟨block, by simp [hindex], rfl, ?_⟩
        have hne : place ≠ ⟨place.function, index⟩ := fun h => hindex (congrArg BlockRef.block h)
        simp [Edit.pushedTo?, hne]
    case hothers =>
      intro other hother
      have hne : place ≠ other := fun h => hother (congrArg BlockRef.function h).symm
      simp [Edit.pushedTo?, hne]
  refine ⟨.nothing, _, ?_, hgrows, rfl, ?_⟩
  · rw [Edit.run, Module.push_eq hblock]
    rfl
  · apply hsound.modifyFunction hfunction hgrows (fun _ => rfl)
    case hlabels =>
      refine ⟨hinStep.push _ _, ?_⟩
      rw [Function.labels_push]
      exact hnodup
    case hhas => trivial
    case hregister => exact (List.append_nil _).symm
    case hothers => exact fun _ _ => rfl

/-- An edit is carried out as it should, unless it asks for a register that cannot be counted. -/
theorem Sound.carries (hsound : ledger.Sound) {edit : Edit} (huses : edit.Uses ledger.handed) :
    (∃ handle next, ledger.Carries edit handle next) ∨
      edit.Overruns ledger.code ∧ edit.run ledger.code = .error .registersSpent := by
  cases edit with
  | addGlobal base type => exact .inl ⟨_, _, hsound.addGlobal base type⟩
  | addFunction base internal => exact .inl ⟨_, _, hsound.addFunction base internal⟩
  | appendBlock id base =>
    obtain ⟨function, hfunction⟩ := hsound.has _ huses
    exact .inl (hsound.appendBlock hfunction base)
  | freshRegister id type =>
    obtain ⟨function, hfunction⟩ := hsound.has _ huses
    cases hlater : Counter.next? function.nextRegister with
    | some later => exact .inl (hsound.freshRegister hfunction hlater type)
    | none =>
      refine .inr ⟨⟨function, hfunction, hlater⟩, ?_⟩
      rw [Edit.run, Module.freshRegister_eq_error hfunction hlater]
      rfl
  | push place instr =>
    obtain ⟨block, hblock⟩ := hsound.has _ huses
    exact .inl (hsound.push hblock instr)

theorem Step.carries {edit : Edit} {next : Ledger ρ} (hsound : ledger.Sound)
    (hstep : ledger.Step edit next) :
    ∃ handle, next.handed = ledger.handed ++ [handle] ∧ ledger.Carries edit handle next.code := by
  cases hstep with
  | run huses hrun =>
    rcases hsound.carries huses with ⟨handle, code, hcarries⟩ | ⟨-, hspent⟩
    · obtain ⟨rfl, rfl⟩ := Prod.mk.inj (Except.ok.inj (hrun.symm.trans hcarries.run))
      exact ⟨_, rfl, hcarries⟩
    · cases hrun.symm.trans hspent

theorem Step.sound {edit : Edit} {next : Ledger ρ} (hsound : ledger.Sound)
    (hstep : ledger.Step edit next) : next.Sound := by
  obtain ⟨handle, hhanded, hcarries⟩ := hstep.carries hsound
  have hnext := hcarries.sound
  rwa [← hhanded] at hnext

theorem Runs.sound {edits : List Edit} {last : Ledger ρ} (hruns : ledger.Runs edits last)
    (hsound : ledger.Sound) : last.Sound := by
  induction hruns with
  | done => exact hsound
  | step hstep _ ih => exact ih (hstep.sound hsound)

theorem Runs.grows {edits : List Edit} {last : Ledger ρ} (hruns : ledger.Runs edits last)
    (hsound : ledger.Sound) : ledger.code.Grows edits last.code := by
  induction hruns with
  | done => exact .refl _
  | step hstep _ ih =>
    obtain ⟨handle, -, hcarries⟩ := hstep.carries hsound
    exact hcarries.grows.trans (ih (hstep.sound hsound))

theorem Sound.functionNamed_eq (hsound : ledger.Sound)
    (hfunction : ledger.code.functions[id]? = some function) :
    ledger.code.functionNamed? function.name = some id := by
  have hnodup : (ledger.code.functions.map Function.name).Nodup :=
    (List.nodup_append.1 hsound.names).2.1
  obtain ⟨hlt, hget⟩ := List.getElem?_eq_some_iff.1 hfunction
  unfold Module.functionNamed?
  rw [List.findIdx?_eq_some_iff_getElem]
  refine ⟨hlt, by simp [hget], ?_⟩
  intro earlier hearlier
  have hbound : earlier < (ledger.code.functions.map Function.name).length := by
    rw [List.length_map]
    exact Nat.lt_trans hearlier hlt
  have hbound' : id < (ledger.code.functions.map Function.name).length := by
    rwa [List.length_map]
  simp only [beq_iff_eq]
  intro hname
  have hsame : (ledger.code.functions.map Function.name)[earlier] =
      (ledger.code.functions.map Function.name)[id] := by
    rw [List.getElem_map, List.getElem_map, hname, hget]
  exact Nat.ne_of_lt hearlier (hnodup.getElem_inj_iff.1 hsame)

/-- Whatever edits are made with whatever names: what was handed out stays good and stands
for the same, blocks grow only by what is added to them, the sets of names and labels stay in
step with the store, no name, label or register is given twice, and every further edit is
carried out with the first name that is free, unless it asks for a register where none is left
to be counted. -/
theorem runs_append_only (name : String) {earlier later : List Edit} {ledger last : Ledger ρ}
    (hearlier : Runs ⟨{ name }, []⟩ earlier ledger) (hlater : Runs ledger later last) :
    (∀ handle ∈ ledger.handed, ledger.code.Has handle ∧ last.code.Has handle) ∧
      ledger.code.Grows later last.code ∧
      last.code.InStep ∧ last.code.names.Nodup ∧
      (∀ (id : FunctionId) function, last.code.functions[id]? = some function →
        function.InStep ∧ function.labels.Nodup ∧
          last.code.functionNamed? function.name = some id) ∧
      (∀ id, (last.handed.filterMap (Handle.registerOf? id)).Nodup) ∧
      ∀ edit : Edit, edit.Uses last.handed →
        (∃ handle next, edit.run last.code = .ok (handle, next) ∧
          last.code.Issues last.handed next handle edit) ∨
        edit.Overruns last.code ∧ edit.run last.code = .error .registersSpent := by
  have hsound := hearlier.sound (sound_empty name)
  have hgrows := hlater.grows hsound
  have hlast := hlater.sound hsound
  refine ⟨?_, hgrows, hlast.taken, hlast.names, ?_, hlast.nodup_registers, ?_⟩
  · intro handle hhandle
    have hhas := hsound.has handle hhandle
    exact ⟨hhas, hgrows.has hhas⟩
  · intro id function hfunction
    obtain ⟨hinStep, hnodup⟩ := hlast.labels id function hfunction
    exact ⟨hinStep, hnodup, hlast.functionNamed_eq hfunction⟩
  · intro edit huses
    refine (hlast.carries huses).imp_left ?_
    rintro ⟨handle, next, hcarries⟩
    exact ⟨handle, next, hcarries.run, hcarries.issues⟩

/-- Names and labels that clash. -/
def clashing : List Edit :=
  [.addGlobal "X" (.int 8), .addGlobal "X.1" .ptr, .addFunction "X" false,
    .appendBlock 0 "entry", .appendBlock 0 "entry"]

/-- Two registers of the function that has the labels, and what its first block does. -/
def writing : List Edit :=
  [.freshRegister 0 (.int 8), .push ⟨0, 0⟩ (.load (.register (.int 8) 0) 0),
    .freshRegister 0 .ptr, .push ⟨0, 0⟩ .ret]

theorem clashing_append_only :
    ∃ ledger last : Ledger UInt32, Runs ⟨{ name := "M" }, []⟩ clashing ledger ∧
      Runs ledger writing last ∧
      last.code.names = ["X", "X.1", "X.2"] ∧
      last.code.functions.map Function.labels = [["entry", "entry.1"]] ∧
      last.handed.filterMap (Handle.registerOf? 0) = [0, 1] ∧
      (∀ handle ∈ ledger.handed, last.code.Has handle) ∧
      ledger.code.Grows writing last.code ∧ last.code.InStep ∧
      (∀ (id : FunctionId) function, last.code.functions[id]? = some function →
        last.code.functionNamed? function.name = some id) ∧
      ∃ handle next, (Edit.freshRegister 0 .ptr).run last.code = .ok (handle, next) ∧
        last.code.Issues last.handed next handle (.freshRegister 0 .ptr) := by
  have hruns : ∃ ledger last : Ledger UInt32, Runs ⟨{ name := "M" }, []⟩ clashing ledger ∧
      Runs ledger writing last ∧
      last.code.names = ["X", "X.1", "X.2"] ∧
      last.code.functions.map Function.labels = [["entry", "entry.1"]] ∧
      last.handed.filterMap (Handle.registerOf? 0) = [0, 1] ∧
      (Edit.freshRegister 0 .ptr).Uses last.handed ∧
      ∃ outcome, (Edit.freshRegister 0 .ptr).run last.code = .ok outcome :=
    ⟨_, _, .step (.run trivial rfl) <| .step (.run trivial rfl) <| .step (.run trivial rfl) <|
        .step (.run (.tail _ (.tail _ (.head _))) rfl) <|
        .step (.run (.tail _ (.tail _ (.head _))) rfl) <| .done _,
      .step (.run (.tail _ (.tail _ (.head _))) rfl) <|
        .step (.run (.tail _ (.tail _ (.tail _ (.head _)))) rfl) <|
        .step (.run (.tail _ (.tail _ (.head _))) rfl) <|
        .step (.run (.tail _ (.tail _ (.tail _ (.head _)))) rfl) <| .done _,
      by decide +kernel, by decide +kernel, by decide +kernel,
      .tail _ (.tail _ (.head _)), _, rfl⟩
  obtain ⟨ledger, last, hearlier, hlater, hnames, hlabels, hregisters, huses, outcome, hrun⟩ := hruns
  obtain ⟨hhas, hgrows, hinStep, -, hfunctions, -, hfurther⟩ :=
    runs_append_only "M" hearlier hlater
  exact ⟨ledger, last, hearlier, hlater, hnames, hlabels, hregisters,
    fun handle hhandle => (hhas handle hhandle).2, hgrows, hinStep,
    fun id function hfunction => (hfunctions id function hfunction).2.2,
    (hfurther _ huses).resolve_right fun hspent => nomatch hrun.symm.trans hspent.2⟩

end Ledger

end BlockLang.Code
