import BlockLang.Code.Module
import BlockLang.Proofs.Code.Fresh

/-! What each change of a store of code comes to where it is not refused. The names that are
taken are those of the globals and functions, and the labels that are taken those of the blocks. -/

namespace BlockLang.Code

section Told

variable {α β : Type} {tell : α → β} {change : α → α}

theorem map_modify {told : β → β} (h : ∀ item, tell (change item) = told (tell item))
    (items : List α) (index : Nat) :
    (items.modify index change).map tell = (items.map tell).modify index told := by
  induction items generalizing index with
  | nil => simp
  | cons item rest ih =>
    cases index with
    | zero => simp [h]
    | succ index => simpa using ih index

/-- What is told of each item is still told of all where the changed one keeps it. -/
theorem map_modify_of_eq (h : ∀ item, tell (change item) = tell item) (items : List α)
    (index : Nat) : (items.modify index change).map tell = items.map tell := by
  have hsame : (items.modify index change).map tell = (items.map tell).modify index id :=
    map_modify h items index
  rw [hsame, List.modify_id]

theorem modify_middle (first : List α) (item : α) (second : List α) (change : α → α) :
    (first ++ item :: second).modify first.length change = first ++ change item :: second := by
  induction first with
  | nil => rfl
  | cons head rest ih => simpa using ih

end Told

variable {ρ : Type}

namespace Function

variable {function : Function ρ}

@[simp] theorem labels_addBlock (function : Function ρ) (label : String) :
    (function.addBlock label).labels = function.labels ++ [label] := by
  simp [labels, addBlock]

@[simp] theorem labels_push (function : Function ρ) (id : BlockId) (instr : Instr) :
    (function.push id instr).labels = function.labels :=
  map_modify_of_eq (fun block => block.label_push instr) function.blocks id

/-- The labels that are taken are those of the blocks. -/
def InStep (function : Function ρ) : Prop :=
  function.taken.Lists function.labels

theorem inStep_bare [Counter ρ] (name : String) (internal : Bool) :
    (bare name internal : Function ρ).InStep :=
  NameSet.lists_empty

theorem InStep.addBlock (h : function.InStep) (label : String) :
    (function.addBlock label).InStep := by
  unfold InStep
  rw [labels_addBlock]
  exact NameSet.Lists.insert h label

theorem InStep.push (h : function.InStep) (id : BlockId) (instr : Instr) :
    (function.push id instr).InStep := by
  unfold InStep
  rw [labels_push]
  exact h

end Function

namespace Module

variable {code : Module ρ} {id : FunctionId} {function : Function ρ}

theorem function_eq_ok :
    code.function id = .ok function ↔ code.functions[id]? = some function := by
  unfold Module.function fetch
  cases code.functions[id]? <;> simp

theorem block_eq_ok {place : BlockRef} {block : Block} :
    code.block place = .ok block ↔ ∃ function, code.functions[place.function]? = some function ∧
      function.blocks[place.block]? = some block := by
  unfold Module.block Module.function fetch
  cases code.functions[place.function]? with
  | none => simp [bind, Except.bind]
  | some function =>
    simp only [bind, Except.bind, Option.some.injEq, exists_eq_left']
    cases function.blocks[place.block]? <;> simp

theorem appendBlock_eq (h : code.functions[id]? = some function) (base : String) :
    code.appendBlock id base = .ok (⟨id, function.blocks.length⟩,
      code.modifyFunction id (·.addBlock (fresh function.taken base))) := by
  unfold Module.appendBlock
  rw [function_eq_ok.2 h]
  rfl

theorem freshRegister_eq [Counter ρ] (h : code.functions[id]? = some function) {later : ρ}
    (hlater : Counter.next? function.nextRegister = some later) (type : Ty) :
    code.freshRegister id type = .ok (.register type (Counter.number function.nextRegister),
      code.modifyFunction id fun found => { found with nextRegister := later }) := by
  unfold Module.freshRegister
  rw [function_eq_ok.2 h]
  dsimp only [bind, Except.bind]
  rw [hlater]
  rfl

theorem freshRegister_eq_error [Counter ρ] (h : code.functions[id]? = some function)
    (hspent : Counter.next? function.nextRegister = none) (type : Ty) :
    code.freshRegister id type = .error .registersSpent := by
  unfold Module.freshRegister
  rw [function_eq_ok.2 h]
  dsimp only [bind, Except.bind]
  rw [hspent]
  rfl

theorem push_eq {place : BlockRef} {block : Block} (h : code.block place = .ok block)
    (instr : Instr) :
    code.push place instr = .ok (code.modifyFunction place.function (·.push place.block instr)) := by
  unfold Module.push
  rw [h]
  rfl

theorem functions_modifyFunction (change : Function ρ → Function ρ) (other : FunctionId) :
    (code.modifyFunction id change).functions[other]? =
      if id = other then code.functions[other]?.map change else code.functions[other]? := by
  unfold modifyFunction
  rw [List.getElem?_modify]
  split <;> simp

theorem functions_modifyFunction_self (h : code.functions[id]? = some function)
    (change : Function ρ → Function ρ) :
    (code.modifyFunction id change).functions[id]? = some (change function) := by
  rw [functions_modifyFunction, if_pos rfl, h]
  rfl

theorem names_modifyFunction {change : Function ρ → Function ρ}
    (hname : ∀ function, (change function).name = function.name) :
    (code.modifyFunction id change).names = code.names := by
  unfold names modifyFunction
  rw [map_modify_of_eq hname]

theorem functions_addFunction [Counter ρ] (code : Module ρ) (base : String) (internal : Bool)
    (id : Nat) : (code.addFunction base internal).2.functions[id]? =
      if id = code.functions.length then some (.bare (fresh code.taken base) internal)
      else code.functions[id]? := by
  unfold addFunction
  by_cases hlast : id = code.functions.length
  · simp [hlast]
  · rw [if_neg hlast, List.getElem?_append]
    by_cases hlt : id < code.functions.length
    · rw [if_pos hlt]
    · have hbeyond : id - code.functions.length ≠ 0 := by omega
      simp [hlt, hbeyond]

theorem names_addGlobal (code : Module ρ) (base : String) (type : Ty) :
    ((code.addGlobal base type).2.names).Perm (code.names ++ [fresh code.taken base]) := by
  simp only [names, addGlobal, List.map_append, List.map_cons, List.map_nil, List.append_assoc]
  exact List.Perm.append_left _ List.perm_append_comm

theorem names_addFunction [Counter ρ] (code : Module ρ) (base : String) (internal : Bool) :
    (code.addFunction base internal).2.names = code.names ++ [fresh code.taken base] := by
  simp [names, addFunction, Function.bare]

/-- The names that are taken are those of the globals and functions. -/
def InStep (code : Module ρ) : Prop :=
  code.taken.Lists code.names

theorem inStep_empty (name : String) : InStep ({ name } : Module ρ) :=
  NameSet.lists_empty

theorem InStep.addGlobal (h : code.InStep) (base : String) (type : Ty) :
    (code.addGlobal base type).2.InStep :=
  NameSet.Lists.of_perm (NameSet.Lists.insert h _) (code.names_addGlobal base type).symm

theorem InStep.addFunction [Counter ρ] (h : code.InStep) (base : String) (internal : Bool) :
    (code.addFunction base internal).2.InStep := by
  unfold InStep
  rw [names_addFunction]
  exact NameSet.Lists.insert h _

theorem InStep.modifyFunction (h : code.InStep) {change : Function ρ → Function ρ}
    (hname : ∀ function, (change function).name = function.name) :
    (code.modifyFunction id change).InStep := by
  unfold InStep
  rw [names_modifyFunction hname]
  exact h

end Module

end BlockLang.Code
