import BlockLang.Proofs.Code.Changes
import BlockLang.Proofs.Code.Straight

/-! A function under construction, apart from the module it belongs to: its blocks and their
labels, its next register and the block that takes the next instruction. What the builder
does at its cursor is what the operations here do to a draft. -/

namespace BlockLang.Code

namespace Block

def pushAll (block : Block) (instrs : List Instr) : Block :=
  instrs.foldl push block

@[simp] theorem instrs_pushAll (block : Block) (instrs : List Instr) :
    (block.pushAll instrs).instrs = block.instrs ++ instrs := by
  induction instrs generalizing block with
  | nil => simp [pushAll]
  | cons instr rest ih =>
    rw [pushAll, List.foldl_cons]
    have htail := ih (block.push instr)
    rw [pushAll] at htail
    rw [htail, instrs_push, List.append_assoc, List.singleton_append]

@[simp] theorem label_pushAll (block : Block) (instrs : List Instr) :
    (block.pushAll instrs).label = block.label := by
  induction instrs generalizing block with
  | nil => rfl
  | cons instr rest ih => exact ih (block.push instr)

end Block

structure Draft where
  blocks : List Block := []
  nextRegister : Nat := 0
  taken : NameSet := ∅
  cursor : BlockId := 0

namespace Draft

def push (draft : Draft) (instr : Instr) : Draft :=
  { draft with blocks := draft.blocks.modify draft.cursor (·.push instr) }

/-- Writes straight-line code, each instruction of which takes up a register. -/
def extend (draft : Draft) (instrs : List Instr) : Draft where
  blocks := draft.blocks.modify draft.cursor (·.pushAll instrs)
  nextRegister := draft.nextRegister + instrs.length
  taken := draft.taken
  cursor := draft.cursor

def write {α : Type} (draft : Draft) (code : Straight α) : Draft :=
  draft.extend (code.instrs draft.nextRegister)

/-- Adds an empty block. -/
def openBlock (draft : Draft) (base : String) : Draft :=
  let label := fresh draft.taken base
  { draft with blocks := draft.blocks ++ [{ label }], taken := draft.taken.insert label }

def openAll (draft : Draft) (labels : List String) : Draft :=
  labels.foldl openBlock draft

/-- Writes straight-line code and one more instruction, which uses the value it leaves. -/
def say {α : Type} (draft : Draft) (code : Straight α) (last : α → Instr) : Draft :=
  (draft.write code).push (last (code.value draft.nextRegister))

def moveTo (draft : Draft) (block : BlockId) : Draft :=
  { draft with cursor := block }

/-- A draft that holds one empty block. -/
def entry : Draft :=
  openBlock {} "entry"

@[simp] theorem extend_nil (draft : Draft) : draft.extend [] = draft := by
  have hid : (fun block : Block => block.pushAll []) = id := rfl
  simp [extend, hid]

theorem extend_extend (draft : Draft) (first second : List Instr) :
    (draft.extend first).extend second = draft.extend (first ++ second) := by
  simp only [extend, List.modify_modify_eq, List.length_append, Nat.add_assoc]
  congr 2
  funext block
  simp [Block.pushAll]

@[simp] theorem write_pure {α : Type} (draft : Draft) (value : α) :
    draft.write (pure value) = draft :=
  draft.extend_nil

theorem write_bind {α β : Type} (draft : Draft) (code : Straight α) (rest : α → Straight β) :
    draft.write (code >>= rest) =
      (draft.write code).write (rest (code.value draft.nextRegister)) := by
  unfold write
  rw [Straight.instrs_bind, ← extend_extend]
  rfl

@[simp] theorem length_push (draft : Draft) (instr : Instr) :
    (draft.push instr).blocks.length = draft.blocks.length := by
  simp [push]

@[simp] theorem length_extend (draft : Draft) (instrs : List Instr) :
    (draft.extend instrs).blocks.length = draft.blocks.length := by
  simp [extend]

@[simp] theorem length_write {α : Type} (draft : Draft) (code : Straight α) :
    (draft.write code).blocks.length = draft.blocks.length := by
  simp [write]

@[simp] theorem length_openBlock (draft : Draft) (label : String) :
    (draft.openBlock label).blocks.length = draft.blocks.length + 1 := by
  simp [openBlock]

@[simp] theorem cursor_write {α : Type} (draft : Draft) (code : Straight α) :
    (draft.write code).cursor = draft.cursor := rfl

@[simp] theorem cursor_moveTo (draft : Draft) (block : BlockId) :
    (draft.moveTo block).cursor = block := rfl

@[simp] theorem blocks_moveTo (draft : Draft) (block : BlockId) :
    (draft.moveTo block).blocks = draft.blocks := rfl

theorem openAll_eq (draft : Draft) (labels : List String) :
    ∃ (blocks : List Block) (taken : NameSet),
      draft.openAll labels = { draft with blocks := draft.blocks ++ blocks, taken } ∧
        blocks.length = labels.length ∧ ∀ block ∈ blocks, block.instrs = [] := by
  induction labels generalizing draft with
  | nil => exact ⟨[], draft.taken, by simp [openAll], rfl, by simp⟩
  | cons label rest ih =>
    obtain ⟨blocks, taken, hopened, hlength, hempty⟩ := ih (draft.openBlock label)
    refine ⟨{ label := fresh draft.taken label } :: blocks, taken, ?_, by simp [hlength], ?_⟩
    · rw [openAll, List.foldl_cons]
      rw [openAll] at hopened
      rw [hopened]
      simp [openBlock]
    · intro block hblock
      rcases List.mem_cons.1 hblock with rfl | hblock
      · rfl
      · exact hempty block hblock

@[simp] theorem length_openAll (draft : Draft) (labels : List String) :
    (draft.openAll labels).blocks.length = draft.blocks.length + labels.length := by
  obtain ⟨blocks, taken, hopened, hlength, -⟩ := draft.openAll_eq labels
  rw [hopened, List.length_append, hlength]

@[simp] theorem nextRegister_openAll (draft : Draft) (labels : List String) :
    (draft.openAll labels).nextRegister = draft.nextRegister := by
  obtain ⟨blocks, taken, hopened, -⟩ := draft.openAll_eq labels
  rw [hopened]

@[simp] theorem cursor_openAll (draft : Draft) (labels : List String) :
    (draft.openAll labels).cursor = draft.cursor := by
  obtain ⟨blocks, taken, hopened, -⟩ := draft.openAll_eq labels
  rw [hopened]

end Draft

/-- The blocks of a function or a draft, how many registers they define and the labels that
are taken. -/
abbrev Sketch := List Block × Nat × NameSet

def Function.sketch (function : Function) : Sketch :=
  (function.blocks, function.nextRegister, function.taken)

def Draft.sketch (draft : Draft) : Sketch := (draft.blocks, draft.nextRegister, draft.taken)

def Function.redraft (function : Function) (draft : Draft) : Function :=
  { function with
    blocks := draft.blocks
    nextRegister := draft.nextRegister
    taken := draft.taken }

def Function.draft (function : Function) (cursor : BlockId) : Draft :=
  ⟨function.blocks, function.nextRegister, function.taken, cursor⟩

theorem Function.draft_of_sketch {function : Function} {draft : Draft}
    (h : function.sketch = draft.sketch) : function.draft draft.cursor = draft := by
  cases draft
  cases h
  rfl

def Module.redraft (code : Module) (id : FunctionId) (draft : Draft) : Module :=
  code.modifyFunction id (·.redraft draft)

namespace Module

@[simp] theorem redraft_redraft (code : Module) (id : FunctionId) (first second : Draft) :
    (code.redraft id first).redraft id second = code.redraft id second := by
  unfold redraft modifyFunction
  simp only [List.modify_modify_eq]
  rfl

theorem functions_redraft_ne (code : Module) {id other : FunctionId} (h : id ≠ other)
    (draft : Draft) : (code.redraft id draft).functions[other]? = code.functions[other]? := by
  simp [redraft, modifyFunction, h]

theorem functions_redraft {code : Module} {id : FunctionId} {function : Function}
    (h : code.functions[id]? = some function) (draft : Draft) :
    (code.redraft id draft).functions[id]? = some (function.redraft draft) := by
  simp [redraft, modifyFunction, h]

/-- A change of one function is told by the draft it leads to. -/
theorem modifyFunction_eq_redraft {code : Module} {id : FunctionId} {function : Function}
    (change : Function → Function) (draft : Draft) (h : code.functions[id]? = some function)
    (hchange : change function = function.redraft draft) :
    code.modifyFunction id change = code.redraft id draft := by
  unfold redraft modifyFunction
  congr 1
  apply List.ext_getElem?
  intro index
  rw [List.getElem?_modify, List.getElem?_modify]
  by_cases hindex : id = index
  · subst hindex
    simp [h, hchange]
  · simp [hindex]

end Module

namespace Builder

/-- The builder stands in function `id`, of which `draft` is what there is so far. -/
structure At (builder : Builder) (id : FunctionId) (draft : Draft) : Prop where
  cursor : builder.cursor = some ⟨id, draft.cursor⟩
  drafted : ∃ function, builder.code.functions[id]? = some function ∧
    function.draft draft.cursor = draft
  inside : draft.cursor < draft.blocks.length

/-- The builder once function `id` has become `draft`. -/
def redraft (builder : Builder) (id : FunctionId) (draft : Draft) : Builder where
  code := builder.code.redraft id draft
  cursor := some ⟨id, draft.cursor⟩

@[simp] theorem redraft_redraft (builder : Builder) (id : FunctionId) (first second : Draft) :
    (builder.redraft id first).redraft id second = builder.redraft id second := by
  simp [redraft]

namespace At

variable {builder : Builder} {id : FunctionId} {draft : Draft}

theorem redraft_self (h : builder.At id draft) : builder.redraft id draft = builder := by
  obtain ⟨function, hfunction, hdraft⟩ := h.drafted
  have hcode : builder.code.redraft id draft = builder.code := by
    rw [← Module.modifyFunction_eq_redraft (fun function => function) draft hfunction]
    · unfold Module.modifyFunction
      congr 1
      exact List.modify_id id builder.code.functions
    · rw [← hdraft]
      rfl
  unfold redraft
  rw [hcode, ← h.cursor]

theorem redraft (h : builder.At id draft) {next : Draft} (inside : next.cursor < next.blocks.length) :
    (builder.redraft id next).At id next := by
  obtain ⟨function, hfunction, -⟩ := h.drafted
  exact ⟨rfl, ⟨_, Module.functions_redraft hfunction next, rfl⟩, inside⟩

theorem change_eq (h : builder.At id draft) (change : Function → Function) (next : Draft)
    (hcursor : next.cursor = draft.cursor)
    (hchange : ∀ function : Function, function.draft draft.cursor = draft →
      change function = function.redraft next) :
    { builder with code := builder.code.modifyFunction id change } = builder.redraft id next := by
  obtain ⟨function, hfunction, hdraft⟩ := h.drafted
  rw [Module.modifyFunction_eq_redraft change next hfunction (hchange function hdraft)]
  unfold Builder.redraft
  rw [hcursor, ← h.cursor]

/-- The block under the cursor. -/
theorem block (h : builder.At id draft) :
    ∃ block, draft.blocks[draft.cursor]? = some block ∧
      builder.code.block ⟨id, draft.cursor⟩ = .ok block := by
  obtain ⟨function, hfunction, hdraft⟩ := h.drafted
  have hblock := List.getElem?_eq_getElem h.inside
  refine ⟨_, hblock, Module.block_eq_ok.2 ⟨function, hfunction, ?_⟩⟩
  rw [← hblock, ← congrArg Draft.blocks hdraft]
  rfl

end At

end Builder

namespace Build

variable {builder : Builder} {id : FunctionId} {draft : Draft}

theorem here_of_cursor {place : BlockRef} (h : builder.cursor = some place) :
    here builder = .ok place builder := by
  obtain ⟨code, cursor⟩ := builder
  cases h
  rfl

theorem here_eq (h : builder.At id draft) : here builder = .ok ⟨id, draft.cursor⟩ builder :=
  here_of_cursor h.cursor

theorem change_eq_ok {α : Type} {action : Module → Except Fault (α × Module)} (value : α)
    (code : Module) (h : action builder.code = .ok (value, code)) :
    change action builder = .ok value { builder with code } := by
  change (change action).run builder = _
  simp only [change, EStateM.run_bind, EStateM.run_get, h]
  rfl

theorem view_eq_ok {α : Type} {look : Module → Except Fault α} (value : α)
    (h : look builder.code = .ok value) : view look builder = .ok value builder := by
  unfold view
  apply change_eq_ok value builder.code
  simp [h, bind, Except.bind, pure, Except.pure]

theorem bind_eq_ok {α β : Type} {step : Build α} {next : α → Build β} {value : α}
    {after : Builder} (h : step builder = .ok value after) :
    (step >>= next) builder = next value after := by
  simp [bind, EStateM.bind, h]

theorem emit_eq (h : builder.At id draft) (instr : Instr) :
    emit instr builder = .ok () (builder.redraft id (draft.push instr)) := by
  obtain ⟨block, -, hblock⟩ := h.block
  unfold emit
  rw [bind_eq_ok (here_eq h)]
  rw [change_eq_ok () (builder.code.modifyFunction id (·.push draft.cursor instr))]
  · rw [h.change_eq _ (draft.push instr) rfl]
    intro function hdraft
    rw [← hdraft]
    rfl
  · rw [Module.push_eq hblock]
    rfl

theorem freshRegister_eq (h : builder.At id draft) (type : Ty) :
    freshRegister type builder = .ok (.register type draft.nextRegister)
      (builder.redraft id { draft with nextRegister := draft.nextRegister + 1 }) := by
  obtain ⟨function, hfunction, hdraft⟩ := h.drafted
  unfold freshRegister
  rw [bind_eq_ok (here_eq h)]
  rw [change_eq_ok (.register type draft.nextRegister)
    (builder.code.modifyFunction id fun function =>
      { function with nextRegister := draft.nextRegister + 1 })]
  · rw [h.change_eq _ { draft with nextRegister := draft.nextRegister + 1 } rfl]
    intro other hdraft
    rw [← hdraft]
    rfl
  · rw [← hdraft]
    exact Module.freshRegister_eq hfunction rfl type

/-- A fresh register and the instruction that defines it. -/
theorem define_eq (h : builder.At id draft) (type : Ty) (instr : Value → Instr) :
    (freshRegister type >>= fun dest => emit (instr dest) >>= fun _ => pure dest) builder =
      .ok ((Straight.define type instr).value draft.nextRegister)
        (builder.redraft id (draft.write (Straight.define type instr))) := by
  have hat := h.redraft (show ({ draft with nextRegister := draft.nextRegister + 1 } : Draft).cursor <
    draft.blocks.length from h.inside)
  rw [bind_eq_ok (freshRegister_eq h type)]
  rw [bind_eq_ok (emit_eq hat _)]
  rw [Builder.redraft_redraft]
  rfl

theorem load_eq (h : builder.At id draft) {source : GlobalId} {global : Global}
    (hglobal : builder.code.globals[source]? = some global) :
    load source builder = .ok ((Straight.load source global.type).value draft.nextRegister)
      (builder.redraft id (draft.write (Straight.load source global.type))) := by
  unfold load
  rw [bind_eq_ok (view_eq_ok global (by simp [Module.global, fetch, hglobal]))]
  exact define_eq h global.type fun dest => .load dest source

theorem binary_eq (h : builder.At id draft) (op : BinOp) (left right : Value) :
    binary op left right builder = .ok ((Straight.binary op left right).value draft.nextRegister)
      (builder.redraft id (draft.write (Straight.binary op left right))) :=
  define_eq h left.type fun dest => .binary dest op left right

theorem compare_eq (h : builder.At id draft) (predicate : Predicate) (left right : Value) :
    compare predicate left right builder =
      .ok ((Straight.compare predicate left right).value draft.nextRegister)
        (builder.redraft id (draft.write (Straight.compare predicate left right))) :=
  define_eq h (.int 1) fun dest => .compare dest predicate left right

theorem intCast_eq (h : builder.At id draft) {value : Value} {type : Ty}
    (hvalue : ∀ source constant, value = .const source constant → 0 < source.bits)
    (htype : 0 < type.bits) (signed : Bool) :
    intCast value type signed builder =
      .ok ((Straight.intCast value type signed).value draft.nextRegister)
        (builder.redraft id (draft.write (Straight.intCast value type signed))) := by
  unfold intCast Straight.intCast
  by_cases hbits : value.type.bits = type.bits
  · simp only [if_pos hbits, Draft.write_pure, h.redraft_self]
    rfl
  · simp only [if_neg hbits]
    cases value with
    | const source constant =>
      simp only [Draft.write_pure, h.redraft_self]
      rw [Straight.foldCast_eq (hvalue source constant rfl) htype]
      rfl
    | register source register => exact define_eq h type _

theorem appendBlock_eq (h : builder.At id draft) (base : String) :
    appendBlock id base builder = .ok ⟨id, draft.blocks.length⟩
      (builder.redraft id (draft.openBlock base)) := by
  obtain ⟨function, hfunction, hdraft⟩ := h.drafted
  unfold appendBlock
  rw [change_eq_ok ⟨id, draft.blocks.length⟩
    (builder.code.modifyFunction id (·.addBlock (fresh draft.taken base)))]
  · rw [h.change_eq _ (draft.openBlock base) rfl]
    intro other hdraft
    rw [← hdraft]
    rfl
  · rw [← hdraft]
    exact Module.appendBlock_eq hfunction base

theorem isTerminated_eq (h : builder.At id draft) {block : Block}
    (hblock : draft.blocks[draft.cursor]? = some block) :
    isTerminated ⟨id, draft.cursor⟩ builder = .ok block.isTerminated builder := by
  obtain ⟨other, hother, hcode⟩ := h.block
  have hsame : other = block := Option.some.inj (hother.symm.trans hblock)
  subst hsame
  unfold isTerminated
  apply view_eq_ok
  simp [hcode, bind, Except.bind, pure, Except.pure]

end Build

end BlockLang.Code
