import BlockLang.Proofs.Code.Steps

/-! Where the code of a draft stands in the function it becomes. A block only ever gets
longer, so what a draft has in a block is the start of that block in the end, and the rest
of the block is what is still to be written. -/

namespace BlockLang.Code

namespace Draft

/-- Everything in the draft is in `final`, at the start of the block of the same number. -/
def Into (draft final : Draft) : Prop :=
  ∀ (id : BlockId) (block : Block), draft.blocks[id]? = some block →
    ∃ last, final.blocks[id]? = some last ∧ block.instrs <+: last.instrs

def block? (draft : Draft) (id : BlockId) : Option (List Instr) :=
  draft.blocks[id]?.map Block.instrs

/-- What `final` has in the draft's current block beyond what the draft has there. -/
def rest (final draft : Draft) : List Instr :=
  ((final.block? draft.cursor).getD []).drop
    ((draft.blocks[draft.cursor]?.map fun block => block.instrs.length).getD 0)

variable {first second third draft final : Draft}

theorem Into.refl (draft : Draft) : draft.Into draft :=
  fun _ block hblock => ⟨block, hblock, List.prefix_rfl⟩

theorem Into.trans (h : first.Into second) (h' : second.Into third) : first.Into third := by
  intro id block hblock
  obtain ⟨middle, hmiddle, hstart⟩ := h id block hblock
  obtain ⟨last, hlast, hstart'⟩ := h' id middle hmiddle
  exact ⟨last, hlast, hstart.trans hstart'⟩

/-- The draft once more has been said in its current block. -/
private theorem into_modify (draft : Draft) (instrs : List Instr) (next : Nat) :
    draft.Into { draft with
      blocks := draft.blocks.modify draft.cursor (·.pushAll instrs), nextRegister := next } := by
  intro id block hblock
  dsimp only
  rw [List.getElem?_modify, hblock]
  refine ⟨_, rfl, ?_⟩
  split
  · rw [Block.instrs_pushAll]
    exact List.prefix_append _ _
  · exact List.prefix_rfl

theorem into_extend (draft : Draft) (instrs : List Instr) : draft.Into (draft.extend instrs) :=
  into_modify draft instrs _

theorem into_push (draft : Draft) (instr : Instr) : draft.Into (draft.push instr) :=
  into_modify draft [instr] _

theorem into_openAll (draft : Draft) (labels : List String) :
    draft.Into (draft.openAll labels) := by
  obtain ⟨blocks, taken, hopened, -⟩ := draft.openAll_eq labels
  intro id block hblock
  rw [hopened]
  refine ⟨block, ?_, List.prefix_rfl⟩
  rw [List.getElem?_append_left (List.getElem?_eq_some_iff.1 hblock).1]
  exact hblock

/-- What the rest starts with is what is said next. -/
private theorem rest_modify (hinside : draft.cursor < draft.blocks.length) (instrs : List Instr)
    {next : Nat}
    (h : Into { draft with
      blocks := draft.blocks.modify draft.cursor (·.pushAll instrs), nextRegister := next } final) :
    final.rest draft = instrs ++ final.rest { draft with
      blocks := draft.blocks.modify draft.cursor (·.pushAll instrs), nextRegister := next } := by
  have hblock := List.getElem?_eq_getElem hinside
  have hlater : (draft.blocks.modify draft.cursor (·.pushAll instrs))[draft.cursor]? =
      some (draft.blocks[draft.cursor].pushAll instrs) := by
    rw [List.getElem?_modify, hblock]
    simp
  obtain ⟨last, hlast, code, hcode⟩ := h _ _ hlater
  unfold rest block?
  rw [hlast, hblock, hlater]
  simp only [Option.map_some, Option.getD_some, ← hcode, Block.instrs_pushAll, List.append_assoc,
    List.length_append, List.drop_left]
  rw [← List.append_assoc, ← List.length_append, List.drop_left]

theorem rest_extend (hinside : draft.cursor < draft.blocks.length) {instrs : List Instr}
    (h : (draft.extend instrs).Into final) :
    final.rest draft = instrs ++ final.rest (draft.extend instrs) :=
  rest_modify hinside instrs h

theorem rest_push (hinside : draft.cursor < draft.blocks.length) {instr : Instr}
    (h : (draft.push instr).Into final) :
    final.rest draft = instr :: final.rest (draft.push instr) :=
  rest_modify hinside [instr] h

theorem rest_say {α : Type} (hinside : draft.cursor < draft.blocks.length) {code : Straight α}
    {last : α → Instr} (h : (draft.say code last).Into final) :
    final.rest draft = code.instrs draft.nextRegister ++
      last (code.value draft.nextRegister) :: final.rest (draft.say code last) := by
  have hwritten : (draft.write code).cursor < (draft.write code).blocks.length := by
    simpa using hinside
  rw [rest_extend hinside ((into_push _ _).trans h)]
  exact congrArg _ (rest_push hwritten h)

theorem rest_openAll (hinside : draft.cursor < draft.blocks.length) (labels : List String) :
    final.rest (draft.openAll labels) = final.rest draft := by
  obtain ⟨blocks, taken, hopened, -⟩ := draft.openAll_eq labels
  rw [hopened]
  unfold rest
  dsimp only
  rw [List.getElem?_append_left hinside]

/-- The block is there, but nothing has been said in it yet. -/
def Blank (draft : Draft) (id : BlockId) : Prop :=
  ∃ block, draft.blocks[id]? = some block ∧ block.instrs = []

theorem Blank.lt {id : BlockId} (h : draft.Blank id) : id < draft.blocks.length := by
  obtain ⟨block, hblock, -⟩ := h
  exact (List.getElem?_eq_some_iff.1 hblock).1

theorem blank_openAll (draft : Draft) (labels : List String) {id : Nat}
    (hlow : draft.blocks.length ≤ id) (hhigh : id < (draft.openAll labels).blocks.length) :
    (draft.openAll labels).Blank id := by
  obtain ⟨blocks, taken, hopened, hlength, hempty⟩ := draft.openAll_eq labels
  have hid : id - draft.blocks.length < blocks.length := by
    rw [length_openAll] at hhigh
    omega
  refine ⟨blocks[id - draft.blocks.length], ?_, hempty _ (List.getElem_mem hid)⟩
  rw [hopened, List.getElem?_append_right hlow, List.getElem?_eq_getElem hid]

/-- Of a block that was blank, all is left. -/
theorem Blank.block?_eq {id : BlockId} (h : draft.Blank id) (hinto : draft.Into final) :
    final.block? id = some (final.rest (draft.moveTo id)) := by
  obtain ⟨block, hblock, hempty⟩ := h
  obtain ⟨last, hlast, -⟩ := hinto id block hblock
  unfold rest block?
  rw [blocks_moveTo, cursor_moveTo, hblock, hlast, Option.map_some, Option.map_some, hempty]
  rfl

/-- A block that is blank while the cursor is elsewhere. -/
structure Waits (draft : Draft) (id : BlockId) : Prop where
  blank : draft.Blank id
  elsewhere : id ≠ draft.cursor

theorem waits_openAll (hinside : draft.cursor < draft.blocks.length) (labels : List String)
    {id : Nat} (hlow : draft.blocks.length ≤ id)
    (hhigh : id < draft.blocks.length + labels.length) : (draft.openAll labels).Waits id := by
  refine ⟨draft.blank_openAll labels hlow (by simpa using hhigh), ?_⟩
  rw [cursor_openAll]
  exact Nat.ne_of_gt (Nat.lt_of_lt_of_le hinside hlow)

theorem Waits.moveTo {id other : BlockId} (h : draft.Waits id) (hne : id ≠ other) :
    (draft.moveTo other).Waits id := ⟨h.blank, hne⟩

/-- How a draft goes on: blocks are added, and of the blocks that are there only the
current one is changed. -/
structure Grows (draft later : Draft) : Prop where
  length : draft.blocks.length ≤ later.blocks.length
  inside : later.cursor < later.blocks.length
  cursor : later.cursor = draft.cursor ∨ draft.blocks.length ≤ later.cursor
  others : ∀ id < draft.blocks.length, id ≠ draft.cursor → later.blocks[id]? = draft.blocks[id]?
  into : draft.Into later

namespace Grows

variable {later : Draft}

theorem refl (hinside : draft.cursor < draft.blocks.length) : draft.Grows draft :=
  ⟨Nat.le_refl _, hinside, .inl rfl, fun _ _ _ => rfl, .refl draft⟩

theorem trans (h : first.Grows second) (h' : second.Grows third) : first.Grows third := by
  refine ⟨Nat.le_trans h.length h'.length, h'.inside, ?_, ?_, h.into.trans h'.into⟩
  · rcases h'.cursor with hsame | hnew
    · rw [hsame]
      exact h.cursor
    · exact .inr (Nat.le_trans h.length hnew)
  · intro id hid hne
    have hne' : id ≠ second.cursor := by
      rcases h.cursor with hsame | hnew
      · rwa [hsame]
      · omega
    exact (h'.others id (Nat.lt_of_lt_of_le hid h.length) hne').trans (h.others id hid hne)

theorem openAll (hinside : draft.cursor < draft.blocks.length) (labels : List String) :
    draft.Grows (draft.openAll labels) := by
  refine ⟨by simp, ?_, .inl (by simp), ?_, draft.into_openAll labels⟩
  · rw [cursor_openAll, length_openAll]
    exact Nat.lt_add_right _ hinside
  · intro id hid _
    obtain ⟨blocks, taken, hopened, -⟩ := draft.openAll_eq labels
    rw [hopened]
    exact List.getElem?_append_left hid

theorem extend (hinside : draft.cursor < draft.blocks.length) (instrs : List Instr) :
    draft.Grows (draft.extend instrs) := by
  refine ⟨by simp, by simpa [Draft.extend] using hinside, .inl rfl, ?_, draft.into_extend instrs⟩
  intro id _ hne
  simp [Draft.extend, Ne.symm hne]

theorem push (hinside : draft.cursor < draft.blocks.length) (instr : Instr) :
    draft.Grows (draft.push instr) := by
  refine ⟨by simp, by simpa [Draft.push] using hinside, .inl rfl, ?_, draft.into_push instr⟩
  intro id _ hne
  simp [Draft.push, Ne.symm hne]

theorem say {α : Type} (hinside : draft.cursor < draft.blocks.length) (code : Straight α)
    (last : α → Instr) : draft.Grows (draft.say code last) := by
  have hwritten : draft.Grows (draft.write code) := extend hinside _
  exact hwritten.trans (push hwritten.inside _)

/-- A block that waits stays waiting. -/
theorem waits (h : draft.Grows later) {id : BlockId} (hwaits : draft.Waits id) :
    later.Waits id := by
  obtain ⟨hblank, helsewhere⟩ := hwaits
  have hlt := hblank.lt
  obtain ⟨block, hblock, hempty⟩ := hblank
  refine ⟨⟨block, (h.others id hlt helsewhere).trans hblock, hempty⟩, ?_⟩
  rcases h.cursor with hsame | hnew
  · rwa [hsame]
  · exact Nat.ne_of_lt (Nat.lt_of_lt_of_le hlt hnew)

/-- The cursor may go to any block that is new. -/
theorem moveTo (h : draft.Grows later) {id : BlockId} (hnew : draft.blocks.length ≤ id)
    (hid : id < later.blocks.length) : draft.Grows (later.moveTo id) :=
  ⟨h.length, hid, .inr hnew, h.others, h.into⟩

end Grows

end Draft

end BlockLang.Code
