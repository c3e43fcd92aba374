import Mathlib.Data.List.Perm.Basic
import Mathlib.Logic.Relation
import BlockLang.Proofs.Code.Draft
import BlockLang.Proofs.Code.Neat

/-! How a draft is written. At any time some blocks wait for their code; the others, but
for the one under the cursor, are finished. There are three kinds of step: to open blocks,
to say something in the block under the cursor, and to leave that block for the first of
those that wait. Whatever every step keeps holds of every draft that is ever written. -/

namespace BlockLang.Code

/-- An instruction that defines nothing, uses what is known and fits. -/
structure Instr.Concludes (cells : List IntType) (functions blocks : Nat) (known : List Value)
    (instr : Instr) : Prop where
  dest : instr.dest? = none
  uses : ∀ value ∈ instr.uses, value.Known known
  fits : instr.Fits cells functions blocks

/-- A draft and the blocks that wait for their code, the next one first. -/
structure Desk where
  draft : Draft
  waiting : List BlockId

namespace Desk

inductive Step (cells : List IntType) (functions : Nat) : Desk → Desk → Prop
  | opening (draft : Draft) (waiting : List BlockId) (labels : List String) :
    Step cells functions ⟨draft, waiting⟩
      ⟨draft.openAll labels, List.range' draft.blocks.length labels.length ++ waiting⟩
  | saying {draft : Draft} {waiting : List BlockId} {instrs : List Instr} {last : Instr}
    (hneat : Neat cells [] draft.nextRegister instrs)
    (hlast : last.Concludes cells functions draft.blocks.length (defined instrs))
    (hplain : last.isTerminator = false) :
    Step cells functions ⟨draft, waiting⟩ ⟨(draft.extend instrs).push last, waiting⟩
  | leaving {draft : Draft} {waiting : List BlockId} {instrs : List Instr} {last : Instr}
    {next : BlockId} (hneat : Neat cells [] draft.nextRegister instrs)
    (hlast : last.Concludes cells functions draft.blocks.length (defined instrs))
    (hterminator : last.isTerminator = true) :
    Step cells functions ⟨draft, next :: waiting⟩
      ⟨((draft.extend instrs).push last).moveTo next, waiting⟩

abbrev Steps (cells : List IntType) (functions : Nat) : Desk → Desk → Prop :=
  Relation.ReflTransGen (Step cells functions)

variable {cells : List IntType} {functions : Nat} {before after : Desk}

theorem Steps.preserves {holds : Desk → Prop}
    (hstep : ∀ {first second}, Step cells functions first second → holds first → holds second)
    (h : Steps cells functions before after) (hbefore : holds before) : holds after := by
  induction h with
  | refl => exact hbefore
  | tail _ hlast ih => exact hstep hlast ih

end Desk

namespace Draft

theorem extend_push (draft : Draft) (instrs : List Instr) (last : Instr) :
    (draft.extend instrs).push last =
      ⟨draft.blocks.modify draft.cursor (·.pushAll (instrs ++ [last])),
        draft.nextRegister + instrs.length, draft.taken, draft.cursor⟩ := by
  simp only [extend, push, List.modify_modify_eq]
  congr 2
  funext block
  simp [Block.pushAll]

/-- What is said in the block under the cursor changes that block only. -/
theorem getElem?_say {draft : Draft} {instrs : List Instr} {last : Instr} {id : BlockId}
    {block : Block} (h : ((draft.extend instrs).push last).blocks[id]? = some block) :
    ∃ found, draft.blocks[id]? = some found ∧ block =
      if draft.cursor = id then found.pushAll (instrs ++ [last]) else found := by
  rw [Draft.extend_push] at h
  dsimp only at h
  rw [List.getElem?_modify] at h
  obtain ⟨found, hfound, rfl⟩ := Option.map_eq_some_iff.1 h
  exact ⟨found, hfound, rfl⟩

end Draft

namespace Desk

variable {cells : List IntType} {functions : Nat} {before after : Desk}

theorem Step.length_le (h : Step cells functions before after) :
    before.draft.blocks.length ≤ after.draft.blocks.length := by
  cases h with
  | opening draft waiting labels => simp
  | saying hneat hlast hplain => simp
  | leaving hneat hlast hterminator => simp

theorem Steps.length_le (h : Steps cells functions before after) :
    before.draft.blocks.length ≤ after.draft.blocks.length := by
  induction h with
  | refl => exact Nat.le_refl _
  | tail _ hlast ih => exact Nat.le_trans ih hlast.length_le

end Desk

/-- The block has been left: its last instruction is its only terminator. -/
def Block.Finished (block : Block) : Prop :=
  ∃ body last, block.instrs = body ++ [last] ∧ last.isTerminator = true ∧
    ∀ instr ∈ body, instr.isTerminator = false

def Block.Unfinished (block : Block) : Prop :=
  ∀ instr ∈ block.instrs, instr.isTerminator = false

/-- The blocks that still wait for code are those under the cursor and on the desk's list;
every other block is finished. -/
structure Desk.Tidy (desk : Desk) : Prop where
  inside : ∀ id ∈ desk.draft.cursor :: desk.waiting, id < desk.draft.blocks.length
  nodup : (desk.draft.cursor :: desk.waiting).Nodup
  unfinished : ∀ id ∈ desk.draft.cursor :: desk.waiting, ∀ block,
    desk.draft.blocks[id]? = some block → block.Unfinished
  finished : ∀ id ∉ desk.draft.cursor :: desk.waiting, ∀ block,
    desk.draft.blocks[id]? = some block → block.Finished

theorem Neat.isTerminator {cells : List IntType} {known : List Value} {next : Nat}
    {instrs : List Instr} (h : Neat cells known next instrs) :
    ∀ instr ∈ instrs, instr.isTerminator = false := by
  induction instrs generalizing known next with
  | nil => simp
  | cons first rest ih =>
    obtain ⟨-, -, type, hdest, hrest⟩ := h
    intro instr hinstr
    rcases List.mem_cons.1 hinstr with rfl | hinstr
    · cases instr with
      | load dest source => rfl
      | binary dest op left right => rfl
      | compare dest predicate left right => rfl
      | cast dest op value => rfl
      | store value target => rfl
      | call callee => rfl
      | jump target => cases hdest
      | fork condition yes no => cases hdest
      | ret => cases hdest
    · exact ih hrest instr hinstr

namespace Desk

variable {cells : List IntType} {functions : Nat} {before after : Desk}

theorem tidy_entry : Tidy ⟨.entry, []⟩ := by
  have hblocks : Draft.entry.blocks.length = 1 := rfl
  refine ⟨?_, by simp, ?_, ?_⟩
  · simp [Draft.entry, Draft.openBlock]
  · intro id hid block hblock
    obtain rfl := List.mem_singleton.1 hid
    cases hblock
    intro instr hinstr
    cases hinstr
  · intro id hid block hblock
    have hlt := (List.getElem?_eq_some_iff.1 hblock).1
    exact (hid (by simp [Draft.entry, Draft.openBlock] at hlt ⊢; exact hlt)).elim

theorem Tidy.lt {draft : Draft} {waiting : List BlockId} (h : Tidy ⟨draft, waiting⟩) {id : BlockId}
    (hid : id ∈ draft.cursor :: waiting) : id < draft.blocks.length :=
  h.inside id hid

theorem Tidy.openAll {draft : Draft} {waiting : List BlockId} (h : Tidy ⟨draft, waiting⟩)
    (labels : List String) :
    Tidy ⟨draft.openAll labels,
      List.range' draft.blocks.length labels.length ++ waiting⟩ := by
  obtain ⟨blocks, taken, hopened, hlength, hempty⟩ := draft.openAll_eq labels
  rw [hopened]
  -- A block that was there before waits now only if it waited then.
  have hold : ∀ id < draft.blocks.length,
      id ∈ draft.cursor :: (List.range' draft.blocks.length labels.length ++ waiting) →
        id ∈ draft.cursor :: waiting := by
    intro id hid hmem
    rcases List.mem_cons.1 hmem with rfl | hmem
    · exact List.mem_cons_self
    · rcases List.mem_append.1 hmem with hnew | hmem
      · have hle := (List.mem_range'_1.1 hnew).1
        omega
      · exact List.mem_cons_of_mem _ hmem
  refine ⟨?_, ?_, ?_, ?_⟩
  · intro id hid
    change id < (draft.blocks ++ blocks).length
    rw [List.length_append, hlength]
    rcases List.mem_cons.1 hid with rfl | hid
    · exact Nat.lt_add_right _ (h.lt List.mem_cons_self)
    · rcases List.mem_append.1 hid with hnew | hid
      · exact (List.mem_range'_1.1 hnew).2
      · exact Nat.lt_add_right _ (h.lt (List.mem_cons_of_mem _ hid))
  · have hnew : ∀ id ∈ List.range' draft.blocks.length labels.length,
        id ∉ draft.cursor :: waiting := by
      intro id hid hmem
      exact Nat.not_lt.2 (List.mem_range'_1.1 hid).1 (h.lt hmem)
    obtain ⟨hcursor, hwaiting⟩ := List.nodup_cons.1 h.nodup
    refine List.nodup_cons.2 ⟨?_, List.nodup_append.2 ⟨List.nodup_range', hwaiting, ?_⟩⟩
    · intro hmem
      rcases List.mem_append.1 hmem with hid | hmem
      · exact hnew _ hid List.mem_cons_self
      · exact hcursor hmem
    · rintro id hid _ hmem rfl
      exact hnew id hid (List.mem_cons_of_mem _ hmem)
  · intro id hid block hblock
    by_cases hlt : id < draft.blocks.length
    · rw [List.getElem?_append_left hlt] at hblock
      exact h.unfinished id (hold id hlt hid) block hblock
    · rw [List.getElem?_append_right (Nat.le_of_not_lt hlt)] at hblock
      intro instr hinstr
      rw [hempty block (List.mem_of_getElem? hblock)] at hinstr
      cases hinstr
  · intro id hid block hblock
    by_cases hlt : id < draft.blocks.length
    · rw [List.getElem?_append_left hlt] at hblock
      refine h.finished id (fun hmem => hid ?_) block hblock
      rcases List.mem_cons.1 hmem with rfl | hmem
      · exact List.mem_cons_self
      · exact List.mem_cons_of_mem _ (List.mem_append_right _ hmem)
    · have hbound := (List.getElem?_eq_some_iff.1 hblock).1
      rw [List.length_append, hlength] at hbound
      refine (hid (List.mem_cons_of_mem _ (List.mem_append_left _ ?_))).elim
      exact List.mem_range'_1.2 ⟨Nat.le_of_not_lt hlt, hbound⟩

theorem Tidy.say {draft : Draft} {waiting : List BlockId} (h : Tidy ⟨draft, waiting⟩)
    {instrs : List Instr} {last : Instr} (hneat : Neat cells [] draft.nextRegister instrs)
    (hplain : last.isTerminator = false) :
    Tidy ⟨(draft.extend instrs).push last, waiting⟩ := by
  refine ⟨fun id hid => by simpa using h.inside id hid, h.nodup, ?_, ?_⟩
  · intro id hid block hblock
    obtain ⟨found, hfound, rfl⟩ := Draft.getElem?_say hblock
    have hstill := h.unfinished id hid found hfound
    split
    · intro instr hinstr
      rw [Block.instrs_pushAll] at hinstr
      rcases List.mem_append.1 hinstr with hinstr | hinstr
      · exact hstill instr hinstr
      · rcases List.mem_append.1 hinstr with hinstr | hinstr
        · exact hneat.isTerminator instr hinstr
        · rw [List.mem_singleton.1 hinstr]
          exact hplain
    · exact hstill
  · intro id hid block hblock
    obtain ⟨found, hfound, rfl⟩ := Draft.getElem?_say hblock
    have hne : draft.cursor ≠ id := by
      rintro rfl
      exact hid List.mem_cons_self
    rw [if_neg hne]
    exact h.finished id hid found hfound

theorem Tidy.leave {draft : Draft} {waiting : List BlockId} {next : BlockId}
    (h : Tidy ⟨draft, next :: waiting⟩) {instrs : List Instr} {last : Instr}
    (hneat : Neat cells [] draft.nextRegister instrs) (hterminator : last.isTerminator = true) :
    Tidy ⟨((draft.extend instrs).push last).moveTo next, waiting⟩ := by
  have hcursor : draft.cursor ∉ next :: waiting := (List.nodup_cons.1 h.nodup).1
  refine ⟨?_, (List.nodup_cons.1 h.nodup).2, ?_, ?_⟩
  · intro id hid
    simpa using h.inside id (List.mem_cons_of_mem _ hid)
  · intro id hid block hblock
    obtain ⟨found, hfound, rfl⟩ := Draft.getElem?_say hblock
    have hne : draft.cursor ≠ id := by
      rintro rfl
      exact hcursor hid
    rw [if_neg hne]
    exact h.unfinished id (List.mem_cons_of_mem _ hid) found hfound
  · intro id hid block hblock
    obtain ⟨found, hfound, rfl⟩ := Draft.getElem?_say hblock
    split
    · next heq =>
      have hbefore := h.unfinished id (by rw [← heq]; exact List.mem_cons_self) found hfound
      refine ⟨found.instrs ++ instrs, last, by simp, hterminator, ?_⟩
      intro instr hinstr
      rcases List.mem_append.1 hinstr with hinstr | hinstr
      · exact hbefore instr hinstr
      · exact hneat.isTerminator instr hinstr
    · next hne =>
      refine h.finished id (fun hmem => ?_) found hfound
      rcases List.mem_cons.1 hmem with rfl | hmem
      · exact hne rfl
      · exact hid hmem

theorem Step.tidy (h : Step cells functions before after) (hbefore : before.Tidy) : after.Tidy := by
  cases h with
  | opening draft waiting labels => exact hbefore.openAll labels
  | saying hneat hlast hplain => exact hbefore.say hneat hplain
  | leaving hneat hlast hterminator => exact hbefore.leave hneat hterminator

end Desk

/-- Every value an instruction uses is a constant in range, or a register that is known or
that an earlier one of the instructions defines, at the same type. -/
def Local : List Value → List Instr → Prop
  | _, [] => True
  | known, instr :: rest =>
    (∀ value ∈ instr.uses, value.Known known) ∧ Local (known ++ instr.dest?.toList) rest

theorem Local.mono {known more : List Value} {instrs : List Instr} (h : Local known instrs)
    (hsubset : known ⊆ more) : Local more instrs := by
  induction instrs generalizing known more with
  | nil => trivial
  | cons instr rest ih =>
    refine ⟨fun value hvalue => (h.1 value hvalue).mono hsubset, ih h.2 ?_⟩
    exact List.append_subset.2 ⟨List.Subset.trans hsubset (List.subset_append_left _ _),
      List.subset_append_right _ _⟩

theorem local_append {known : List Value} {first second : List Instr} :
    Local known (first ++ second) ↔
      Local known first ∧ Local (known ++ defined first) second := by
  induction first generalizing known with
  | nil => simp [Local]
  | cons instr rest ih =>
    have hdefined : defined (instr :: rest) = instr.dest?.toList ++ defined rest := by
      cases hdest : instr.dest? <;> simp [defined, hdest]
    rw [List.cons_append, Local, Local, ih, and_assoc, hdefined, List.append_assoc]

theorem Neat.local {cells : List IntType} {known : List Value} {next : Nat} {instrs : List Instr}
    (h : Neat cells known next instrs) : Local known instrs := by
  induction instrs generalizing known next with
  | nil => trivial
  | cons instr rest ih =>
    obtain ⟨huses, -, type, hdest, hrest⟩ := h
    refine ⟨huses, ?_⟩
    rw [hdest]
    exact ih hrest

theorem Neat.fits {cells : List IntType} {known : List Value} {next : Nat} {instrs : List Instr}
    (h : Neat cells known next instrs) : ∀ instr ∈ instrs, instr.Fits cells 0 0 := by
  induction instrs generalizing known next with
  | nil => simp
  | cons first rest ih =>
    obtain ⟨-, hfits, type, -, hrest⟩ := h
    intro instr hinstr
    rcases List.mem_cons.1 hinstr with rfl | hinstr
    · exact hfits
    · exact ih hrest instr hinstr

theorem Neat.registers {cells : List IntType} {known : List Value} {next : Nat}
    {instrs : List Instr} (h : Neat cells known next instrs) :
    (defined instrs).map Value.register? = (List.range' next instrs.length).map some := by
  induction instrs generalizing known next with
  | nil => rfl
  | cons instr rest ih =>
    obtain ⟨-, -, type, hdest, hrest⟩ := h
    have hdefined : defined (instr :: rest) = .register type next :: defined rest := by
      simp [defined, hdest]
    rw [hdefined, List.length_cons, List.range'_succ, List.map_cons, List.map_cons, ih hrest]
    rfl

/-- What instructions of the draft define, block by block. -/
def Draft.defined (draft : Draft) : List Value :=
  Code.defined (draft.blocks.flatMap Block.instrs)

theorem perm_flatMap_modify {blocks : List Block} {id : BlockId} (h : id < blocks.length)
    (instrs : List Instr) :
    ((blocks.modify id (·.pushAll instrs)).flatMap Block.instrs).Perm
      (blocks.flatMap Block.instrs ++ instrs) := by
  induction blocks generalizing id with
  | nil => cases h
  | cons block rest ih =>
    cases id with
    | zero =>
      rw [List.modify_zero_cons, List.flatMap_cons, List.flatMap_cons, Block.instrs_pushAll,
        List.append_assoc, List.append_assoc]
      exact List.perm_append_comm.append_left _
    | succ id =>
      rw [List.modify_succ_cons, List.flatMap_cons, List.flatMap_cons, List.append_assoc]
      exact (ih (Nat.lt_of_succ_lt_succ h)).append_left _

/-- The instructions of a draft fit, use what stands before them, and define each register
once. -/
structure Draft.Sound (cells : List IntType) (functions : Nat) (draft : Draft) : Prop where
  fits : ∀ block ∈ draft.blocks, ∀ instr ∈ block.instrs,
    instr.Fits cells functions draft.blocks.length
  uses : ∀ block ∈ draft.blocks, Local [] block.instrs
  registers : (draft.defined.map Value.register?).Perm
    ((List.range draft.nextRegister).map some)

namespace Draft

variable {cells : List IntType} {functions : Nat} {draft : Draft}

theorem sound_entry : Draft.entry.Sound cells functions := by
  have hempty : ∀ block ∈ Draft.entry.blocks, block.instrs = [] := by
    intro block hblock
    rw [List.mem_singleton.1 hblock]
    rfl
  refine ⟨?_, ?_, .refl _⟩
  · intro block hblock instr hinstr
    rw [hempty block hblock] at hinstr
    cases hinstr
  · intro block hblock
    rw [hempty block hblock]
    trivial

theorem Sound.moveTo (h : draft.Sound cells functions) (block : BlockId) :
    (draft.moveTo block).Sound cells functions :=
  ⟨h.fits, h.uses, h.registers⟩

theorem Sound.openAll (h : draft.Sound cells functions) (labels : List String) :
    (draft.openAll labels).Sound cells functions := by
  obtain ⟨blocks, taken, hopened, hlength, hempty⟩ := draft.openAll_eq labels
  rw [hopened]
  refine ⟨?_, ?_, ?_⟩
  · intro block hblock instr hinstr
    rcases List.mem_append.1 hblock with hblock | hblock
    · exact (h.fits block hblock instr hinstr).mono List.prefix_rfl (Nat.le_refl _) (by simp)
    · rw [hempty block hblock] at hinstr
      cases hinstr
  · intro block hblock
    rcases List.mem_append.1 hblock with hblock | hblock
    · exact h.uses block hblock
    · rw [hempty block hblock]
      trivial
  · have hnothing : blocks.flatMap Block.instrs = [] := List.flatMap_eq_nil_iff.2 hempty
    simpa [Draft.defined, hnothing] using h.registers

/-- A block after something was said is an old one, or the one under the cursor with more
to it. -/
theorem mem_blocks_say {instrs : List Instr} {last : Instr} {block : Block}
    (h : block ∈ ((draft.extend instrs).push last).blocks) :
    ∃ found ∈ draft.blocks, block = found ∨ block = found.pushAll (instrs ++ [last]) := by
  obtain ⟨id, hid⟩ := List.mem_iff_getElem?.1 h
  obtain ⟨found, hfound, hchange⟩ := getElem?_say hid
  refine ⟨found, List.mem_of_getElem? hfound, ?_⟩
  split at hchange
  · exact .inr hchange
  · exact .inl hchange

theorem Sound.say (h : draft.Sound cells functions) (hcursor : draft.cursor < draft.blocks.length)
    {instrs : List Instr} {last : Instr} (hneat : Neat cells [] draft.nextRegister instrs)
    (hlast : last.Concludes cells functions draft.blocks.length (Code.defined instrs)) :
    ((draft.extend instrs).push last).Sound cells functions := by
  refine ⟨?_, ?_, ?_⟩
  · intro block hblock instr hinstr
    rw [length_push, length_extend]
    obtain ⟨found, hfound, rfl | rfl⟩ := mem_blocks_say hblock
    · exact h.fits _ hfound instr hinstr
    · rw [Block.instrs_pushAll] at hinstr
      rcases List.mem_append.1 hinstr with hinstr | hinstr
      · exact h.fits found hfound instr hinstr
      · rcases List.mem_append.1 hinstr with hinstr | hinstr
        · exact (hneat.fits instr hinstr).mono List.prefix_rfl (Nat.zero_le _) (Nat.zero_le _)
        · rw [List.mem_singleton.1 hinstr]
          exact hlast.fits
  · intro block hblock
    obtain ⟨found, hfound, rfl | rfl⟩ := mem_blocks_say hblock
    · exact h.uses _ hfound
    · rw [Block.instrs_pushAll]
      have hnew : Local [] (instrs ++ [last]) :=
        local_append.2 ⟨hneat.local, hlast.uses, trivial⟩
      exact local_append.2 ⟨h.uses found hfound, hnew.mono (List.nil_subset _)⟩
  · have hperm := perm_flatMap_modify hcursor (instrs ++ [last])
    have hnothing : Code.defined [last] = [] := by simp [Code.defined, hlast.dest]
    rw [extend_push]
    calc
      List.Perm _ ((Code.defined (draft.blocks.flatMap Block.instrs ++ (instrs ++ [last]))).map
          Value.register?) := (hperm.filterMap Instr.dest?).map Value.register?
      _ = draft.defined.map Value.register? ++ (Code.defined instrs).map Value.register? := by
        simp [Draft.defined, hnothing]
      List.Perm _ ((List.range draft.nextRegister).map some ++
          (List.range' draft.nextRegister instrs.length).map some) :=
        h.registers.append (.of_eq hneat.registers)
      _ = (List.range (draft.nextRegister + instrs.length)).map some := by
        rw [← List.map_append, List.range_add, List.range'_eq_map_range]

end Draft

/-- What holds of a draft at any time while it is written. -/
structure Desk.Valid (cells : List IntType) (functions : Nat) (desk : Desk) : Prop where
  tidy : desk.Tidy
  sound : desk.draft.Sound cells functions

namespace Desk

variable {cells : List IntType} {functions : Nat} {before after : Desk}

theorem valid_entry : Valid cells functions ⟨.entry, []⟩ :=
  ⟨tidy_entry, Draft.sound_entry⟩

theorem Step.valid (h : Step cells functions before after)
    (hbefore : before.Valid cells functions) : after.Valid cells functions := by
  obtain ⟨htidy, hsound⟩ := hbefore
  have hcursor : before.draft.cursor < before.draft.blocks.length :=
    htidy.inside _ List.mem_cons_self
  cases h with
  | opening draft waiting labels => exact ⟨htidy.openAll labels, hsound.openAll labels⟩
  | saying hneat hlast hplain =>
    exact ⟨htidy.say hneat hplain, hsound.say hcursor hneat hlast⟩
  | leaving hneat hlast hterminator =>
    exact ⟨htidy.leave hneat hterminator, (hsound.say hcursor hneat hlast).moveTo _⟩

end Desk

end BlockLang.Code
