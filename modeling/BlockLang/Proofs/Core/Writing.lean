import BlockLang.Proofs.Code.Steps
import BlockLang.Proofs.Core.Typing

/-! Every statement is written step by step, and leaves the list of waiting blocks as it
was. So the function of a procedure has the properties that every step keeps. -/

namespace BlockLang.Core

open Code

variable {cells : List IntType} {functions : Nat} {draft : Draft} {waiting : List BlockId}

/-- An instruction that uses no value. -/
private theorem concludes_of_fits {blocks : Nat} {instr : Instr} (hdest : instr.dest? = none)
    (huses : instr.uses = []) (h : instr.Fits cells functions blocks) :
    instr.Concludes cells functions blocks [] :=
  ⟨hdest, by simp [huses], h⟩

/-- The block under the cursor is left without further code. -/
private theorem steps_leave {next : BlockId} {last : Instr}
    (hlast : last.Concludes cells functions draft.blocks.length [])
    (hterminator : last.isTerminator = true) :
    Desk.Steps cells functions ⟨draft, next :: waiting⟩
      ⟨(draft.push last).moveTo next, waiting⟩ := by
  have hstep : Desk.Step cells functions ⟨draft, next :: waiting⟩
      ⟨((draft.extend []).push last).moveTo next, waiting⟩ := .leaving trivial hlast hterminator
  rw [Draft.extend_nil] at hstep
  exact .single hstep

/-- The block under the cursor is left on a condition. -/
private theorem steps_fork (hcells : ∀ type ∈ cells, type ∈ IntType.declarable)
    {next yes no : BlockId} {condition : Cond} (hcondition : condition.Fits cells)
    (hyes : yes < draft.blocks.length) (hno : no < draft.blocks.length) :
    Desk.Steps cells functions ⟨draft, next :: waiting⟩
      ⟨(draft.say condition.code (.fork · yes no)).moveTo next, waiting⟩ := by
  have hleaves : condition.code.Leaves cells [] _ := Cond.leaves_code hcells hcondition
  obtain ⟨hneat, hknown, htype⟩ := hleaves draft.nextRegister
  refine .single (.leaving hneat ⟨rfl, ?_, htype, hyes, hno⟩ rfl)
  intro value hvalue
  rw [List.mem_singleton.1 hvalue]
  exact hknown

/-- Control parts ways: one way is gone on with, the other one and where they meet wait. -/
private theorem steps_forked (hcells : ∀ type ∈ cells, type ∈ IntType.declarable)
    {condition : Cond} (hcondition : condition.Fits cells) (draft : Draft)
    (waiting : List BlockId) :
    let next := draft.blocks.length
    Desk.Steps cells functions ⟨draft, waiting⟩
      ⟨(condition.forked draft).moveTo next, (next + 1) :: (next + 2) :: waiting⟩ := by
  intro next
  let opened := draft.openAll ["then", "else", "endif"]
  have hlength : opened.blocks.length = next + 3 := draft.length_openAll _
  have hopen : Desk.Steps cells functions ⟨draft, waiting⟩
      ⟨opened, next :: (next + 1) :: (next + 2) :: waiting⟩ := .single (.opening draft waiting _)
  exact hopen.trans (steps_fork hcells hcondition (show next < opened.blocks.length by omega)
    (show next + 1 < opened.blocks.length by omega))

/-- The test of a loop: its body is gone on with, and what is behind it waits. -/
private theorem steps_tested (hcells : ∀ type ∈ cells, type ∈ IntType.declarable)
    {condition : Cond} (hcondition : condition.Fits cells) (draft : Draft)
    (waiting : List BlockId) :
    let next := draft.blocks.length
    Desk.Steps cells functions ⟨draft, waiting⟩
      ⟨(condition.tested draft).moveTo (next + 1), (next + 2) :: waiting⟩ := by
  intro next
  let opened := draft.openAll ["while.cond", "while.body", "while.end"]
  let looped := Cond.looped draft
  have hlength : opened.blocks.length = next + 3 := draft.length_openAll _
  have hlooped : looped.blocks.length = next + 3 := Cond.length_looped draft
  have hopen : Desk.Steps cells functions ⟨draft, waiting⟩
      ⟨opened, next :: (next + 1) :: (next + 2) :: waiting⟩ := .single (.opening draft waiting _)
  have henter : Desk.Steps cells functions ⟨opened, next :: (next + 1) :: (next + 2) :: waiting⟩
      ⟨looped, (next + 1) :: (next + 2) :: waiting⟩ :=
    steps_leave (concludes_of_fits rfl rfl (show next < opened.blocks.length by omega)) rfl
  have htest : Desk.Steps cells functions ⟨looped, (next + 1) :: (next + 2) :: waiting⟩
      ⟨(condition.tested draft).moveTo (next + 1), (next + 2) :: waiting⟩ :=
    steps_fork hcells hcondition (show next + 1 < looped.blocks.length by omega)
      (show next + 2 < looped.blocks.length by omega)
  exact hopen.trans (henter.trans htest)

/-- A part of a statement, which leaves for a block that is there. -/
private theorem steps_aside {part : Stmt} {stage : Draft} {id last next : BlockId}
    (hpart : Desk.Steps cells functions ⟨stage.moveTo id, next :: waiting⟩
      ⟨part.build (stage.moveTo id), next :: waiting⟩)
    (hlast : last < stage.blocks.length) :
    Desk.Steps cells functions ⟨stage.moveTo id, next :: waiting⟩
      ⟨(part.aside stage id last).moveTo next, waiting⟩ := by
  have hle : stage.blocks.length ≤ (part.build (stage.moveTo id)).blocks.length :=
    Desk.Steps.length_le hpart
  exact hpart.trans (steps_leave (concludes_of_fits rfl rfl (Nat.lt_of_lt_of_le hlast hle)) rfl)

theorem Stmt.steps_build (hcells : ∀ type ∈ cells, type ∈ IntType.declarable) {stmt : Stmt}
    (h : stmt.Fits cells functions) (draft : Draft) (waiting : List BlockId) :
    Desk.Steps cells functions ⟨draft, waiting⟩ ⟨stmt.build draft, waiting⟩ := by
  induction stmt generalizing draft waiting with
  | skip => exact .refl
  | seq first second ihfirst ihsecond =>
    exact (ihfirst h.1 draft waiting).trans (ihsecond h.2 (first.build draft) waiting)
  | assign target type value =>
    have hleaves : (value.codeAs type).Leaves cells [] _ :=
      Expr.leaves_codeAs hcells h.2 (hcells type (List.mem_of_getElem? h.1))
    obtain ⟨hneat, hknown, htype⟩ := hleaves draft.nextRegister
    refine .single (.saying hneat ⟨rfl, ?_, type, h.1, htype⟩ rfl)
    intro value hvalue
    rw [List.mem_singleton.1 hvalue]
    exact hknown
  | call callee =>
    have hstep : Desk.Step cells functions ⟨draft, waiting⟩
        ⟨(draft.extend []).push (.call callee), waiting⟩ :=
      .saying trivial (concludes_of_fits rfl rfl h) rfl
    rw [Draft.extend_nil] at hstep
    exact .single hstep
  | branch condition yes no ihyes ihno =>
    obtain ⟨hcondition, hyes, hno⟩ := h
    have hmerge : draft.blocks.length + 2 < (condition.forked draft).blocks.length := by
      rw [condition.length_forked]
      exact Nat.lt_succ_self _
    exact (steps_forked hcells hcondition draft waiting).trans
      ((steps_aside (ihyes hyes _ _) hmerge).trans
        (steps_aside (ihno hno _ _) (lt_chosen condition yes draft)))
  | loop condition body ih =>
    obtain ⟨hcondition, hbody⟩ := h
    have htest : draft.blocks.length < (condition.tested draft).blocks.length := by
      rw [condition.length_tested]
      exact Nat.lt_add_of_pos_right (Nat.zero_lt_succ 2)
    exact (steps_tested hcells hcondition draft waiting).trans (steps_aside (ih hbody _ _) htest)
  | ret =>
    have hopen : Desk.Steps cells functions ⟨draft, waiting⟩
        ⟨draft.openAll ["after.return"], draft.blocks.length :: waiting⟩ :=
      .single (.opening draft waiting _)
    exact hopen.trans (steps_leave (concludes_of_fits rfl rfl trivial) rfl)

theorem Stmt.valid_build (hcells : ∀ type ∈ cells, type ∈ IntType.declarable) {stmt : Stmt}
    (h : stmt.Fits cells functions) : Desk.Valid cells functions ⟨stmt.build .entry, []⟩ :=
  (stmt.steps_build hcells h .entry []).preserves Desk.Step.valid Desk.valid_entry

theorem Stmt.length_draft (hcells : ∀ type ∈ cells, type ∈ IntType.declarable) {body : Stmt}
    (h : body.Fits cells functions) : 0 < body.draft.blocks.length := by
  have hcursor := (body.valid_build hcells h).tidy.lt List.mem_cons_self
  unfold draft
  rw [Draft.length_push]
  exact Nat.zero_lt_of_lt hcursor

theorem Stmt.sound_draft (hcells : ∀ type ∈ cells, type ∈ IntType.declarable) {body : Stmt}
    (h : body.Fits cells functions) : body.draft.Sound cells functions := by
  obtain ⟨htidy, hsound⟩ := body.valid_build hcells h
  have hdraft : body.draft = ((body.build .entry).extend []).push .ret := by
    rw [Draft.extend_nil]
    rfl
  rw [hdraft]
  exact hsound.say (htidy.lt List.mem_cons_self) trivial (concludes_of_fits rfl rfl trivial)

theorem Stmt.finished_draft (hcells : ∀ type ∈ cells, type ∈ IntType.declarable) {body : Stmt}
    (h : body.Fits cells functions) : ∀ block ∈ body.draft.blocks, block.Finished := by
  obtain ⟨htidy, -⟩ := body.valid_build hcells h
  intro block hblock
  obtain ⟨id, hid⟩ := List.mem_iff_getElem?.1 hblock
  have hsaid : (((body.build .entry).extend []).push .ret).blocks[id]? = some block := by
    rw [Draft.extend_nil]
    exact hid
  obtain ⟨found, hfound, rfl⟩ := Draft.getElem?_say hsaid
  split
  · next heq =>
    refine ⟨found.instrs, .ret, by simp, rfl, ?_⟩
    exact htidy.unfinished id (by simp [heq]) found hfound
  · next hne =>
    refine htidy.finished id (fun hmem => ?_) found hfound
    exact hne (List.mem_singleton.1 hmem).symm

end BlockLang.Core
