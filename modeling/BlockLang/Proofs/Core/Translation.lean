import BlockLang.Proofs.Core.Agreement
import BlockLang.Proofs.Core.Writing

/-! Carrying out a whole program makes the functions of what the program resolves to, one
for each procedure and in the order of their headings. -/

namespace BlockLang

open Code Names BlockLang.Core Compiler

namespace Code

theorem Block.Unfinished.isTerminated {block : Block} (h : block.Unfinished) :
    block.isTerminated = false := by
  unfold Block.isTerminated
  cases hlast : block.instrs.getLast? with
  | none => rfl
  | some last => exact h last (List.mem_of_getLast? hlast)

/-- The block under the cursor is left by a jump. -/
theorem Desk.Tidy.jump {draft : Draft} {waiting : List BlockId} {next : BlockId}
    (h : Tidy ⟨draft, next :: waiting⟩) (target : BlockId) :
    Tidy ⟨(draft.push (.jump target)).moveTo next, waiting⟩ := by
  have hneat : Neat [] [] draft.nextRegister [] := trivial
  have hleft := h.leave hneat (show (Instr.jump target).isTerminator = true from rfl)
  rwa [Draft.extend_nil] at hleft

namespace Draft

variable {α : Type} {draft : Draft}

private theorem modify_append_left {blocks others : List Block} {id : BlockId}
    (h : id < blocks.length) (change : Block → Block) :
    (blocks ++ others).modify id change = blocks.modify id change ++ others := by
  induction blocks generalizing id with
  | nil => cases h
  | cons block rest ih =>
    cases id with
    | zero => rfl
    | succ id => simpa using ih (Nat.lt_of_succ_lt_succ h)

/-- Blocks may as well be opened before the code of the current block is written. -/
theorem openBlock_write (h : draft.cursor < draft.blocks.length) (code : Straight α)
    (label : String) : (draft.write code).openBlock label = (draft.openBlock label).write code := by
  unfold write extend openBlock
  dsimp only
  rw [modify_append_left h]

theorem openAll_write (h : draft.cursor < draft.blocks.length) (code : Straight α)
    (labels : List String) : (draft.write code).openAll labels = (draft.openAll labels).write code := by
  induction labels generalizing draft with
  | nil => rfl
  | cons label rest ih =>
    have hinside : (draft.openBlock label).cursor < (draft.openBlock label).blocks.length := by
      rw [length_openBlock]
      exact Nat.lt_succ_of_lt h
    rw [openAll, List.foldl_cons, openBlock_write h]
    exact ih hinside

/-- The same for a single instruction. -/
theorem openBlock_push (h : draft.cursor < draft.blocks.length) (instr : Instr) (label : String) :
    (draft.push instr).openBlock label = (draft.openBlock label).push instr := by
  unfold push openBlock
  dsimp only
  rw [modify_append_left h]

end Draft

end Code

namespace Session

variable {session inside : Session} {env inner : Env} {cells more : List IntType}
  {sketches before after : List Sketch} {draft : Draft}

theorem Shows.entered (h : session.Shows env cells sketches) :
    session.entered.Shows ([] :: env) cells sketches := by
  obtain ⟨procedures, hfits⟩ := h.fits
  exact ⟨h.sees.entered, ⟨procedures, hfits.enter⟩, h.declarable, h.globals, h.functions⟩

/-- Leaving a scope, with what was declared in it. -/
theorem Shows.left (h : session.Sees env) (hinside : inside.Shows inner more sketches)
    (hbalanced : session.entered.Balanced inside) (htail : inner.tail = env) :
    (inside.leftTo session.scope).Shows env more sketches := by
  obtain ⟨scope, outer, rfl, -⟩ := hinside.sees.innermost
  obtain ⟨procedures, hfits⟩ := hinside.fits
  subst htail
  exact ⟨h.left hinside.sees hbalanced,
    ⟨procedures, fun scope hscope => hfits scope (List.mem_cons_of_mem _ hscope)⟩,
    hinside.declarable, hinside.globals, hinside.functions⟩

theorem Writing.entered (h : session.Writing env cells before draft after) :
    session.entered.Writing ([] :: env) cells before draft after :=
  ⟨h.toShows.entered, h.cursor, h.inside, h.opened⟩

theorem Writing.left (h : session.Sees env) (hinside : inside.Writing inner more before draft after)
    (hbalanced : session.entered.Balanced inside) (htail : inner.tail = env) :
    (inside.leftTo session.scope).Writing env more before draft after :=
  ⟨hinside.toShows.left h hbalanced htail, hinside.cursor, hinside.inside, hinside.opened⟩

/-- Declarations write nothing, but may add functions. -/
theorem Writing.declared (h : session.Writing env cells before draft after)
    {others : List Sketch} (hinside : inside.Shows inner more (before ++ draft.sketch :: others))
    (hkept : Tree.Kept session inside) : inside.Writing inner more before draft others :=
  ⟨hinside, hkept.cursor.trans h.cursor, h.inside, hkept.procedures ▸ h.opened⟩

end Session

namespace Session.Writing

variable {session : Session} {env : Env} {cells : List IntType} {before after : List Sketch}
  {draft : Draft}

/-- Three blocks are opened one after the other. -/
theorem openThree (h : session.Writing env cells before draft after) (first second third : String)
    {next : BlockRef → BlockRef → BlockRef → Compiler Unit} {failed : Error → Session → Prop}
    {done : Unit → Session → Prop}
    (hnext : ∀ opened : Session,
      opened.Writing env cells before (draft.openAll [first, second, third]) after →
        Ends (next ⟨before.length, draft.blocks.length⟩ ⟨before.length, draft.blocks.length + 1⟩
          ⟨before.length, draft.blocks.length + 2⟩) opened failed done) :
    Ends (do
      let one ← appendBlock first
      let two ← appendBlock second
      let three ← appendBlock third
      next one two three) session failed done := by
  obtain ⟨hrun, hone⟩ := h.appendBlock_eq first
  obtain ⟨hrun', htwo⟩ := hone.appendBlock_eq second
  obtain ⟨hrun'', hthree⟩ := htwo.appendBlock_eq third
  refine ends_bind_of_ok hrun (ends_bind_of_ok hrun' (ends_bind_of_ok hrun'' ?_))
  simp only [Draft.length_openBlock]
  exact hnext _ hthree

/-- An open block is left by a jump. -/
theorem jumpIfOpen_eq (h : session.Writing env cells before draft after)
    {waiting : List BlockId} (htidy : Desk.Tidy ⟨draft, waiting⟩) (target : BlockId) :
    jumpIfOpen ⟨before.length, target⟩ session =
      .ok () (session.redraft before.length (draft.push (.jump target))) := by
  obtain ⟨block, hblock, -⟩ := h.builder_at.block
  have hopen := (htidy.unfinished _ List.mem_cons_self block hblock).isTerminated
  unfold jumpIfOpen
  rw [bind_eq_ok (currentBlock_eq h.cursor),
    bind_eq_ok (build_eq_ok (Build.isTerminated_eq h.builder_at hblock)), hopen]
  exact build_eq_ok (Build.emit_eq h.builder_at _)

end Session.Writing

namespace Tree

variable {session : Session} {env : Env} {cells : List IntType} {before after : List Sketch}
  {draft : Draft} {waiting : List BlockId}

/-- A resolved statement keeps the desk tidy. -/
theorem tidy_build {stmt : Stmt} (hdeclarable : stmt.Declarable)
    (h : session.Writing env cells before draft after) {found : Core.Stmt} {more : List IntType}
    (hresolve : stmt.resolve env cells = some (found, more)) {other : Draft}
    (htidy : Desk.Tidy ⟨other, waiting⟩) : Desk.Tidy ⟨found.build other, waiting⟩ := by
  obtain ⟨procedures, henv⟩ := h.fits
  obtain ⟨-, hfits, hcells⟩ := Stmt.fits_resolve hdeclarable hresolve
  exact (found.steps_build (hcells h.declarable) (hfits procedures henv) other waiting).preserves
    Desk.Step.tidy htidy

/-- So does a resolved condition, on which the block under the cursor is left. -/
private theorem tidy_fork {cond : Cond} (h : session.Writing env cells before draft after)
    {found : Core.Cond} (hresolve : cond.resolve env = some found) {other : Draft}
    {next : BlockId} (htidy : Desk.Tidy ⟨other, next :: waiting⟩) (yes no : BlockId) :
    Desk.Tidy ⟨(other.say found.code (.fork · yes no)).moveTo next, waiting⟩ := by
  obtain ⟨procedures, henv⟩ := h.fits
  have hleaves : found.code.Leaves cells [] _ :=
    Cond.leaves_code h.declarable (Cond.fits_resolve henv hresolve)
  exact htidy.leave (hleaves other.nextRegister).1 rfl

/-- What a statement resolves to has been written. -/
def Stmt.Written (stmt : Stmt) (env : Env) (cells : List IntType) (before : List Sketch)
    (draft : Draft) (after : List Sketch) (next : Session) : Prop :=
  ∃ found, stmt.resolve env cells = some found ∧
    next.Writing env found.2 before (found.1.build draft) after

/-- A statement is written in a block of its own, which is left by a jump. -/
private theorem ends_stretch {stmt : Stmt} {next target : BlockId}
    (h : session.Writing env cells before draft after) (hdeclarable : stmt.Declarable)
    (htidy : Desk.Tidy ⟨draft.moveTo next, waiting⟩) {failed : Error → Session → Prop}
    (hemit : ∀ {moved : Session}, moved.Writing env cells before (draft.moveTo next) after →
      Ends stmt.emit moved failed fun _ => stmt.Written env cells before (draft.moveTo next) after)
    {rest : Compiler Unit} {done : Unit → Session → Prop}
    (hrest : ∀ (found : Core.Stmt) (more : List IntType) (left : Session),
      stmt.resolve env cells = some (found, more) →
      Desk.Tidy ⟨found.build (draft.moveTo next), waiting⟩ →
      left.Writing env more before ((found.build (draft.moveTo next)).push (.jump target)) after →
        Ends rest left failed done) :
    Ends (do
      setCurrentBlock ⟨before.length, next⟩
      stmt.emit
      jumpIfOpen ⟨before.length, target⟩
      rest) session failed done := by
  obtain ⟨moved, hmove, hmoved⟩ := h.moveTo_eq (htidy.lt List.mem_cons_self)
  refine ends_bind_of_ok hmove ((hemit hmoved).bind ?_)
  rintro _ written ⟨⟨found, more⟩, hfound, hwritten⟩
  have hstill := tidy_build hdeclarable h hfound htidy
  refine ends_bind_of_ok (hwritten.jumpIfOpen_eq hstill target) ?_
  exact hrest found more _ hfound hstill (hwritten.push _)

/-- A branch fails only where one of its parts does. -/
theorem Stmt.ends_branch {condition : Cond} {yes no : Stmt} (hyes : yes.Declarable)
    (hno : no.Declarable) (h : session.Writing env cells before draft after)
    (htidy : Desk.Tidy ⟨draft, waiting⟩) {failed : Error → Session → Prop}
    (htest : Ends condition.emit session failed fun value next =>
      ∃ test, condition.resolve env = some test ∧ value = test.code.value draft.nextRegister ∧
        next.Writing env cells before (draft.write test.code) after)
    (hfirst : ∀ {moved : Session} {other : Draft} test, condition.resolve env = some test →
      moved.Writing env cells before other after → (∃ waiting, Desk.Tidy ⟨other, waiting⟩) →
        Ends yes.emit moved failed fun _ => yes.Written env cells before other after)
    (hsecond : ∀ {moved : Session} {other : Draft} test first more,
      condition.resolve env = some test → yes.resolve env cells = some (first, more) →
      moved.Writing env more before other after → (∃ waiting, Desk.Tidy ⟨other, waiting⟩) →
        Ends no.emit moved failed fun _ => no.Written env more before other after) :
    Ends (Stmt.branch condition yes no).emit session failed
      fun _ => (Stmt.branch condition yes no).Written env cells before draft after := by
  refine htest.bind ?_
  rintro value tested ⟨test, htest, rfl, htested⟩
  refine htested.openThree "then" "else" "endif" ?_
  intro opened hopened
  rw [Draft.length_write]
  rw [Draft.openAll_write h.inside] at hopened
  let next := draft.blocks.length
  have hforked := hopened.push (.fork (test.code.value draft.nextRegister) next (next + 1))
  have htidy' := tidy_fork h htest (htidy.openAll ["then", "else", "endif"]) next (next + 1)
  rw [Draft.say, Draft.nextRegister_openAll] at htidy'
  refine ends_bind_of_ok (build_eq_ok (Build.emit_eq hopened.builder_at _)) ?_
  refine ends_stretch hforked hyes htidy' (fun hmoved => hfirst test htest hmoved ⟨_, htidy'⟩) ?_
  intro first more chosen hresolved hbuilt hchosen
  have hleft := hbuilt.jump (next + 2)
  refine ends_stretch hchosen hno hleft
    (fun hmoved => hsecond test first more htest hresolved hmoved ⟨_, hleft⟩) ?_
  intro second all other hresolved' hbuilt' hother
  obtain ⟨last, hmove, hlast⟩ := hother.moveTo_eq ((hbuilt'.jump (next + 2)).lt List.mem_cons_self)
  refine ends_of_ok hmove ⟨(.branch test first second, all), ?_, ?_⟩
  · simp [resolve, htest, hresolved, hresolved']
  · rw [Core.Stmt.build, Draft.say, Draft.nextRegister_openAll]
    exact hlast

/-- A loop fails only where its condition or its body does. -/
theorem Stmt.ends_loop {condition : Cond} {body : Stmt} (hbody : body.Declarable)
    (h : session.Writing env cells before draft after) (htidy : Desk.Tidy ⟨draft, waiting⟩)
    {failed : Error → Session → Prop}
    (htest : ∀ {moved : Session} {other : Draft}, moved.Writing env cells before other after →
      Ends condition.emit moved failed fun value next =>
        ∃ test, condition.resolve env = some test ∧ value = test.code.value other.nextRegister ∧
          next.Writing env cells before (other.write test.code) after)
    (hinside : ∀ {moved : Session} {other : Draft} test, condition.resolve env = some test →
      moved.Writing env cells before other after → (∃ waiting, Desk.Tidy ⟨other, waiting⟩) →
        Ends body.emit moved failed fun _ => body.Written env cells before other after) :
    Ends (Stmt.loop condition body).emit session failed
      fun _ => (Stmt.loop condition body).Written env cells before draft after := by
  refine h.openThree "while.cond" "while.body" "while.end" ?_
  intro opened hopened
  let next := draft.blocks.length
  have htidy' := htidy.openAll ["while.cond", "while.body", "while.end"]
  have htesting := htidy'.jump next
  refine ends_bind_of_ok (hopened.jumpIfOpen_eq htidy' next) ?_
  obtain ⟨testing, hmove, hmoved⟩ :=
    (hopened.push (.jump next)).moveTo_eq (htesting.lt List.mem_cons_self)
  refine ends_bind_of_ok hmove ((htest hmoved).bind ?_)
  rintro _ tested ⟨test, hresolved, rfl, htested⟩
  refine ends_bind_of_ok (build_eq_ok (Build.emit_eq htested.builder_at _)) ?_
  have hforked := tidy_fork h hresolved htesting (next + 1) (next + 2)
  refine ends_stretch (htested.push _) hbody hforked
    (fun hmoved => hinside test hresolved hmoved ⟨_, hforked⟩) ?_
  intro inside all done hresolved' hbuilt hdone
  obtain ⟨last, hmove, hlast⟩ := hdone.moveTo_eq ((hbuilt.jump next).lt List.mem_cons_self)
  refine ends_of_ok hmove ⟨(.loop test inside, all), ?_, hlast⟩
  simp [resolve, hresolved, hresolved']

/-- A block fails only where its declarations or its body do. -/
theorem Stmt.ends_block {locals : List Declaration} {body : Stmt}
    (hlocals : ∀ declaration ∈ locals, declaration.Declarable) (hbody : body.Declarable)
    (h : session.Writing env cells before draft after) {failed : Error → Session → Prop}
    (hdeclare : ∀ {entered : Session},
      entered.Shows ([] :: env) cells (before ++ draft.sketch :: after) →
        Ends (locals.forM Declaration.emit) entered failed fun _ next =>
          ∃ found, resolveLocals locals ([] :: env) cells = some found ∧
            next.Shows found.1 found.2 (before ++ draft.sketch :: after) ∧ Kept entered next)
    (hinside : ∀ {declared : Session} inner more,
      resolveLocals locals ([] :: env) cells = some (inner, more) →
      declared.Writing inner more before draft after →
        Ends body.emit declared failed fun _ => body.Written inner more before draft after) :
    Ends (Stmt.block locals body).emit session failed
      fun _ => (Stmt.block locals body).Written env cells before draft after := by
  refine ends_bind_of_ok enterScope_eq ?_
  have hentered := h.entered
  have hsafe := safe_forM (fun declaration hmem _ hbefore =>
    Declaration.safe_emit (hlocals declaration hmem) hbefore) hentered.sees.sound
  refine ((hdeclare hentered.toShows).and hsafe |>.imp (fun _ _ hfailed => hfailed.1)
    fun _ _ hdone => hdone).bind ?_
  rintro _ declared ⟨⟨⟨inner, more⟩, hinner, hshows, hkept⟩, -, hbalanced, -⟩
  have hdeclared := hentered.declared hshows hkept
  have hsafe' := body.safe_emit hbody hdeclared.sees.sound hdeclared.opened
  refine ((hinside inner more hinner hdeclared).and hsafe' |>.imp (fun _ _ hfailed => hfailed.1)
    fun _ _ hdone => hdone).bind ?_
  rintro _ inside ⟨⟨⟨found, all⟩, hfound, hwritten⟩, -, hbalanced', -⟩
  have hbalanced := hbalanced.trans hbalanced'
  have htail : inner.tail = env := (extends_resolveLocals hlocals hinner).tail
  refine ends_of_ok (leaveScope_eq (hbalanced.parent? h.sees.sound)) ⟨(found, all), ?_, ?_⟩
  · simp [resolve, hinner, hfound]
  · exact hwritten.left h.sees hbalanced htail

private theorem Stmt.yields_assign (target : Ident) (value : Expr)
    (h : session.Writing env cells before draft after) :
    Yields (Stmt.assign target value).emit session ((Stmt.assign target value).resolve env cells)
      fun found _ next => next.Writing env found.2 before (found.1.build draft) after := by
  have hresolve : (Stmt.assign target value).resolve env cells =
      env.cell? target.name >>= fun cell => value.resolve env >>= fun source =>
        some (.assign cell.1 cell.2 source, cells) := rfl
  refine yields_resolveAs h.sees .cell target ?_ ?_ ?_
  · intro hfind
    simp [hresolve, Env.cell?, hfind]
  · intro meaning hfind hkind
    cases meaning with
    | literal text => simp [hresolve, Env.cell?, hfind, Meaning.entity]
    | procedure function block => simp [hresolve, Env.cell?, hfind, Meaning.entity]
    | cell global type => exact (hkind rfl).elim
  · intro symbol meaning hfind hmeaning hkind
    cases meaning with
    | literal text => cases hkind
    | procedure function block => cases hkind
    | cell global type =>
      have hcell : env.cell? target.name = some (global, type) := by
        simp [Env.cell?, hfind, Meaning.entity]
      obtain ⟨procedures, hfits⟩ := h.fits
      have htype := h.declarable type (List.mem_of_getElem? (hfits.cell? hcell))
      have hwidths := IntType.width_of_mem_declarable htype
      have hlocated := h.locatedAt target.place
      rw [hresolve, hcell]
      refine ((value.yields_emit hlocated).and_safe
        (value.safe_emit hlocated.sees.sound hlocated.opened)).bind ?_
      rintro source operand next - ⟨⟨hoperand, hnext⟩, -, hsound⟩
      refine yields_bind_of_ok (orFault_eq_ok (global, type) (by simp [Symbol.cell, hmeaning])) ?_
      let cast := Straight.intCast operand.value type.backend operand.type.signed
      have hcast : Writes _ cast := writes_intCast hsound (show 0 < type.width by omega) _
      have hwritten := hnext.write cast
      have hbuild : (Core.Stmt.assign global type source).build draft =
          ((draft.write source.code).write cast).push
            (.store (cast.value (draft.write source.code).nextRegister) global) := by
        subst hoperand
        rw [Core.Stmt.build, Draft.say, Core.Expr.codeAs, Draft.write_bind]
        rfl
      refine yields_bind_of_ok (hcast _ _ _ hnext.builder_at) ?_
      refine yields_of_ok (build_eq_ok (Build.emit_eq hwritten.builder_at _)) ?_
      rw [hbuild]
      exact hwritten.push _

private theorem Stmt.yields_call (callee : Ident)
    (h : session.Writing env cells before draft after) :
    Yields (Stmt.call callee).emit session ((Stmt.call callee).resolve env cells)
      fun found _ next => next.Writing env found.2 before (found.1.build draft) after := by
  have hresolve : (Stmt.call callee).resolve env cells =
      env.procedure? callee.name >>= fun id => some (.call id, cells) := rfl
  refine yields_resolveAs h.sees .procedure callee ?_ ?_ ?_
  · intro hfind
    simp [hresolve, Env.procedure?, hfind]
  · intro meaning hfind hkind
    cases meaning with
    | literal text => simp [hresolve, Env.procedure?, hfind, Meaning.entity]
    | procedure function block => exact (hkind rfl).elim
    | cell global type => simp [hresolve, Env.procedure?, hfind, Meaning.entity]
  · intro symbol meaning hfind hmeaning hkind
    cases meaning with
    | literal text => cases hkind
    | procedure function block =>
      have hcallee : env.procedure? callee.name = some function := by
        simp [Env.procedure?, hfind, Meaning.entity]
      have hlocated := h.locatedAt callee.place
      rw [hresolve, hcallee]
      refine yields_bind_of_ok (orFault_eq_ok _ (procedure_eq hmeaning)) ?_
      exact yields_of_ok (build_eq_ok (Build.emit_eq hlocated.builder_at _)) (hlocated.push _)
    | cell global type => cases hkind

private theorem Stmt.yields_ret (h : session.Writing env cells before draft after) :
    Yields Stmt.ret.emit session (Stmt.ret.resolve env cells)
      fun found _ next => next.Writing env found.2 before (found.1.build draft) after := by
  have hpushed := h.push .ret
  obtain ⟨hrun, happended⟩ := hpushed.appendBlock_eq "after.return"
  have hlast : draft.blocks.length < ((draft.push .ret).openBlock "after.return").blocks.length := by
    simp
  obtain ⟨last, hmove, hmoved⟩ := happended.moveTo_eq hlast
  refine yields_bind_of_ok (build_eq_ok (Build.emit_eq h.builder_at _)) ?_
  refine yields_bind_of_ok hrun ?_
  rw [Draft.length_push]
  refine yields_of_ok hmove ?_
  rw [Draft.openBlock_push h.inside] at hmoved
  exact hmoved

/-- What is written for a statement is the code of what it resolves to. -/
theorem Stmt.yields_emit (stmt : Stmt) (hdeclarable : stmt.Declarable)
    (h : session.Writing env cells before draft after) (htidy : Desk.Tidy ⟨draft, waiting⟩) :
    Yields stmt.emit session (stmt.resolve env cells) fun found _ next =>
      next.Writing env found.2 before (found.1.build draft) after := by
  induction stmt generalizing session env cells draft waiting with
  | skip => exact yields_of_ok rfl h
  | seq first second ihfirst ihsecond =>
    refine (ihfirst hdeclarable.1 h htidy).bind ?_
    rintro ⟨found, more⟩ _ next hfound hnext
    refine (ihsecond hdeclarable.2 hnext (tidy_build hdeclarable.1 h hfound htidy)).last ?_
    rintro ⟨other, all⟩ _ last - hlast
    exact ⟨_, rfl, hlast⟩
  | assign target value => exact yields_assign target value h
  | call callee => exact yields_call callee h
  | branch condition yes no ihyes ihno =>
    refine ends_branch hdeclarable.1 hdeclarable.2 h htidy ?_ ?_ ?_
    · refine Ends.imp (condition.yields_emit h) ?_ fun _ _ hdone => hdone
      intro _ _ hnone
      simp [resolve, hnone]
    · rintro moved other test htest hmoved ⟨waiting, htidy'⟩
      refine Ends.imp (ihyes hdeclarable.1 hmoved htidy') ?_ fun _ _ hdone => hdone
      intro _ _ hnone
      simp [resolve, htest, hnone]
    · rintro moved other test first more htest hfirst hmoved ⟨waiting, htidy'⟩
      refine Ends.imp (ihno hdeclarable.2 hmoved htidy') ?_ fun _ _ hdone => hdone
      intro _ _ hnone
      simp [resolve, htest, hfirst, hnone]
  | loop condition body ih =>
    have hbody : body.Declarable := hdeclarable
    refine ends_loop hbody h htidy ?_ ?_
    · intro moved other hmoved
      refine Ends.imp (condition.yields_emit hmoved) ?_ fun _ _ hdone => hdone
      intro _ _ hnone
      simp [resolve, hnone]
    · rintro moved other test htest hmoved ⟨waiting, htidy'⟩
      refine Ends.imp (ih hbody hmoved htidy') ?_ fun _ _ hdone => hdone
      intro _ _ hnone
      simp [resolve, htest, hnone]
  | ret => exact yields_ret h
  | block locals body ih =>
    refine ends_block hdeclarable.1 hdeclarable.2 h ?_ ?_
    · intro entered hentered
      refine Ends.imp (yields_locals hdeclarable.1 hentered) ?_ fun _ _ hdone => hdone
      intro _ _ hnone
      simp [resolve, hnone]
    · intro declared inner more hinner hdeclared
      refine Ends.imp (ih hdeclarable.2 hdeclared htidy) ?_ fun _ _ hdone => hdone
      intro _ _ hnone
      simp [resolve, hinner, hnone]
  | stop mistake => exact yields_raise mistake session

end Tree

end BlockLang
