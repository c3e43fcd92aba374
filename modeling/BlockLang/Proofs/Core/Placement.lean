import BlockLang.Proofs.Code.Layout
import BlockLang.Proofs.Core.Build

/-! Where the parts of a statement stand in the finished function. What follows a statement
in the source need not follow it in its block, so a statement is laid between the code that
it starts with and the code that is run after it. -/

namespace BlockLang.Core

open Code

/-- In a function with the given blocks, the statement starts with `code` and leads on to
`after`. Whatever stands behind a jump or a return is never run, and may be anything. -/
inductive Stmt.Laid (block? : BlockId → Option (List Instr)) :
    Stmt → List Instr → List Instr → Prop
  | skip {code : List Instr} : Laid block? .skip code code
  | seq {first second : Stmt} {code middle after : List Instr}
    (hfirst : Laid block? first code middle) (hsecond : Laid block? second middle after) :
    Laid block? (.seq first second) code after
  | assign {target : Nat} {type : IntType} {value : Expr} (next : Nat) {after : List Instr} :
    Laid block? (.assign target type value)
      ((value.codeAs type).instrs next ++ .store ((value.codeAs type).value next) target :: after)
      after
  | call {callee : Nat} {after : List Instr} :
    Laid block? (.call callee) (.call callee :: after) after
  | branch {condition : Cond} {yes no : Stmt} (next : Nat) {first second last : BlockId}
    {chosen other after behind behindYes behindNo : List Instr}
    (hfirst : block? first = some chosen) (hsecond : block? second = some other)
    (hlast : block? last = some after)
    (hyes : Laid block? yes chosen (.jump last :: behindYes))
    (hno : Laid block? no other (.jump last :: behindNo)) :
    Laid block? (.branch condition yes no)
      (condition.code.instrs next ++ .fork (condition.code.value next) first second :: behind)
      after
  | loop {condition : Cond} {body : Stmt} (next : Nat) {test first last : BlockId}
    {inside after behind behindTest behindBody : List Instr}
    (htest : block? test = some
      (condition.code.instrs next ++ .fork (condition.code.value next) first last :: behindTest))
    (hfirst : block? first = some inside) (hlast : block? last = some after)
    (hbody : Laid block? body inside (.jump test :: behindBody)) :
    Laid block? (.loop condition body) (.jump test :: behind) after
  | ret {after behind : List Instr} : Laid block? .ret (.ret :: behind) after

/-- Both parts of a conditional statement lead on to the same code. -/
theorem Stmt.Laid.branch_inv {block? : BlockId → Option (List Instr)} {condition : Cond}
    {yes no : Stmt} {code after : List Instr}
    (h : Laid block? (.branch condition yes no) code after) :
    ∃ next first second behind, code = condition.code.instrs next ++
        .fork (condition.code.value next) first second :: behind ∧
      ∀ holds : Bool, ∃ chosen target behind,
        block? (if holds then first else second) = some chosen ∧
          (if holds then yes else no).Laid block? chosen (.jump target :: behind) ∧
          block? target = some after := by
  cases h with
  | branch next hfirst hsecond hlast hyes hno =>
    refine ⟨next, _, _, _, rfl, fun holds => ?_⟩
    cases holds with
    | true => exact ⟨_, _, _, hfirst, hyes, hlast⟩
    | false => exact ⟨_, _, _, hsecond, hno, hlast⟩

/-- What building a statement does to a draft, and where the statement then stands. -/
def Stmt.Placed (stmt : Stmt) (draft : Draft) : Prop :=
  draft.Grows (stmt.build draft) ∧ ∀ final, (stmt.build draft).Into final →
    stmt.Laid final.block? (final.rest draft) (final.rest (stmt.build draft))

namespace Cond

variable {draft : Draft}

/-- The three blocks of a branch wait to be written, and the block before them ends in a fork. -/
theorem placed_forked (condition : Cond) (hinside : draft.cursor < draft.blocks.length) :
    draft.Grows (condition.forked draft) ∧
      (∀ id, draft.blocks.length ≤ id → id < draft.blocks.length + 3 →
        (condition.forked draft).Waits id) ∧
      ∀ final, (condition.forked draft).Into final → ∃ next, final.rest draft =
        condition.code.instrs next ++
          .fork (condition.code.value next) draft.blocks.length (draft.blocks.length + 1) ::
            final.rest (condition.forked draft) := by
  let labels := ["then", "else", "endif"]
  let next := draft.blocks.length
  have hopened : draft.Grows (draft.openAll labels) := .openAll hinside labels
  have hsaid : (draft.openAll labels).Grows (condition.forked draft) := .say hopened.inside _ _
  refine ⟨hopened.trans hsaid, ?_, ?_⟩
  · intro id hlow hhigh
    exact hsaid.waits (Draft.waits_openAll hinside labels hlow hhigh)
  · intro final hinto
    have hrest := Draft.rest_say hopened.inside hinto
    rw [Draft.rest_openAll hinside labels] at hrest
    exact ⟨_, hrest⟩

/-- The block before a loop jumps to the test, and the two blocks behind the test wait. -/
theorem placed_tested (condition : Cond) (hinside : draft.cursor < draft.blocks.length) :
    draft.Grows (condition.tested draft) ∧
      (∀ id, draft.blocks.length < id → id < draft.blocks.length + 3 →
        (condition.tested draft).Waits id) ∧
      ∀ final, (condition.tested draft).Into final →
        (∃ behind, final.rest draft = .jump draft.blocks.length :: behind) ∧
          ∃ next behind, final.block? draft.blocks.length = some (condition.code.instrs next ++
            .fork (condition.code.value next) (draft.blocks.length + 1)
              (draft.blocks.length + 2) :: behind) := by
  let labels := ["while.cond", "while.body", "while.end"]
  let next := draft.blocks.length
  let entered := (draft.openAll labels).push (.jump next)
  have hopened : draft.Grows (draft.openAll labels) := .openAll hinside labels
  have hpushed : (draft.openAll labels).Grows entered := .push hopened.inside _
  have hwaits : ∀ id, next ≤ id → id < next + 3 → entered.Waits id := by
    intro id hlow hhigh
    exact hpushed.waits (Draft.waits_openAll hinside labels hlow hhigh)
  have htest := hwaits next (by omega) (by omega)
  have hsaid : (entered.moveTo next).Grows (condition.tested draft) := .say htest.blank.lt _ _
  refine ⟨((hopened.trans hpushed).moveTo (Nat.le_refl _) htest.blank.lt).trans hsaid, ?_, ?_⟩
  · intro id hlow hhigh
    exact hsaid.waits ((hwaits id (Nat.le_of_lt hlow) hhigh).moveTo (Nat.ne_of_gt hlow))
  · intro final hinto
    have hentered : entered.Into final := hsaid.into.trans hinto
    have hblock : final.block? next = some (final.rest (looped draft)) :=
      htest.blank.block?_eq hentered
    rw [Draft.rest_say (inside_looped draft) hinto] at hblock
    have hrest := Draft.rest_push hopened.inside hentered
    rw [Draft.rest_openAll hinside labels] at hrest
    exact ⟨⟨_, hrest⟩, _, _, hblock⟩

end Cond

/-- A part of a statement that gets a block of its own, and leaves it for another one. -/
private theorem Stmt.Placed.aside {part : Stmt} {draft stage : Draft} {id : Nat}
    (hpart : part.Placed (stage.moveTo id)) (hstage : draft.Grows stage) (hwaits : stage.Waits id)
    (hnew : draft.blocks.length ≤ id) (last : Nat) :
    let left := part.aside stage id last
    draft.Grows left ∧ (∀ other : Nat, other ≠ id → stage.Waits other → left.Waits other) ∧
      ∀ final, left.Into final → stage.Into final ∧
        ∃ code, final.block? id = some code ∧
          part.Laid final.block? code (.jump last :: final.rest left) := by
  intro left
  obtain ⟨hbuilt, hlaid⟩ := hpart
  have hleft : (stage.moveTo id).Grows left := hbuilt.trans (.push hbuilt.inside _)
  refine ⟨(hstage.moveTo hnew hwaits.blank.lt).trans hleft, ?_, ?_⟩
  · intro other hne hother
    exact hleft.waits (hother.moveTo hne)
  · intro final hinto
    have hbegun : (stage.moveTo id).Into final := hleft.into.trans hinto
    have hlast := hlaid final ((Draft.into_push _ _).trans hinto)
    rw [Draft.rest_push hbuilt.inside hinto] at hlast
    exact ⟨hbegun, _, hwaits.blank.block?_eq hbegun, hlast⟩

theorem Stmt.placed (stmt : Stmt) {draft : Draft} (hinside : draft.cursor < draft.blocks.length) :
    stmt.Placed draft := by
  induction stmt generalizing draft with
  | skip => exact ⟨.refl hinside, fun _ _ => .skip⟩
  | seq first second ihfirst ihsecond =>
    obtain ⟨hfirst, hlaid⟩ := ihfirst hinside
    obtain ⟨hsecond, hlaid'⟩ := ihsecond hfirst.inside
    refine ⟨hfirst.trans hsecond, fun final hinto => ?_⟩
    exact .seq (hlaid final (hsecond.into.trans hinto)) (hlaid' final hinto)
  | assign target type value =>
    refine ⟨.say hinside _ _, fun final hinto => ?_⟩
    rw [Draft.rest_say hinside hinto]
    exact .assign draft.nextRegister
  | call callee =>
    refine ⟨.push hinside _, fun final hinto => ?_⟩
    rw [Draft.rest_push hinside hinto]
    exact .call
  | branch condition yes no ihyes ihno =>
    let next := draft.blocks.length
    obtain ⟨hforked, hwaits, hfork⟩ := condition.placed_forked hinside
    have hthen := hwaits next (by omega) (by omega)
    obtain ⟨hyes, hkeptYes, hlaidYes⟩ :=
      (ihyes hthen.blank.lt).aside hforked hthen (Nat.le_refl _) (next + 2)
    have helse := hkeptYes (next + 1) (by omega) (hwaits (next + 1) (by omega) (by omega))
    have hend := hkeptYes (next + 2) (by omega) (hwaits (next + 2) (by omega) (by omega))
    obtain ⟨hno, hkeptNo, hlaidNo⟩ :=
      (ihno helse.blank.lt).aside hyes helse (Nat.le_add_right _ _) (next + 2)
    have hmerge := hkeptNo (next + 2) (by omega) hend
    refine ⟨hno.moveTo (Nat.le_add_right _ _) hmerge.blank.lt, fun final hinto => ?_⟩
    obtain ⟨hbefore, other, hother, hotherLaid⟩ := hlaidNo final hinto
    obtain ⟨hstart, chosen, hchosen, hchosenLaid⟩ := hlaidYes final hbefore
    obtain ⟨register, hrest⟩ := hfork final hstart
    rw [hrest]
    exact .branch register hchosen hother (hmerge.blank.block?_eq hinto) hchosenLaid hotherLaid
  | loop condition body ih =>
    let next := draft.blocks.length
    obtain ⟨htested, hwaits, htest⟩ := condition.placed_tested hinside
    have hfirst := hwaits (next + 1) (by omega) (by omega)
    obtain ⟨hbody, hkept, hlaid⟩ :=
      (ih hfirst.blank.lt).aside htested hfirst (Nat.le_add_right _ _) next
    have hend := hkept (next + 2) (by omega) (hwaits (next + 2) (by omega) (by omega))
    refine ⟨hbody.moveTo (Nat.le_add_right _ _) hend.blank.lt, fun final hinto => ?_⟩
    obtain ⟨hbefore, inside, hinner, hinsideLaid⟩ := hlaid final hinto
    obtain ⟨⟨behind, hrest⟩, register, _, hblock⟩ := htest final hbefore
    rw [hrest]
    exact .loop register hblock hinner (hend.blank.block?_eq hinto) hinsideLaid
  | ret =>
    let labels := ["after.return"]
    let opened := draft.openAll labels
    have hopened : draft.Grows opened := .openAll hinside labels
    have hpushed : opened.Grows (opened.push .ret) := .push hopened.inside _
    have hwaits := hpushed.waits
      (Draft.waits_openAll hinside labels (Nat.le_refl _) (Nat.lt_succ_self _))
    refine ⟨(hopened.trans hpushed).moveTo (Nat.le_refl _) hwaits.blank.lt, fun final hinto => ?_⟩
    rw [← Draft.rest_openAll hinside labels, Draft.rest_push hopened.inside hinto]
    exact .ret

/-- A body stands between the start of its function and a last return. -/
theorem Stmt.laid_draft (body : Stmt) :
    ∃ code behind, body.draft.block? 0 = some code ∧
      body.Laid body.draft.block? code (.ret :: behind) := by
  have hinside : Draft.entry.cursor < Draft.entry.blocks.length := Nat.zero_lt_one
  obtain ⟨hgrows, hlaid⟩ := body.placed hinside
  have hinto : (body.build .entry).Into body.draft := Draft.into_push _ _
  have hpushed : ((body.build .entry).push .ret).Into body.draft := .refl _
  have hbody := hlaid _ hinto
  rw [Draft.rest_push hgrows.inside hpushed] at hbody
  have hblank : Draft.entry.Blank 0 := ⟨_, rfl, rfl⟩
  exact ⟨_, _, hblank.block?_eq (hgrows.into.trans hinto), hbody⟩

end BlockLang.Core
