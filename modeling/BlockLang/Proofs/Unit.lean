import BlockLang.Proofs.Core.Procedures
import BlockLang.Proofs.Session.Laying

/-! A unit is taken in exactly if its text can be read and its tree can be resolved, and
its code is then that of the resolved program. -/

namespace BlockLang

open Code Names Compiler

/-- The program a source stands for. -/
def Core.Program.ofSource? (source : String) : Option Core.Program := do
  let tokens ← (Token.scan source).toOption
  (Tree.Program.ofTokens tokens).resolve

namespace Session

variable {session : Session}

theorem Shows.told {env : Core.Env} {cells : List IntType} {sketches : List Sketch}
    (h : session.Shows env cells sketches) {entry : Log.Entry}
    (hentry : ∀ fault, entry ≠ .event (.cursorAstray fault)) :
    (session.told entry).Shows env cells sketches :=
  h.congr (h.sees.sound.told hentry) rfl rfl rfl

end Session

namespace Compiler

variable {session : Session}

theorem ends_takeSource (source : String) (h : session.Shows [[]] [] [])
    (hclosed : session.procedures = []) :
    Ends (takeSource source) session
      (fun error _ => Core.Program.ofSource? source = none ∧
        ∀ function message, error ≠ .rejected function message)
      fun _ next => ∃ program, Core.Program.ofSource? source = some program ∧
        next.Sound ∧ next.Holds program := by
  cases hscan : Token.scan source with
  | error error =>
    have hnone : Core.Program.ofSource? source = none := by
      simp [Core.Program.ofSource?, hscan, Except.toOption]
    have hunreadable : scanAt session.location source =
        .error (.unreadable (session.location.movedTo error.place) error.cause.message) := by
      rw [scanAt, hscan]
      rfl
    exact ends_of_error (takeSource_unreadable hunreadable) ⟨hnone, by simp⟩
  | ok tokens =>
    have hprogram : Core.Program.ofSource? source = (Tree.Program.ofTokens tokens).resolve := by
      simp [Core.Program.ofSource?, hscan, Except.toOption]
    have htokens : takeSource source session = takeTokens tokens session :=
      takeSource_eq (by rw [scanAt, hscan]; rfl)
    have hends := Ends.and (yields_takeTokens tokens h hclosed) (settles_takeTokens tokens h.sees.sound)
    unfold Ends at hends ⊢
    rw [htokens, hprogram]
    split at hends
    · exact hends.1
    · refine ⟨hends.1, ?_⟩
      rintro function message rfl
      cases hends.2.1
    · exact hends

/-- A unit is taken in exactly if its source stands for a program. No error is about the
code that was made. -/
theorem ends_takeUnit (file source : String) :
    Ends (takeUnit source) (.start file)
      (fun error _ => Core.Program.ofSource? source = none ∧
        ∀ function message, error ≠ .rejected function message)
      fun _ next => ∃ program, Core.Program.ofSource? source = some program ∧
        next.Sound ∧ next.Holds program := by
  have hstarted := (Session.shows_start file).told
    (show ∀ fault, Log.Entry.enter (.unit file) ≠ .event (.cursorAstray fault) by simp)
  unfold takeUnit
  refine ends_get_bind (ends_bind_of_ok (tell_eq _) ?_)
  refine (ends_takeSource source hstarted rfl).bind ?_
  rintro _ next ⟨program, hprogram, hsound, hholds⟩
  refine ends_of_ok rfl ⟨program, hprogram, ?_, hholds.code, hholds.outermost⟩
  exact (hsound.told (by simp)).told (by simp)

end Compiler

/-- What is known of a unit that was taken in. -/
theorem readUnit_ok {file source : String} {session : Session}
    (h : readUnit file source = .ok () session) :
    ∃ program, Core.Program.ofSource? source = some program ∧ program.Formed ∧ session.Sound ∧
      session.Holds program := by
  have hends := Compiler.ends_takeUnit file source
  unfold Ends at hends
  rw [show takeUnit source (.start file) = .ok () session from h] at hends
  obtain ⟨program, hprogram, hsound, hholds⟩ := hends
  obtain ⟨tokens, -, hresolve⟩ := Option.bind_eq_some_iff.1 hprogram
  have hformed := Tree.Program.formed_resolve (Tree.Program.declarable_ofTokens tokens) hresolve
  exact ⟨program, hprogram, hformed, hsound, hholds⟩

/-- A unit that was not taken in has a mistake; the fault is never the compiler's. -/
theorem readUnit_error {file source : String} {failure : Failure} {session : Session}
    (h : readUnit file source = .error failure session) : ∃ error, failure = .error error := by
  have hends := Compiler.ends_takeUnit file source
  unfold Ends at hends
  rw [show takeUnit source (.start file) = .error failure session from h] at hends
  cases failure with
  | error error => exact ⟨error, rfl⟩
  | fault fault => exact hends.elim

/-- A unit that cannot be scanned fails where scanning breaks off. -/
theorem readUnit_unreadable {source : String} {error : Token.ScanError}
    (hscan : Token.scan source = .error error) (file : String) :
    readUnit file source = .error (.error (.unreadable ((Location.top file).movedTo error.place)
      error.cause.message)) ((Session.start file).told (.enter (.unit file))) := by
  have hunreadable : takeSource source ((Session.start file).told (.enter (.unit file))) =
      .error (.error (.unreadable ((Location.top file).movedTo error.place) error.cause.message))
        ((Session.start file).told (.enter (.unit file))) := by
    apply takeSource_unreadable
    rw [scanAt, hscan]
    rfl
  change (takeSource source >>= fun _ => _) ((Session.start file).told (.enter (.unit file))) = _
  exact bind_eq_error hunreadable

/-- A unit that was taken in had tokens, and they were. -/
theorem of_readUnit_eq_ok {file source : String} {session : Session}
    (h : readUnit file source = .ok () session) :
    ∃ tokens last, Token.scan source = .ok tokens ∧
      takeTokens tokens ((Session.start file).told (.enter (.unit file))) = .ok () last ∧
      session.builder = last.builder := by
  obtain ⟨_, last, hsource, hlast⟩ := exists_of_bind_eq_ok
    (show (takeSource source >>= fun _ => _) ((Session.start file).told (.enter (.unit file))) = _
      from h)
  cases hscan : Token.scan source with
  | error error =>
    rw [takeSource_unreadable (by rw [scanAt, hscan]; rfl)] at hsource
    cases hsource
  | ok tokens =>
    rw [takeSource_of_scan hscan] at hsource
    cases hlast
    exact ⟨tokens, last, rfl, hsource, rfl⟩

/-- Whether a unit is taken in and the session it leaves passes a test. -/
def readsTo (file source : String) (test : Session → Bool) : Bool :=
  match readUnit file source with
  | .ok _ session => test session
  | .error _ _ => false

theorem readsTo_iff {file source : String} {test : Session → Bool} :
    readsTo file source test = true ↔
      ∃ session, readUnit file source = .ok () session ∧ test session = true := by
  unfold readsTo
  cases readUnit file source <;> simp

end BlockLang
