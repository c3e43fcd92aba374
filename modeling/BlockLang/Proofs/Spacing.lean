import BlockLang.Proofs.Session.Overlooks
import BlockLang.Proofs.Unit

/-! How a source is laid out does not matter. Two sources with the same tokens end alike,
however their tokens are spread over lines and columns. -/

namespace BlockLang

open Code Names Compiler BlockLang.Tree

/-- Two sessions that differ in nothing but the place that reading has reached. -/
structure Session.Alike (first second : Session) : Prop where
  file : first.location.file = second.location.file
  /-- Every name stands for the same. -/
  forest : first.forest = second.forest
  scope : first.scope = second.scope
  procedures : first.procedures = second.procedures
  builder : first.builder = second.builder
  log : first.log = second.log

theorem Session.alike_iff {first second : Session} :
    first.Alike second ↔ first.unplaced = second.unplaced := by
  constructor
  · rintro ⟨hfile, hforest, hscope, hprocedures, hbuilder, hlog⟩
    simp only [unplaced, locatedAt, Location.movedTo, hfile, hforest, hscope, hprocedures, hbuilder,
      hlog]
  · intro h
    obtain ⟨hlocation, hforest, hscope, hprocedures, hbuilder, hlog⟩ := Session.mk.inj h
    exact ⟨(Location.mk.inj hlocation).2, hforest, hscope, hprocedures, hbuilder, hlog⟩

/-- Two ends that differ in nothing but places: what went wrong is the same as well. -/
inductive EndsAlike {α : Type} :
    EStateM.Result Failure Session α → EStateM.Result Failure Session α → Prop
  | ok {value : α} {first second : Session} (h : first.Alike second) :
    EndsAlike (.ok value first) (.ok value second)
  | error {failure other : Failure} {first second : Session}
    (hfailure : failure.unplaced = other.unplaced) (h : first.Alike second) :
    EndsAlike (.error failure first) (.error other second)

theorem endsAlike_of_unplacedEnd {α : Type} {first second : EStateM.Result Failure Session α}
    (h : unplacedEnd Session.unplaced first = unplacedEnd Session.unplaced second) :
    EndsAlike first second := by
  cases first with
  | ok value session =>
    cases second with
    | ok other session' =>
      obtain ⟨rfl, hsession⟩ := EStateM.Result.ok.inj h
      exact .ok (Session.alike_iff.2 hsession)
    | error failure session' => cases h
  | error failure session =>
    cases second with
    | ok value session' => cases h
    | error other session' =>
      obtain ⟨hfailure, hsession⟩ := EStateM.Result.error.inj h
      exact .error hfailure (Session.alike_iff.2 hsession)

theorem Overlooks.endsAlike {α : Type} {step other common : Compiler α}
    (h : Overlooks Session.unplaced step common) (h' : Overlooks Session.unplaced other common)
    {first second : Session} (halike : first.Alike second) :
    EndsAlike (step first) (other second) := by
  apply endsAlike_of_unplacedEnd
  rw [← h first, ← h' second, Session.alike_iff.1 halike]

/-- Tokens that are the same but for their places are the same once these are forgotten. -/
theorem map_unplaced_eq {tokens others : List Lexeme}
    (h : tokens.map Lexeme.token = others.map Lexeme.token) :
    tokens.map Lexeme.unplaced = others.map Lexeme.unplaced := by
  have hunplaced : Lexeme.unplaced = (fun token => ⟨token, {}⟩) ∘ Lexeme.token := rfl
  rw [hunplaced, ← List.map_map, h, List.map_map]

namespace Compiler

theorem overlooks_takeTokens (tokens : List Lexeme) :
    Overlooks Session.unplaced (takeTokens tokens) (takeTokens (tokens.map Lexeme.unplaced)) := by
  unfold takeTokens
  rw [Program.ofTokens_unplaced]
  exact Program.overlooks_emit _

/-- What is done with the tokens of a unit. -/
def takeUnitOf (tokens : List Lexeme) : Compiler Unit := do
  tell (.enter (.unit (← get).location.file))
  takeTokens tokens
  let code := (← get).builder.code
  record (.finished code.functions.length code.globals.length)
  tell .leave

theorem takeUnit_eq {source : String} {tokens : List Lexeme} (hscan : Token.scan source = .ok tokens)
    (session : Session) : takeUnit source session = takeUnitOf tokens session := by
  unfold takeUnit takeUnitOf
  rw [takeSource_of_scan hscan]

theorem overlooks_takeUnitOf (tokens : List Lexeme) :
    Overlooks Session.unplaced (takeUnitOf tokens) (takeUnitOf (tokens.map Lexeme.unplaced)) := by
  refine overlooks_get_bind fun session => (placeless_tell _).bind fun _ => ?_
  refine (overlooks_takeTokens tokens).bind fun _ => overlooks_get_bind fun session => ?_
  exact (placeless_tell _).bind fun _ => placeless_tell _

end Compiler

/-- Two sources with the same tokens are both taken in, and then the code and what every name
stands for are the same, or both fail with the same error at places of their own. The same
goes for two lists of tokens that differ in nothing but places, in sessions that do so too. -/
theorem readUnit_overlooks_places :
    (∀ (file source other : String) (tokens others : List Lexeme),
      Token.scan source = .ok tokens → Token.scan other = .ok others →
      tokens.map Lexeme.token = others.map Lexeme.token →
        EndsAlike (readUnit file source) (readUnit file other)) ∧
    ∀ (first second : Session) (tokens others : List Lexeme), first.Alike second →
      tokens.map Lexeme.token = others.map Lexeme.token →
        EndsAlike (takeTokens tokens first) (takeTokens others second) := by
  refine ⟨?_, ?_⟩
  · intro file source other tokens others hsource hother hsame
    unfold readUnit
    rw [takeUnit_eq hsource, takeUnit_eq hother]
    have hcommon := overlooks_takeUnitOf others
    rw [← map_unplaced_eq hsame] at hcommon
    exact (overlooks_takeUnitOf tokens).endsAlike hcommon (Session.alike_iff.2 rfl)
  · intro first second tokens others halike hsame
    have hcommon := overlooks_takeTokens others
    rw [← map_unplaced_eq hsame] at hcommon
    exact (overlooks_takeTokens tokens).endsAlike hcommon halike

/-- A program on one line. -/
def packed : String := "VAR X:INT8;PROCEDURE P;BEGIN X:=X+1 END."

/-- The same program with room to breathe. -/
def spread : String :=
  "var X : INT8; # counts\n\nprocedure P;\nbegin\n\tX := X + 1\nend .\n"

theorem spread_alike :
    ∃ first second : Session, readUnit "unit" packed = .ok () first ∧
      readUnit "unit" spread = .ok () second ∧ first.Alike second ∧
      first.location ≠ second.location := by
  have hreads : readsTo "unit" packed fun first => readsTo "unit" spread fun second =>
      first.location != second.location := by decide +kernel
  obtain ⟨first, hfirst, hrest⟩ := readsTo_iff.1 hreads
  obtain ⟨second, hsecond, hne⟩ := readsTo_iff.1 hrest
  obtain ⟨tokens, -, hpacked, -⟩ := of_readUnit_eq_ok hfirst
  obtain ⟨others, -, hspread, -⟩ := of_readUnit_eq_ok hsecond
  have hsame : (Token.scan packed).map (List.map Lexeme.token) =
      (Token.scan spread).map (List.map Lexeme.token) := by decide +kernel
  rw [hpacked, hspread] at hsame
  have halike := readUnit_overlooks_places.1 "unit" packed spread tokens others hpacked hspread
    (Except.ok.inj hsame)
  rw [hfirst, hsecond] at halike
  cases halike with
  | ok h => exact ⟨first, second, hfirst, hsecond, h, by simpa using hne⟩

end BlockLang
