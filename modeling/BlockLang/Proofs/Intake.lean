import BlockLang.Proofs.Session.Safety

/-! Sessions are used again: whatever a session has been given before, and however that
ended, it can take in the next program. -/

namespace BlockLang

open Code Names Compiler

/-- What a session can be given. -/
inductive Input where
  | tokens (lexemes : List Lexeme)
  | source (text : String)
  deriving Repr, DecidableEq

namespace Input

def take : Input → Compiler Unit
  | tokens lexemes => takeTokens lexemes
  | source text => takeSource text

end Input

namespace Session

/-- The session that is left once `input` has been given to it, also where that failed. -/
def given (session : Session) (input : Input) : Session :=
  match input.take session with
  | .ok _ next => next
  | .error _ next => next

/-- The session after a number of inputs, one after the other. -/
def fed (session : Session) (inputs : List Input) : Session :=
  inputs.foldl given session

theorem sound_start (file : String) : (Session.start file).Sound := by
  refine ⟨?_, ?_, ?_, ?_, ?_, ?_, ?_, ?_, ?_⟩
  · intro id hid
    have hid : id = 0 := by simpa [Session.start, Forest.openScope] using hid
    subst hid
    rfl
  · intro id outer houter
    cases id with
    | zero => cases houter
    | succ id => cases houter
  · simp [Session.start, Forest.openScope]
  · simp [Session.start, Forest.openScope]
  · simp [Session.start, Forest.openScope, Forest.meaning?]
  · simp [Session.start]
  · simp [Session.start]
  · simp [Session.start]
  · simp [Session.start]

end Session

namespace Compiler

variable {session : Session}

theorem settles_takeTokens (tokens : List Lexeme) (h : session.Sound) :
    Settles (takeTokens tokens) session :=
  (Tree.Program.ofTokens tokens).settles_emit (Tree.Program.declarable_ofTokens tokens) h

/-- A source that cannot be read leaves the session as it was. -/
theorem takeSource_unreadable {source : String} {error : Error}
    (hscan : scanAt session.location source = .error error) :
    takeSource source session = .error (.error error) session := by
  unfold takeSource
  rw [get_bind, hscan]
  rfl

theorem takeSource_eq {source : String} {tokens : List Lexeme}
    (hscan : scanAt session.location source = .ok tokens) :
    takeSource source session = takeTokens tokens session := by
  unfold takeSource
  rw [get_bind, hscan]
  rfl

theorem takeSource_of_scan {source : String} {tokens : List Lexeme}
    (hscan : Token.scan source = .ok tokens) : takeSource source = takeTokens tokens := by
  funext session
  apply takeSource_eq
  rw [scanAt, hscan]
  rfl

end Compiler

namespace Session

variable {session : Session}

theorem Sound.given (h : session.Sound) (input : Input) : (session.given input).Sound := by
  have htokens : ∀ tokens, (session.given (.tokens tokens)).Sound := by
    intro tokens
    have hsettles := settles_takeTokens tokens h
    unfold Settles Ends at hsettles
    unfold Session.given Input.take
    split at hsettles
    · next hrun => simpa only [hrun] using hsettles.1
    · next hrun => simpa only [hrun] using hsettles.2
    · exact hsettles.elim
  cases input with
  | tokens tokens => exact htokens tokens
  | source text =>
    cases hscan : scanAt session.location text with
    | error error =>
      simp only [Session.given, Input.take, takeSource_unreadable hscan]
      exact h
    | ok tokens =>
      have hsame : session.given (.source text) = session.given (.tokens tokens) := by
        simp only [Session.given, Input.take, takeSource_eq hscan]
      rw [hsame]
      exact htokens tokens

theorem sound_fed (file : String) (inputs : List Input) :
    ((Session.start file).fed inputs).Sound := by
  unfold fed
  have hstart := sound_start file
  generalize Session.start file = session at hstart
  induction inputs generalizing session with
  | nil => exact hstart
  | cons input rest ih => exact ih (session.given input) (hstart.given input)

end Session

namespace Tree.Ahead

/-- The tokens and the end of input. Where the list does not have it, it stands at the last
token. -/
def closed (tokens : List Lexeme) : List Lexeme :=
  if tokens.getLast?.map Lexeme.token = some .eof then tokens
  else tokens ++ [⟨.eof, (tokens.getLast?.map Lexeme.span).getD {}⟩]

theorem closed_eq (tokens : List Lexeme) : ∃ span : Span,
    span.toPlace = (ofTokens tokens).stop ∧
      closed tokens = (ofTokens tokens).tokens ++ [⟨.eof, span⟩] := by
  unfold closed ofTokens
  cases hlast : tokens.getLast? with
  | none => exact ⟨{}, rfl, rfl⟩
  | some last =>
    refine ⟨last.span, rfl, ?_⟩
    obtain ⟨token, span⟩ := last
    by_cases heof : token = .eof
    · subst heof
      obtain ⟨body, rfl⟩ := List.getLast?_eq_some_iff.1 hlast
      simp
    · simp [heof]

theorem tokens_repeat_skip (read : Nat) (ahead : Ahead) :
    (Nat.repeat skip read ahead).tokens = ahead.tokens.drop read ∧
      (Nat.repeat skip read ahead).stop = ahead.stop := by
  induction read with
  | zero => exact ⟨rfl, rfl⟩
  | succ read ih =>
    refine ⟨?_, ih.2⟩
    change (Nat.repeat skip read ahead).tokens.tail = _
    rw [ih.1, List.tail_drop]

/-- However many tokens were read, the next one is in the list: the end of input is never
passed. -/
theorem next_of_repeat_skip (tokens : List Lexeme) (read : Nat) :
    ∃ lexeme, (closed tokens)[min read ((closed tokens).length - 1)]? = some lexeme ∧
      (Nat.repeat skip read (ofTokens tokens)).peek = lexeme.token ∧
      (Nat.repeat skip read (ofTokens tokens)).place = lexeme.span.toPlace := by
  obtain ⟨span, hspan, hclosed⟩ := closed_eq tokens
  obtain ⟨htokens, hstop⟩ := tokens_repeat_skip read (ofTokens tokens)
  rw [hclosed]
  unfold peek place
  rw [htokens, hstop, List.head?_drop, ← hspan]
  generalize (ofTokens tokens).tokens = body
  by_cases hread : read < body.length
  · refine ⟨body[read], ?_, ?_, ?_⟩
    · simp [Nat.min_eq_left (Nat.le_of_lt hread), List.getElem?_append_left hread]
    · simp [hread]
    · simp [hread]
  · refine ⟨⟨.eof, span⟩, ?_, ?_, ?_⟩
    · simp [Nat.min_eq_right (Nat.le_of_not_lt hread)]
    · simp [hread]
    · simp [hread]

end Tree.Ahead

/-- Whatever a session was given before and whatever tokens come now, taking them in
ends well or in one of five errors of the program. No store is looked up beyond its end,
no symbol is told twice what it stands for or taken for something else, and the cursor
is never sent to a block that is not there. However many of the tokens were read, there is
a next one. -/
theorem takeTokens_never_faults (file : String) (inputs : List Input) (tokens : List Lexeme) :
    Ends (takeTokens tokens) ((Session.start file).fed inputs)
      (fun error next => error.ofTokens = true ∧ ∀ fault, .event (.cursorAstray fault) ∉ next.log)
      (fun _ next => ∀ fault, .event (.cursorAstray fault) ∉ next.log) ∧
    ∀ read, ∃ lexeme,
      (Tree.Ahead.closed tokens)[min read ((Tree.Ahead.closed tokens).length - 1)]? = some lexeme ∧
      (Nat.repeat Tree.Ahead.skip read (.ofTokens tokens)).peek = lexeme.token ∧
      (Nat.repeat Tree.Ahead.skip read (.ofTokens tokens)).place = lexeme.span.toPlace := by
  refine ⟨?_, Tree.Ahead.next_of_repeat_skip tokens⟩
  refine Ends.imp (settles_takeTokens tokens (Session.sound_fed file inputs)) ?_ ?_
  · rintro error next ⟨herror, hsound⟩
    exact ⟨herror, hsound.log⟩
  · rintro _ next ⟨hsound, -⟩
    exact hsound.log

end BlockLang
