import BlockLang.Proofs.Recognition
import BlockLang.Proofs.Session.Halting
import BlockLang.Proofs.Tree.Tracing

/-! A source that does not follow the grammar is told at its first impossible token: the tokens
before can be completed to a program, and with this token they cannot. -/

namespace BlockLang

open Compiler Grammar BlockLang.Tree

/-- A number that can be read in place of one that cannot. -/
def Token.legible : Token → Token
  | .number text => if (Numeral.read? text).isSome then .number text else .number "0"
  | token => token

namespace Grammar

variable {tokens taken body : List Lexeme} {ending : Ending} {stop : Place} {span : Span}

/-- Some program begins with the tokens. The end of input follows it. -/
def Viable (tokens : List Token) : Prop :=
  ∃ body, (Form.rule .program).Derives body [] ∧
    tokens <+: body.map Lexeme.token ++ [.eof]

theorem viable_of_starts (h : (Form.rule .program).Starts taken) :
    Viable (taken.map Lexeme.token) := by
  obtain ⟨more, hmore⟩ := h
  have hbody := hmore []
  rw [List.append_nil] at hbody
  refine ⟨taken ++ more, hbody, ?_⟩
  rw [List.map_append, List.append_assoc]
  exact List.prefix_append _ _

/-- A program that begins with the tokens and `next` ends before `next` or goes on with it. -/
theorem exists_of_prefix {before : List Token} {next : Token}
    (h : before ++ [next] <+: body.map Lexeme.token ++ [.eof]) :
    ∃ taken rest, body = taken ++ rest ∧ taken.map Lexeme.token = before ∧
      upcoming rest = next := by
  induction before generalizing body with
  | nil =>
    obtain ⟨after, hafter⟩ := h
    refine ⟨[], body, rfl, rfl, ?_⟩
    cases body with
    | nil => exact (List.cons.inj hafter).1.symm
    | cons first rest => exact (List.cons.inj hafter).1.symm
  | cons token before ih =>
    cases body with
    | nil =>
      have hlength := h.length_le
      simp at hlength
    | cons first rest =>
      obtain ⟨rfl, hrest⟩ := List.cons_prefix_cons.1 h
      obtain ⟨taken, last, rfl, rfl, hnext⟩ := ih hrest
      exact ⟨first :: taken, last, rfl, rfl, hnext⟩

theorem readable_legible (token : Token) : Readable token.legible := by
  intro text htext
  unfold Token.legible at htext
  split at htext
  · split at htext
    · next hread =>
      cases htext
      exact hread
    · cases htext
      decide +kernel
  · next hnumber => exact (hnumber text htext).elim

theorem legible_of_readable {token : Token} (h : Readable token) : token.legible = token := by
  unfold Token.legible
  split
  · rw [if_pos (h _ rfl)]
  · rfl

theorem Terminal.Accepts.legible {symbol : Terminal} {token : Token} (h : symbol.Accepts token) :
    symbol.Accepts token.legible := by
  cases h with
  | number text =>
    dsimp only [Token.legible]
    split <;> exact .number _
  | keyword word => exact .keyword word
  | sign mark => exact .sign mark
  | identifier name => exact .identifier name
  | typeName hname => exact .typeName hname
  | string text => exact .string text

def Lexeme.legible (lexeme : Lexeme) : Lexeme :=
  { lexeme with token := lexeme.token.legible }

theorem upcoming_map_legible (tokens : List Lexeme) :
    upcoming (tokens.map Lexeme.legible) = (upcoming tokens).legible := by
  cases tokens <;> rfl

/-- A program was followed, and nothing comes behind it. -/
def Ending.Complete : Ending → Prop
  | .passed rest => upcoming rest = .eof
  | .refused _ => False

theorem Ending.complete_before {next : List Lexeme} (h : upcoming next = upcoming ending.rest) :
    (ending.before next).Complete ↔ ending.Complete := by
  cases ending with
  | passed rest => exact Eq.congr_left h
  | refused rest => exact Iff.rfl

/-- Tokens that derive from the grammar are followed to their end. -/
theorem runs_of_derives (hreadable : ∀ lexeme ∈ body, Readable lexeme.token)
    (h : (Form.rule .program).Derives body []) :
    ∃ ending, (Form.rule .program).Runs body ending ∧ ending.Complete := by
  obtain ⟨decls, hdecls⟩ := (derives_program_iff hreadable).1 h
  let ahead : Ahead := { tokens := body, stop := {} }
  obtain ⟨first?, last, htraced, hmistake⟩ := traced_readProgram ahead
  rw [hdecls.read ahead rfl, Decls.mistake?_eq_none.2 hdecls.whole] at hmistake
  obtain ⟨rfl, hending⟩ := Option.or_eq_none_iff.1 hmistake.symm
  rw [mistake?_ending] at hending
  cases htraced with
  | passed hruns _ =>
    refine ⟨_, hruns, ?_⟩
    split at hending
    · assumption
    · cases hending

/-- The first mistake of a program is at the token up to which its tokens are followed. -/
theorem runs_of_mistake {ahead : Ahead} {mistake : Mistake}
    (hreadable : ∀ lexeme ∈ ahead.tokens, Readable lexeme.token)
    (h : (readProgram ahead).decls.mistake? = some mistake) :
    ∃ ending, (Form.rule .program).Runs ahead.tokens ending ∧ ¬ending.Complete ∧
      mistake.place = placeOf ahead.stop ending.rest := by
  obtain ⟨first?, last, htraced, hmistake⟩ := traced_readProgram ahead
  rw [h] at hmistake
  cases htraced with
  | passed hruns hstop =>
    rw [mistake?_ending] at hmistake
    split at hmistake
    · cases hmistake
    · next hpeek =>
      cases hmistake
      refine ⟨_, hruns, hpeek, ?_⟩
      rw [← hstop]
      rfl
  | refused hruns hplace =>
    cases hmistake
    exact ⟨_, hruns, id, hplace⟩
  | unreadable hmem hlexeme => exact (hlexeme (hreadable _ hmem)).elim

theorem readable_upcoming {tokens : List Lexeme} (h : ∀ lexeme ∈ tokens, Readable lexeme.token) :
    Readable (upcoming tokens) := by
  cases tokens with
  | nil => exact nofun
  | cons first rest => exact h first List.mem_cons_self

/-- No program begins with what was followed and the token behind it, if that is not the end. -/
theorem not_viable_of_runs (hreadable : ∀ lexeme ∈ taken ++ ending.rest, Readable lexeme.token)
    (h : (Form.rule .program).Runs (taken ++ ending.rest) ending) (hending : ¬ending.Complete) :
    ¬Viable (taken.map Lexeme.token ++ [upcoming ending.rest]) := by
  rintro ⟨body, hbody, hprefix⟩
  obtain ⟨others, next, rfl, hothers, hnext⟩ := exists_of_prefix hprefix
  -- a program may hold unreadable numbers behind these tokens, so its legible form is followed
  have htaken : (others.map Lexeme.legible).map Lexeme.token = taken.map Lexeme.token := by
    rw [← hothers, List.map_map]
    refine List.map_congr_left fun lexeme hlexeme => ?_
    have hmem : lexeme.token ∈ taken.map Lexeme.token := hothers ▸ List.mem_map_of_mem hlexeme
    obtain ⟨known, hknown, htoken⟩ := List.mem_map.1 hmem
    exact legible_of_readable (htoken ▸ hreadable known (List.mem_append_left _ hknown))
  have hupcoming : upcoming (next.map Lexeme.legible) = upcoming ending.rest := by
    rw [upcoming_map_legible, hnext]
    exact legible_of_readable
      (readable_upcoming fun lexeme hlexeme => hreadable lexeme (List.mem_append_right _ hlexeme))
  have hderives := hbody.map Lexeme.legible fun _ _ haccepts => haccepts.legible
  have hlegible : ∀ lexeme ∈ (others ++ next).map Lexeme.legible, Readable lexeme.token := by
    intro lexeme hlexeme
    obtain ⟨known, -, rfl⟩ := List.mem_map.1 hlexeme
    exact readable_legible known.token
  obtain ⟨ending', hwhole, hcomplete⟩ := runs_of_derives hlegible hderives
  obtain ⟨taken', hinput, halike⟩ := h.alike
  obtain rfl := List.append_cancel_right hinput
  have hruns := halike _ _ htaken hupcoming
  rw [← List.map_append] at hruns
  obtain rfl := hwhole.unique hruns
  exact hending ((Ending.complete_before hupcoming).1 hcomplete)

/-- Where following a program ends, its place and its token are those of one of the tokens, the
end of input among them. -/
theorem exists_lexeme (rest : List Lexeme) (span : Span) :
    ∃ lexeme after, rest ++ [⟨.eof, span⟩] = lexeme :: after ∧ lexeme.token = upcoming rest ∧
      lexeme.span.toPlace = placeOf span.toPlace rest := by
  cases rest with
  | nil => exact ⟨⟨.eof, span⟩, [], rfl, rfl, rfl⟩
  | cons first rest => exact ⟨first, rest ++ [⟨.eof, span⟩], rfl, rfl, rfl⟩

end Grammar

namespace Compiler

/-- The error stands at a token with which no program goes on, though one begins with those
before. -/
theorem refused_takeTokens {tokens : List Lexeme} {span : Span} {session next : Session}
    {location : Location} {message : String}
    (hreadable : ∀ lexeme ∈ tokens, Readable lexeme.token)
    (h : takeTokens (tokens ++ [⟨.eof, span⟩]) session =
      .error (.error (.malformed location message)) next) :
    ∃ before lexeme after, tokens ++ [⟨.eof, span⟩] = before ++ lexeme :: after ∧
      location.toPlace = lexeme.span.toPlace ∧ Viable (before.map Lexeme.token) ∧
        ¬Viable ((before ++ [lexeme]).map Lexeme.token) := by
  obtain ⟨mistake, hmistake, hplace⟩ := (Program.halts_emit _).place h
  have htokens : (Ahead.ofTokens (tokens ++ [⟨.eof, span⟩])).tokens = tokens :=
    tokens_ofTokens tokens span
  have hstop : (Ahead.ofTokens (tokens ++ [⟨.eof, span⟩])).stop = span.toPlace := by
    simp [Ahead.ofTokens]
  obtain ⟨ending, hruns, hending, hat⟩ := runs_of_mistake (by rwa [htokens]) hmistake
  rw [htokens] at hruns
  rw [hstop] at hat
  obtain ⟨before, rfl, hstarts⟩ := hruns.starts
  obtain ⟨lexeme, after, hrest, htoken, hspan⟩ := exists_lexeme ending.rest span
  refine ⟨before, lexeme, after, ?_, ?_, viable_of_starts hstarts, ?_⟩
  · rw [List.append_assoc, hrest]
  · rw [hplace, hat, hspan]
  · rw [List.map_append, List.map_singleton, htoken]
    exact not_viable_of_runs hreadable hruns hending

end Compiler

/-- Where a source does not follow the grammar, the error has the line and the column of its
first impossible token: some program begins with the tokens before, and none with this one
behind them. -/
theorem takeTokens_refuses {file source message : String} {location : Location}
    {lexemes : List Lexeme} {session : Session} (hscan : Token.scan source = .ok lexemes)
    (h : takeTokens lexemes (.start file) = .error (.error (.malformed location message)) session) :
    ∃ before lexeme after, lexemes = before ++ lexeme :: after ∧
      location.toPlace = lexeme.span.toPlace ∧ Viable (before.map Lexeme.token) ∧
        ¬Viable ((before ++ [lexeme]).map Lexeme.token) := by
  obtain ⟨tokens, span, rfl, -, hreadable⟩ := Token.scan_readable hscan
  exact refused_takeTokens hreadable h

/-- Whether a new session ends with the error when it takes in the tokens of a source. -/
def refusesWith (file source : String) (error : Error) : Bool :=
  match Token.scan source with
  | .ok lexemes =>
    match takeTokens lexemes (.start file) with
    | .error (.error other) _ => other == error
    | _ => false
  | .error _ => false

theorem exists_of_refusesWith {file source : String} {error : Error}
    (h : refusesWith file source error = true) : ∃ lexemes session,
      Token.scan source = .ok lexemes ∧
        takeTokens lexemes (.start file) = .error (.error error) session := by
  unfold refusesWith at h
  split at h
  · next lexemes hscan =>
    split at h
    · next other session hrun =>
      rw [beq_iff_eq] at h
      subst h
      exact ⟨lexemes, session, hscan, hrun⟩
    · cases h
  · cases h

/-- The second `ELSE` cannot stand where it does. Declarations have moved the location back by
then. -/
def secondElse : String :=
  "VAR X, Y: INT8;\nPROCEDURE P;\nBEGIN IF X = Y THEN P ELSE P; ELSE END END."

theorem secondElse_refused :
    ∃ lexemes session before lexeme after message, Token.scan secondElse = .ok lexemes ∧
      takeTokens lexemes (.start "unit") =
        .error (.error (.malformed ⟨⟨3, 31⟩, "unit"⟩ message)) session ∧
      lexemes = before ++ lexeme :: after ∧ lexeme.span.toPlace = ⟨3, 31⟩ ∧
        Viable (before.map Lexeme.token) ∧ ¬Viable ((before ++ [lexeme]).map Lexeme.token) := by
  have hrefuses : refusesWith "unit" secondElse
      (.malformed ⟨⟨3, 31⟩, "unit"⟩ "expected END, found ELSE") = true := by
    decide +kernel
  obtain ⟨lexemes, session, hscan, hrun⟩ := exists_of_refusesWith hrefuses
  obtain ⟨before, lexeme, after, hsplit, hplace, hviable, hnot⟩ := takeTokens_refuses hscan hrun
  exact ⟨lexemes, session, before, lexeme, after, _, hscan, hrun, hsplit, hplace.symm, hviable,
    hnot⟩

end BlockLang
