import BlockLang.Proofs.Core.Procedures
import BlockLang.Proofs.Session.Sparing
import BlockLang.Proofs.Token.Scanned
import BlockLang.Proofs.Tree.Productions
import BlockLang.Proofs.Tree.Whole

/-! The tokens of a source are taken in only if they derive from the grammar, and if they do,
the grammar is never what they fail for. -/

namespace BlockLang

open Compiler Grammar

/-- Errors in what the names of a program stand for. -/
def Error.ofNames : Error → Bool
  | duplicate .. | unresolved .. | wrongKind .. | notNumeric .. => true
  | malformed .. | unreadable .. | rejected .. | internal .. | inaccessible .. => false

namespace Token

/-- The end of input comes last in a source, and the numbers before it can be read. -/
theorem scan_readable {source : String} {lexemes : List Lexeme} (h : scan source = .ok lexemes) :
    ∃ tokens span, lexemes = tokens ++ [⟨.eof, span⟩] ∧ Tree.Endless tokens ∧
      ∀ lexeme ∈ tokens, Readable lexeme.token := by
  obtain ⟨tokens, span, rfl, hendless⟩ := scanFrom_ends _ _ _ h
  refine ⟨tokens, span, rfl, hendless, ?_⟩
  intro lexeme hlexeme text htext
  have hformed := (scanned_of_scan h).wellFormed lexeme (List.mem_append_left _ hlexeme)
  rw [htext] at hformed
  exact (hformed.resolve_left nofun).2.2

end Token

namespace Compiler

variable {tokens : List Lexeme} {span : Span}

/-- A program that can be taken in is spelt by its tokens. -/
theorem spells_of_takeTokens {file : String} {session : Session} (hendless : Tree.Endless tokens)
    (h : takeTokens (tokens ++ [⟨.eof, span⟩]) (.start file) = .ok () session) :
    ∃ decls : Tree.Decls, decls.Spells tokens := by
  have hyields := yields_takeTokens (tokens ++ [⟨.eof, span⟩]) (Session.shows_start file) rfl
  unfold Yields Ends at hyields
  rw [h] at hyields
  obtain ⟨program, hprogram, -⟩ := hyields
  exact ⟨_, (Tree.Program.spells_ofTokens hendless hprogram).1⟩

/-- Tokens that spell a program fail only for its names. -/
theorem ends_of_spells {decls : Tree.Decls} (file : String) (h : decls.Spells tokens) :
    Ends (takeTokens (tokens ++ [⟨.eof, span⟩])) (.start file) (fun error _ => error.ofNames = true)
      fun _ _ => True := by
  have hdecls : (Tree.Program.ofTokens (tokens ++ [⟨.eof, span⟩])).decls = decls :=
    h.read _ (Tree.tokens_ofTokens tokens span)
  have hwhole : (Tree.Program.ofTokens (tokens ++ [⟨.eof, span⟩])).decls.Whole := by
    rw [hdecls]
    exact h.whole
  have hspares := Tree.Program.spares_emit hwhole
  have hsettles := settles_takeTokens (tokens ++ [⟨.eof, span⟩]) (Session.sound_start file)
  unfold Settles Ends at hsettles
  unfold Ends
  cases hrun : takeTokens (tokens ++ [⟨.eof, span⟩]) (.start file) with
  | ok value next => trivial
  | error failure next =>
    rw [hrun] at hsettles
    cases failure with
    | fault fault => exact hsettles
    | error error =>
      cases error with
      | malformed location message => exact (hspares _ _ _ _ hrun).elim
      | _ => exact hsettles.1

end Compiler

/-- Whether a new session takes in the tokens of a source and then passes a test. -/
def takesTo (file source : String) (test : Session → Bool) : Bool :=
  match Token.scan source with
  | .ok lexemes =>
    match takeTokens lexemes (.start file) with
    | .ok _ session => test session
    | .error _ _ => false
  | .error _ => false

theorem takesTo_iff {file source : String} {test : Session → Bool} :
    takesTo file source test = true ↔ ∃ lexemes session, Token.scan source = .ok lexemes ∧
      takeTokens lexemes (.start file) = .ok () session ∧ test session = true := by
  unfold takesTo
  cases Token.scan source with
  | error error => simp
  | ok lexemes => cases hrun : takeTokens lexemes (.start file) <;> simp [hrun]

/-- The tokens of a source, up to the end of input, derive from the grammar if a new session
can take them in. If they derive from the grammar, a new session takes them in or ends in an
error about names. -/
theorem takeTokens_recognises (file source : String) (lexemes : List Lexeme)
    (h : Token.scan source = .ok lexemes) :
    ∃ tokens span, lexemes = tokens ++ [⟨.eof, span⟩] ∧ (∀ lexeme ∈ tokens, lexeme.token ≠ .eof) ∧
      (∀ session, takeTokens lexemes (.start file) = .ok () session →
        (Form.rule .program).Derives tokens []) ∧
      ((Form.rule .program).Derives tokens [] →
        Ends (takeTokens lexemes) (.start file) (fun error _ => error.ofNames = true)
          fun _ _ => True) := by
  obtain ⟨tokens, span, rfl, hendless, hreadable⟩ := Token.scan_readable h
  refine ⟨tokens, span, rfl, hendless, ?_, ?_⟩
  · intro session hrun
    rw [derives_program_iff hreadable]
    exact spells_of_takeTokens hendless hrun
  · intro hderives
    obtain ⟨decls, hdecls⟩ := (derives_program_iff hreadable).1 hderives
    exact ends_of_spells file hdecls

/-- Statements with any number of semicolons behind them, and a type's name in lower case. -/
def looselyWritten : String :=
  "CONST K = -1; VAR X, Y: int8; PROCEDURE P; BEGIN IF X < -(K) THEN X := Y;;; ELSE CALL P END P END"

theorem looselyWritten_derives :
    ∃ tokens span, Token.scan looselyWritten = .ok (tokens ++ [⟨.eof, span⟩]) ∧
      (Form.rule .program).Derives tokens [] := by
  have htakes : takesTo "unit" looselyWritten fun _ => true := by
    decide +kernel
  obtain ⟨lexemes, session, hscan, hrun, -⟩ := takesTo_iff.1 htakes
  obtain ⟨tokens, span, rfl, -, hderives, -⟩ :=
    takeTokens_recognises "unit" looselyWritten lexemes hscan
  exact ⟨tokens, span, hscan, hderives session hrun⟩

end BlockLang
