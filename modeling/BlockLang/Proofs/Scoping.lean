import BlockLang.Proofs.Lexical.Nesting
import BlockLang.Proofs.Lexical.Tracking
import BlockLang.Proofs.Recognition

/-! A program of the language is taken in exactly if it is well scoped, and then its code
accesses what the declarations have made that its names stand for. -/

namespace BlockLang

open Code Compiler Grammar Lexical

/-- There is a global for each variable and a function for each procedure, in the order of the
source. A function is the code of a statement whose accesses are, one after the other, those
that the uses in the procedure make. Its blocks hold these accesses and no others, though not
in the order of the source. -/
structure Code.Module.Refers (code : Module) (marks : List Mark) : Prop where
  globals : code.globals.map Global.type = (typesBefore marks marks.length).map IntType.backend
  functions : code.functions.length = proceduresBefore marks marks.length
  accesses : ∀ id function, code.functions[id]? = some function →
    ∃ (body : Core.Stmt) (parts : List (List Access)), function.sketch = body.sketch ∧
      List.Forall₂ (Touches marks) (usesBefore marks marks.length id) parts ∧
      body.accesses = parts.flatten ∧ function.accesses.Perm parts.flatten

namespace Tree.Decls

variable {decls : Decls}

theorem run_of_resolve (h : decls.Whole) (hdeclarable : decls.Declarable) {found : Core.Env × _ × _}
    (hfound : decls.resolve [[]] [] 0 = some found) :
    State.run {} decls.marks =
      some { env := found.1, cells := found.2.1, code := found.2.2.map Core.Stmt.accesses } := by
  have hrun := run_marks h hdeclarable {}
  change State.run {} decls.marks = Option.map _ (decls.resolve [[]] [] 0) at hrun
  rw [hrun, hfound]
  rfl

theorem wellScoped_iff (h : decls.Whole) (hdeclarable : decls.Declarable) :
    WellScoped decls.marks ↔ ∃ found, decls.resolve [[]] [] 0 = some found := by
  constructor
  · intro hscoped
    obtain ⟨state, hstate⟩ := hscoped.run decls.nested_marks.regionsAt_ne_nil (Nat.le_refl _)
    rw [List.take_length, run_marks h hdeclarable] at hstate
    obtain ⟨found, hfound, -⟩ := Option.map_eq_some_iff.1 hstate
    exact ⟨found, hfound⟩
  · rintro ⟨found, hfound⟩
    exact wellScoped_of_run (run_of_resolve h hdeclarable hfound)

theorem refers_of_resolve (h : decls.Whole) (hdeclarable : decls.Declarable)
    {env : Core.Env} {program : Core.Program} {code : Module}
    (hfound : decls.resolve [[]] [] 0 = some (env, program.cells, program.procedures))
    (hcode : code.Implements program) : code.Refers decls.marks := by
  have hrun := run_of_resolve h hdeclarable hfound
  rw [← List.take_length (l := decls.marks)] at hrun
  have htracks := tracks_of_run (Nat.le_refl _) hrun
  refine ⟨?_, ?_, ?_⟩
  · rw [← htracks.cells]
    exact hcode.globals
  · rw [← htracks.ledger.length_eq, List.length_map]
    exact hcode.length
  · intro id function hfunction
    obtain ⟨body, hbody, hsketch⟩ := hcode.function hfunction
    obtain ⟨parts, hparts, hflatten⟩ := htracks.ledger.accounts id body.accesses
      (by rw [List.getElem?_map, hbody]; rfl)
    have hperm := Function.perm_accesses hsketch
    rw [hflatten] at hperm
    exact ⟨body, parts, hsketch, hparts, hflatten, hperm⟩

end Tree.Decls

namespace Compiler

variable {file : String} {lexemes : List Lexeme} {session : Session}

theorem resolve_of_takeTokens (h : takeTokens lexemes (.start file) = .ok () session) :
    ∃ env program, (Tree.Program.ofTokens lexemes).decls.resolve [[]] [] 0 =
        some (env, program.cells, program.procedures) ∧
      session.builder.code.Implements program := by
  have hyields := yields_takeTokens lexemes (Session.shows_start file) rfl
  unfold Yields Ends at hyields
  rw [h] at hyields
  obtain ⟨program, hprogram, -, hholds⟩ := hyields
  obtain ⟨⟨env, cells, procedures⟩, hfound, hdone⟩ := Option.bind_eq_some_iff.1 hprogram
  cases hdone
  exact ⟨env, _, hfound, hholds.code⟩

theorem takeTokens_of_resolve (file : String) {found : Core.Env × _ × _}
    (h : (Tree.Program.ofTokens lexemes).decls.resolve [[]] [] 0 = some found) :
    ∃ session, takeTokens lexemes (.start file) = .ok () session := by
  have hyields := yields_takeTokens lexemes (Session.shows_start file) rfl
  unfold Yields Ends Tree.Program.resolve at hyields
  rw [h] at hyields
  cases hrun : takeTokens lexemes (.start file) with
  | ok value session => exact ⟨session, rfl⟩
  | error failure next =>
    rw [hrun] at hyields
    cases failure with
    | fault fault => exact hyields.elim
    | error error => cases hyields

end Compiler

/-- If the tokens of a source derive from the grammar, they spell one tree. A new session takes
the tokens in exactly if the tree is well scoped, and then the code accesses what the names in
the tree stand for. -/
theorem takeTokens_scopes (file source : String) (tokens : List Lexeme) (span : Span)
    (hscan : Token.scan source = .ok (tokens ++ [⟨.eof, span⟩]))
    (hderives : (Form.rule .program).Derives tokens []) :
    ∃ decls : Tree.Decls, decls.Spells tokens ∧
      (∀ other : Tree.Decls, other.Spells tokens → other = decls) ∧
      ((∃ session, takeTokens (tokens ++ [⟨.eof, span⟩]) (.start file) = .ok () session) ↔
        WellScoped decls.marks) ∧
      ∀ session, takeTokens (tokens ++ [⟨.eof, span⟩]) (.start file) = .ok () session →
        session.builder.code.Refers decls.marks := by
  obtain ⟨others, other, hothers, -, hreadable⟩ := Token.scan_readable hscan
  obtain ⟨rfl, -⟩ := List.append_inj' hothers rfl
  obtain ⟨decls, hspells⟩ := (derives_program_iff hreadable).1 hderives
  have hread : ∀ other : Tree.Decls, other.Spells tokens →
      (Tree.Program.ofTokens (tokens ++ [⟨.eof, span⟩])).decls = other :=
    fun other hother => hother.read _ (Tree.tokens_ofTokens tokens span)
  have hwhole := hspells.whole
  have hdeclarable := Tree.Program.declarable_ofTokens (tokens ++ [⟨.eof, span⟩])
  rw [hread decls hspells] at hdeclarable
  refine ⟨decls, hspells, ?_, ?_, ?_⟩
  · intro other hother
    rw [← hread other hother, hread decls hspells]
  · rw [Tree.Decls.wellScoped_iff hwhole hdeclarable, ← hread decls hspells]
    constructor
    · rintro ⟨session, hrun⟩
      obtain ⟨env, program, hfound, -⟩ := resolve_of_takeTokens hrun
      exact ⟨_, hfound⟩
    · rintro ⟨found, hfound⟩
      exact takeTokens_of_resolve file hfound
  · intro session hrun
    obtain ⟨env, program, hfound, hcode⟩ := resolve_of_takeTokens hrun
    rw [hread decls hspells] at hfound
    exact Tree.Decls.refers_of_resolve hwhole hdeclarable hfound hcode

/-- A name that three scopes declare, one of them a block, and procedures that call each other
and themselves. -/
def shadowed : String :=
  "VAR X: INT8; PROCEDURE P; VAR X: INT16; PROCEDURE Q; CONST N = 3; BEGIN X := N; P; Q END; " ++
  "BEGIN BEGIN VAR X: UINT8; X := X END; Q; X := X END."

theorem shadowed_refers :
    ∃ tokens span session, ∃ decls : Tree.Decls,
      Token.scan shadowed = .ok (tokens ++ [⟨.eof, span⟩]) ∧ decls.Spells tokens ∧
      takeTokens (tokens ++ [⟨.eof, span⟩]) (.start "unit") = .ok () session ∧
      WellScoped decls.marks ∧ session.builder.code.Refers decls.marks ∧
      session.builder.code.functions.map Function.accesses =
        [[.load 2, .store 2, .call 1, .load 1, .store 1], [.store 1, .call 0, .call 1]] := by
  have htakes : takesTo "unit" shadowed fun session =>
      session.builder.code.functions.map Function.accesses ==
        [[.load 2, .store 2, .call 1, .load 1, .store 1], [.store 1, .call 0, .call 1]] := by
    decide +kernel
  obtain ⟨lexemes, session, hscan, hrun, haccesses⟩ := takesTo_iff.1 htakes
  obtain ⟨tokens, span, rfl, hendless, hreadable⟩ := Token.scan_readable hscan
  have hderives := (derives_program_iff hreadable).2 (spells_of_takeTokens hendless hrun)
  obtain ⟨decls, hspells, -, hiff, hrefers⟩ :=
    takeTokens_scopes "unit" shadowed tokens span hscan hderives
  exact ⟨tokens, span, session, decls, hscan, hspells, hrun, hiff.1 ⟨session, hrun⟩,
    hrefers session hrun, eq_of_beq haccesses⟩

end BlockLang
