import BlockLang.Proofs.Core.Branching
import BlockLang.Proofs.Tree.Whole
import BlockLang.Proofs.Unit

/-! The branches of a unit's functions. Each block is where some branch leads, but for the
first one and those that stand behind a return, and without a return none is out of reach. -/

namespace BlockLang

open Code

namespace Tree

/-- How many times the statement has a return in it. -/
def Stmt.returns : Stmt → Nat
  | skip | assign .. | call _ | stop _ => 0
  | seq first second => first.returns + second.returns
  | branch _ yes no => yes.returns + no.returns
  | loop _ body => body.returns
  | ret => 1
  | block _ body => body.returns

/-- The bodies of all procedures, in the order of their headings. -/
def Decls.bodies : Decls → List Stmt
  | nil | stop _ => []
  | plain _ rest => rest.bodies
  | nested _ locals body rest => body :: locals.bodies ++ rest.bodies

open BlockLang.Core (Env)

theorem Stmt.returns_resolve (stmt : Stmt) {env : Env} {cells more : List IntType}
    {code : Core.Stmt} (h : stmt.resolve env cells = some (code, more)) :
    code.returns = stmt.returns := by
  induction stmt generalizing env cells more code with
  | skip | ret =>
    cases h
    rfl
  | seq first second ihfirst ihsecond =>
    obtain ⟨⟨before, middle⟩, hfirst, hrest⟩ := Option.bind_eq_some_iff.1 h
    obtain ⟨⟨after, all⟩, hsecond, hcode⟩ := Option.bind_eq_some_iff.1 hrest
    cases hcode
    exact congrArg₂ (· + ·) (ihfirst hfirst) (ihsecond hsecond)
  | assign target value =>
    obtain ⟨_, -, hrest⟩ := Option.bind_eq_some_iff.1 h
    obtain ⟨_, -, hcode⟩ := Option.bind_eq_some_iff.1 hrest
    cases hcode
    rfl
  | call callee =>
    obtain ⟨_, -, hcode⟩ := Option.bind_eq_some_iff.1 h
    cases hcode
    rfl
  | branch condition yes no ihyes ihno =>
    obtain ⟨_, -, hrest⟩ := Option.bind_eq_some_iff.1 h
    obtain ⟨⟨first, middle⟩, hyes, hrest⟩ := Option.bind_eq_some_iff.1 hrest
    obtain ⟨⟨second, all⟩, hno, hcode⟩ := Option.bind_eq_some_iff.1 hrest
    cases hcode
    exact congrArg₂ (· + ·) (ihyes hyes) (ihno hno)
  | loop condition body ih =>
    obtain ⟨_, -, hrest⟩ := Option.bind_eq_some_iff.1 h
    obtain ⟨⟨inside, all⟩, hbody, hcode⟩ := Option.bind_eq_some_iff.1 hrest
    cases hcode
    have hinside := ih hbody
    exact hinside
  | block locals body ih =>
    obtain ⟨⟨declared, middle⟩, -, hbody⟩ := Option.bind_eq_some_iff.1 h
    exact ih hbody
  | stop mistake => cases h

/-- Procedures return where their bodies do. -/
theorem Decls.returns_resolve (decls : Decls) {env last : Env} {cells all : List IntType}
    {next : Nat} {procedures : List Core.Stmt}
    (h : decls.resolve env cells next = some (last, all, procedures)) :
    procedures.map Core.Stmt.returns = decls.bodies.map Stmt.returns := by
  induction decls generalizing env last cells all next procedures with
  | nil =>
    cases h
    rfl
  | plain declaration rest ih =>
    obtain ⟨⟨declared, more⟩, -, hrest⟩ := Option.bind_eq_some_iff.1 h
    exact ih hrest
  | nested heading locals body rest ihlocals ihrest =>
    obtain ⟨name, -, h⟩ := Option.bind_eq_some_iff.1 h
    obtain ⟨declared, -, h⟩ := Option.bind_eq_some_iff.1 h
    obtain ⟨⟨inner, more, inside⟩, hlocals, h⟩ := Option.bind_eq_some_iff.1 h
    obtain ⟨⟨code, most⟩, hbody, h⟩ := Option.bind_eq_some_iff.1 h
    obtain ⟨⟨final, rest, others⟩, hrest, hresult⟩ := Option.bind_eq_some_iff.1 h
    cases hresult
    simp [bodies, body.returns_resolve hbody, ihlocals hlocals, ihrest hrest]
  | stop mistake => cases h

end Tree

/-- Branches lead to the blocks of a function as they should where its body has so many
returns. -/
structure Code.Function.Joins (function : Function) (returns : Nat) : Prop where
  /-- There is a block behind each return. -/
  behind : (function.labels.map behindReturn).count true = returns
  led : ∀ target, (∃ source, Leads function.blocks source target) ↔
    target ≠ 0 ∧ ∃ label, function.labels[target]? = some label ∧ behindReturn label = false
  reached : returns = 0 → ∀ target < function.blocks.length,
    Relation.ReflTransGen (Leads function.blocks) 0 target

/-- A function that is the code of a statement is joined as the statement is. -/
theorem Code.Function.joins {function : Function} {body : Core.Stmt}
    (h : function.sketch = body.sketch) : function.Joins body.returns := by
  have hblocks : function.blocks = body.draft.blocks := congrArg Prod.fst h
  have hbehind : function.labels.map behindReturn = body.draft.behind := by
    rw [Function.labels, hblocks]
    rfl
  refine ⟨?_, fun target => ?_, fun hreturns target htarget => ?_⟩
  · rw [hbehind, body.behind_draft, ← body.count_made]
    rfl
  · have hled := body.led_draft target
    rw [← hbehind, List.getElem?_map, Option.map_eq_some_iff, Draft.Led, ← hblocks] at hled
    exact hled
  · rw [hblocks] at htarget ⊢
    exact body.reaches_draft hreturns htarget

/-- The one tree that the source of a unit spells stands for a program, whose code is there. -/
theorem readUnit_spelled {file source : String} {session : Session}
    (h : readUnit file source = .ok () session) :
    ∃ tokens span tree program, Token.scan source = .ok (tokens ++ [⟨.eof, span⟩]) ∧
      tree.decls.Spells tokens ∧ (∀ decls : Tree.Decls, decls.Spells tokens → decls = tree.decls) ∧
      Tree.Program.resolve tree = some program ∧ session.builder.code.Implements program := by
  obtain ⟨program, hprogram, -, -, hcode, -⟩ := readUnit_ok h
  obtain ⟨tokens, -, hscan, -⟩ := of_readUnit_eq_ok h
  have hresolve : (Tree.Program.ofTokens tokens).resolve = some program := by
    rw [← hprogram, Core.Program.ofSource?, hscan]
    rfl
  obtain ⟨body, span, rfl, hendless⟩ := Token.scanFrom_ends _ _ _ hscan
  obtain ⟨hspells, hunique⟩ := Tree.Program.spells_ofTokens hendless hresolve
  exact ⟨body, span, _, program, hscan, hspells, hunique, hresolve, hcode⟩

/-- Where the branches of a unit lead. The tokens of its source spell one tree, and each function
is that of a procedure of the tree, in the order of the headings. Neither the first block of a
function nor one behind a return is where a branch leads, and all others are; and where the
procedure's own body has no return in it, every block can be come to from the first one. -/
theorem readUnit_joins {file source : String} {session : Session}
    (h : readUnit file source = .ok () session) :
    ∃ tokens span decls, Token.scan source = .ok (tokens ++ [⟨.eof, span⟩]) ∧
      Tree.Decls.Spells decls tokens ∧ (∀ other : Tree.Decls, other.Spells tokens → other = decls) ∧
      session.builder.code.functions.length = decls.bodies.length ∧
      ∀ (id : FunctionId) function body, session.builder.code.functions[id]? = some function →
        decls.bodies[id]? = some body → function.Joins body.returns := by
  obtain ⟨tokens, span, tree, program, hscan, hspells, hunique, hresolve, hcode⟩ :=
    readUnit_spelled h
  obtain ⟨⟨last, cells, procedures⟩, hdecls, hprogram⟩ := Option.bind_eq_some_iff.1 hresolve
  cases hprogram
  have hreturns := tree.decls.returns_resolve hdecls
  refine ⟨tokens, span, tree.decls, hscan, hspells, hunique, ?_, ?_⟩
  · rw [hcode.length]
    simpa using congrArg List.length hreturns
  · intro id function body hfunction hbody
    obtain ⟨resolved, hresolved, hsketch⟩ := hcode.function hfunction
    have hsame := congrArg (fun counts : List Nat => counts[id]?) hreturns
    simp only [List.getElem?_map, hbody, Option.map_some] at hsame
    rw [show procedures[id]? = some resolved from hresolved] at hsame
    rw [← Option.some.inj hsame]
    exact Code.Function.joins hsketch

/-- A loop with a branch in it, and a procedure that returns from within a branch. -/
def earlyOut : String :=
  "PROCEDURE P; VAR N: INT8; PROCEDURE Q; BEGIN IF N = 1 THEN RETURN END END; " ++
  "BEGIN WHILE N < 9 DO IF N = 3 THEN Q ELSE N := 4 END; N := N + 1 END END."

theorem earlyOut_joins : ∃ session first second, readUnit "unit" earlyOut = .ok () session ∧
    session.builder.code.functions = [first, second] ∧ first.Joins 0 ∧ second.Joins 1 := by
  have hreads : readsTo "unit" earlyOut fun session =>
      session.builder.code.functions.map (fun function => function.labels.map behindReturn) ==
        [[false, false, false, false, false, false, false], [false, false, false, false, true]] := by
    decide +kernel
  obtain ⟨session, h, hbehind⟩ := readsTo_iff.1 hreads
  obtain ⟨tokens, span, decls, -, -, -, hlength, hjoins⟩ := readUnit_joins h
  obtain ⟨first, others, hfunctions, hfirst, hothers⟩ := List.map_eq_cons_iff.1 (eq_of_beq hbehind)
  obtain ⟨second, rest, rfl, hsecond, hrest⟩ := List.map_eq_cons_iff.1 hothers
  obtain rfl := List.map_eq_nil_iff.1 hrest
  rw [hfunctions] at hlength hjoins
  obtain ⟨one, other, hbodies⟩ := List.length_eq_two.1 hlength.symm
  rw [hbodies] at hjoins
  have hone := hjoins 0 first one rfl rfl
  have hother := hjoins 1 second other rfl rfl
  have hnone : one.returns = 0 := by
    rw [← hone.behind, hfirst]
    rfl
  have honce : other.returns = 1 := by
    rw [← hother.behind, hsecond]
    rfl
  rw [hnone] at hone
  rw [honce] at hother
  exact ⟨session, first, second, h, hfunctions, hone, hother⟩

end BlockLang
