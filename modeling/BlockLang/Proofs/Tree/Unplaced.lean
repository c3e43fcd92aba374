import BlockLang.Proofs.Tree.Readers

/-! Places say where things stand and nothing else. Once the places of the tokens are
forgotten, the tree that is read is the same, with its places forgotten. -/

namespace BlockLang

def Lexeme.unplaced (lexeme : Lexeme) : Lexeme := { lexeme with span := {} }

namespace Tree

open Ahead

def Mistake.unplaced (mistake : Mistake) : Mistake :=
  ⟨{}, mistake.cause, mistake.reached.map fun _ => {}⟩

def Ident.unplaced (ident : Ident) : Ident := { ident with place := {} }

def Expr.unplaced : Expr → Expr
  | number value => .number value
  | name ident => .name ident.unplaced
  | negate operand => .negate operand.unplaced
  | binary op left right => .binary op left.unplaced right.unplaced
  | missing mistake => .missing mistake.unplaced
  | unclosed inner mistake => .unclosed inner.unplaced mistake.unplaced

def Cond.unplaced : Cond → Cond
  | compare op left right => .compare op left.unplaced right.unplaced
  | half left mistake => .half left.unplaced mistake.unplaced
  | unfollowed op left right mistake =>
    .unfollowed op left.unplaced right.unplaced mistake.unplaced

def ConstValue.unplaced : ConstValue → ConstValue
  | text spelling => .text spelling
  | copy source => .copy source.unplaced

def Declaration.unplaced : Declaration → Declaration
  | const name value => .const name.unplaced value.unplaced
  | vars names type => .vars (names.map Ident.unplaced) type
  | stop mistake => .stop mistake.unplaced
  | unendedCopy source mistake => .unendedCopy source.unplaced mistake.unplaced

def Stmt.unplaced : Stmt → Stmt
  | skip => .skip
  | seq first second => .seq first.unplaced second.unplaced
  | assign target value => .assign target.unplaced value.unplaced
  | call callee => .call callee.unplaced
  | branch condition yes no => .branch condition.unplaced yes.unplaced no.unplaced
  | loop condition body => .loop condition.unplaced body.unplaced
  | ret => .ret
  | block locals body => .block (locals.map Declaration.unplaced) body.unplaced
  | stop mistake => .stop mistake.unplaced

def Heading.unplaced : Heading → Heading
  | named name => .named name.unplaced
  | unnamed mistake => .unnamed mistake.unplaced
  | unended name mistake => .unended name.unplaced mistake.unplaced

def Decls.unplaced : Decls → Decls
  | nil => .nil
  | plain declaration rest => .plain declaration.unplaced rest.unplaced
  | nested heading locals body rest =>
    .nested heading.unplaced locals.unplaced body.unplaced rest.unplaced
  | stop mistake => .stop mistake.unplaced

def Program.unplaced (program : Program) : Program :=
  ⟨program.decls.unplaced, program.reached.map fun _ => {}⟩

def Ahead.unplaced (ahead : Ahead) : Ahead :=
  ⟨ahead.tokens.map Lexeme.unplaced, {}, ahead.reached.map fun _ => {}⟩

variable {ahead left : Ahead}

namespace Ahead

@[simp] theorem peek_unplaced (ahead : Ahead) : ahead.unplaced.peek = ahead.peek := by
  unfold peek unplaced
  cases ahead.tokens <;> rfl

@[simp] theorem place_unplaced (ahead : Ahead) : ahead.unplaced.place = {} := by
  unfold place unplaced
  cases ahead.tokens <;> rfl

@[simp] theorem skip_unplaced (ahead : Ahead) : ahead.unplaced.skip = ahead.skip.unplaced := by
  unfold skip
  rw [place_unplaced]
  simp [unplaced]

@[simp] theorem refuse_unplaced (ahead : Ahead) (cause : Cause) :
    ahead.unplaced.refuse cause = (ahead.refuse cause).unplaced := by
  unfold refuse
  rw [place_unplaced]
  rfl

@[simp] theorem reject_unplaced (ahead : Ahead) (cause : Cause) :
    ahead.unplaced.reject cause = (ahead.reject cause).unplaced := by
  unfold reject
  rw [place_unplaced]
  rfl

theorem expect_unplaced (ahead : Ahead) (token : Token) :
    ahead.unplaced.expect token = (ahead.expect token).mapError Mistake.unplaced := by
  unfold expect
  rw [peek_unplaced, refuse_unplaced]
  split <;> rfl

theorem identifier_unplaced (ahead : Ahead) :
    ahead.unplaced.identifier =
      (ahead.identifier.map Ident.unplaced).mapError Mistake.unplaced := by
  unfold identifier
  rw [peek_unplaced, place_unplaced]
  split
  · rfl
  · rw [refuse_unplaced]
    rfl

theorem typeName_unplaced (ahead : Ahead) :
    ahead.unplaced.typeName = ahead.typeName.mapError Mistake.unplaced := by
  unfold typeName
  rw [identifier_unplaced]
  cases ahead.identifier with
  | error mistake => rfl
  | ok ident =>
    dsimp only [Except.map, Except.mapError, bind, Except.bind, Ident.unplaced]
    cases IntType.ofName? ident.name with
    | some type => rfl
    | none =>
      rw [reject_unplaced]
      rfl

end Ahead

/-- What a reader gives, with its places forgotten. -/
def unplacedWith {α : Type} (unplaced : α → α) (result : α × Ahead) : α × Ahead :=
  (unplaced result.1, result.2.unplaced)

/-- `ahead` and `ahead.unplaced` go the same way at every token. -/
private theorem unplaced_readers :
    ExprReading
      (fun ahead result =>
        given (readFactor ahead.unplaced) = unplacedWith Expr.unplaced result)
      (fun ahead result => given (readTerm ahead.unplaced) = unplacedWith Expr.unplaced result)
      (fun ahead result => given (readExpr ahead.unplaced) = unplacedWith Expr.unplaced result)
      (fun first ahead result => given (readFactors first.unplaced ahead.unplaced) =
        unplacedWith Expr.unplaced result)
      (fun first ahead result => given (readTerms first.unplaced ahead.unplaced) =
        unplacedWith Expr.unplaced result) where
  number ahead text value hpeek hvalue := by
    rw [readFactor_number (by simpa using hpeek) hvalue, skip_unplaced]
    rfl
  badNumber ahead text hpeek hvalue := by
    rw [readFactor_badNumber (by simpa using hpeek) hvalue, reject_unplaced]
    rfl
  name ahead name hpeek := by
    rw [readFactor_name (by simpa using hpeek), place_unplaced, skip_unplaced]
    rfl
  paren ahead left inner hpeek hinner hclose := by
    rw [← skip_unplaced] at hinner
    rw [readFactor_paren (by simpa using hpeek) hinner (by simpa using hclose), skip_unplaced]
    rfl
  unclosed ahead left inner mistake hpeek hinner hclose := by
    rw [← skip_unplaced] at hinner
    have hunclosed : left.unplaced.expect (.sign .rightParen) = .error mistake.unplaced := by
      rw [expect_unplaced, hclose]
      rfl
    rw [readFactor_unclosed (by simpa using hpeek) hinner hunclosed]
    rfl
  negate ahead left operand hpeek hoperand := by
    rw [← skip_unplaced] at hoperand
    rw [readFactor_negate (by simpa using hpeek) hoperand]
    rfl
  missing ahead hnumber hname hparen hminus := by
    rw [readFactor_missing (by simpa using hnumber) (by simpa using hname) (by simpa using hparen)
      (by simpa using hminus), reject_unplaced, peek_unplaced]
    rfl
  firstFactor ahead left first result hfirst hmore := by
    rw [readTerm_eq hfirst]
    exact hmore
  nextFactor first ahead left op second result hop hsecond hmore := by
    rw [← skip_unplaced] at hsecond
    rw [readFactors_more (by simpa using hop) hsecond]
    exact hmore
  noFactor first ahead hop := by
    rw [readFactors_done (by simpa using hop)]
    rfl
  firstTerm ahead left first result hfirst hmore := by
    rw [readExpr_eq hfirst]
    exact hmore
  nextTerm first ahead left op second result hop hsecond hmore := by
    rw [← skip_unplaced] at hsecond
    rw [readTerms_more (by simpa using hop) hsecond]
    exact hmore
  noTerm first ahead hop := by
    rw [readTerms_done (by simpa using hop)]
    rfl

theorem readExpr_unplaced (ahead : Ahead) :
    given (readExpr ahead.unplaced) = unplacedWith Expr.unplaced (given (readExpr ahead)) :=
  unplaced_readers.holds rfl

theorem readCond_unplaced (word : Keyword) (ahead : Ahead) :
    given (readCond word ahead.unplaced) =
      unplacedWith Cond.unplaced (given (readCond word ahead)) := by
  rw [given_readCond, given_readCond, readExpr_unplaced]
  obtain ⟨left, after⟩ := given (readExpr ahead)
  simp only [unplacedWith, peek_unplaced, refuse_unplaced]
  cases Comparison.ofToken? after.peek with
  | none => rfl
  | some op =>
    rw [skip_unplaced, readExpr_unplaced]
    obtain ⟨right, last⟩ := given (readExpr after.skip)
    simp only [unplacedWith, expect_unplaced, skip_unplaced]
    cases last.expect (.keyword word) <;> rfl

def unplacedOr {α : Type} (unplaced : α → α) (result : Except Mistake (α × Ahead)) :
    Except Mistake (α × Ahead) :=
  (result.map (unplacedWith unplaced)).mapError Mistake.unplaced

theorem readConstValue_unplaced (ahead : Ahead) :
    givenOr (readConstValue ahead.unplaced) =
      unplacedOr ConstValue.unplaced (givenOr (readConstValue ahead)) := by
  unfold readConstValue
  simp only [peek_unplaced, skip_unplaced, reject_unplaced, place_unplaced]
  split
  · rfl
  · rfl
  · split
    · rfl
    · rfl
  · rfl
  · rfl

theorem readConst_unplaced (ahead : Ahead) :
    givenOr (readConst ahead.unplaced) =
      unplacedOr Declaration.unplaced (givenOr (readConst ahead)) := by
  rw [givenOr_readConst, givenOr_readConst, identifier_unplaced, skip_unplaced, expect_unplaced,
    skip_unplaced, readConstValue_unplaced]
  rcases ahead.identifier with mistake | name
  · rfl
  rcases ahead.skip.expect (.sign .equal) with mistake | _
  · rfl
  rcases givenOr (readConstValue ahead.skip.skip) with mistake | ⟨value, left⟩
  · rfl
  dsimp only [Except.map, Except.mapError, unplacedOr, unplacedWith, bind, Except.bind]
  rw [expect_unplaced]
  rcases left.expect (.sign .semicolon) with mistake | _
  · cases value <;> rfl
  · rw [skip_unplaced]
    rfl

theorem readNames_unplaced (ahead : Ahead) :
    givenOr (readNames ahead.unplaced) =
      unplacedOr (List.map Ident.unplaced) (givenOr (readNames ahead)) := by
  fun_induction readNames ahead with
  | case1 ahead mistake hname =>
    rw [givenOr_readNames, identifier_unplaced, hname]
    rfl
  | case2 ahead name hname _ hcomma _ names last hlast hread ih =>
    rw [hread] at ih
    rw [givenOr_readNames, identifier_unplaced, hname, skip_unplaced, peek_unplaced, skip_unplaced,
      ih]
    exact if_pos hcomma
  | case3 ahead name hname _ hcomma _ mistake hread ih =>
    rw [hread] at ih
    rw [givenOr_readNames, identifier_unplaced, hname, skip_unplaced, peek_unplaced, skip_unplaced,
      ih]
    exact if_pos hcomma
  | case4 ahead name hname _ hcomma =>
    rw [givenOr_readNames, identifier_unplaced, hname, skip_unplaced, peek_unplaced]
    exact if_neg hcomma

theorem readVars_unplaced (ahead : Ahead) :
    givenOr (readVars ahead.unplaced) =
      unplacedOr Declaration.unplaced (givenOr (readVars ahead)) := by
  rw [givenOr_readVars, givenOr_readVars, readNames_unplaced, place_unplaced]
  rcases givenOr (readNames ahead) with mistake | ⟨names, left⟩
  · rfl
  have hlast : (((names.map Ident.unplaced).getLast?.map Ident.place).getD {} : Place) = {} := by
    rw [List.getLast?_map, Option.map_map]
    cases names.getLast? <;> rfl
  dsimp only [Except.map, Except.mapError, unplacedOr, unplacedWith, bind, Except.bind]
  rw [hlast, expect_unplaced]
  rcases left.expect (.sign .colon) with mistake | _
  · rfl
  rw [skip_unplaced, typeName_unplaced]
  rcases left.skip.typeName with mistake | type
  · rfl
  rw [skip_unplaced, expect_unplaced]
  rcases left.skip.skip.expect (.sign .semicolon) with mistake | _
  · rfl
  · rw [skip_unplaced]
    rfl

theorem readDeclaration?_unplaced (ahead : Ahead) :
    (readDeclaration? ahead.unplaced).map given =
      ((readDeclaration? ahead).map given).map (unplacedWith Declaration.unplaced) := by
  rw [given_readDeclaration?, given_readDeclaration?]
  rw [peek_unplaced, skip_unplaced, readConst_unplaced, readVars_unplaced]
  split
  · rcases givenOr (readConst ahead.skip) with mistake | result <;> rfl
  · split
    · rcases givenOr (readVars ahead.skip) with mistake | result <;> rfl
    · rfl

theorem readDeclaration?_unplaced_none (h : readDeclaration? ahead = none) :
    readDeclaration? ahead.unplaced = none := by
  have hnone := readDeclaration?_unplaced ahead
  rw [h] at hnone
  exact Option.map_eq_none_iff.1 hnone

theorem readDeclaration?_unplaced_some {declaration : Declaration} {less : ahead.Less}
    (h : readDeclaration? ahead = some (declaration, less)) :
    ∃ hless, readDeclaration? ahead.unplaced =
      some (declaration.unplaced, ⟨less.val.unplaced, hless⟩) := by
  have hsome := readDeclaration?_unplaced ahead
  rw [h] at hsome
  obtain ⟨⟨declaration', less', hless'⟩, hread, hgiven⟩ := Option.map_eq_some_iff.1 hsome
  cases hgiven
  exact ⟨hless', hread⟩

theorem readDeclarations_unplaced (ahead : Ahead) :
    given (readDeclarations ahead.unplaced) =
      unplacedWith (List.map Declaration.unplaced) (given (readDeclarations ahead)) := by
  fun_induction readDeclarations ahead with
  | case1 ahead hread =>
    rw [readDeclarations, readDeclaration?_unplaced_none hread]
    rfl
  | case2 ahead declaration next hnext hread rest last hlast hrest ih =>
    obtain ⟨hless, hread'⟩ := readDeclaration?_unplaced_some hread
    rw [given_eq hrest] at ih
    rw [readDeclarations, hread']
    exact congrArg (fun result : List Declaration × Ahead =>
      (declaration.unplaced :: result.1, result.2)) ih

theorem closeBody_unplaced (body : Stmt) (ahead : Ahead) :
    given (closeBody body.unplaced ahead.unplaced) =
      unplacedWith Stmt.unplaced (given (closeBody body ahead)) := by
  unfold closeBody
  rw [expect_unplaced]
  rcases ahead.expect (.keyword .end_) with mistake | _
  · rfl
  · exact Prod.ext rfl (skip_unplaced ahead)

theorem skipSemicolons_unplaced (ahead : Ahead) :
    (skipSemicolons ahead.unplaced).val = (skipSemicolons ahead).val.unplaced := by
  fun_induction skipSemicolons ahead with
  | case1 ahead hpeek _ left hleft hskip ih =>
    rw [hskip, ← skip_unplaced] at ih
    rw [skipSemicolons, dif_pos (by simpa using hpeek)]
    exact ih
  | case2 ahead hpeek =>
    rw [skipSemicolons, dif_neg (by simpa using hpeek)]

private theorem unplaced_statements :
    StmtReading
      (fun ahead result => ∀ more, given (readStmt ahead.unplaced more) =
        unplacedWith Stmt.unplaced result)
      (fun ahead result => given (readStmts ahead.unplaced) = unplacedWith Stmt.unplaced result) where
  assign ahead left name value hpeek hassign hvalue more := by
    have hgiven := readExpr_unplaced ahead.skip.skip
    rw [hvalue, ← skip_unplaced, ← skip_unplaced] at hgiven
    rw [readStmt_assign _ (by simpa using hpeek) (by simpa using hassign) hgiven, place_unplaced]
    rfl
  call ahead name hpeek hassign more := by
    rw [readStmt_call _ (by simpa using hpeek) (by simpa using hassign), place_unplaced, skip_unplaced]
    rfl
  callWord ahead callee hpeek hcallee more := by
    have hunplaced : ahead.unplaced.skip.identifier = .ok callee.unplaced := by
      rw [skip_unplaced, identifier_unplaced, hcallee]
      rfl
    rw [readStmt_callWord _ (by simpa using hpeek) hunplaced, skip_unplaced, skip_unplaced]
    rfl
  callNone ahead mistake hpeek hcallee more := by
    have hunplaced : ahead.unplaced.skip.identifier = .error mistake.unplaced := by
      rw [skip_unplaced, identifier_unplaced, hcallee]
      rfl
    rw [readStmt_callNone _ (by simpa using hpeek) hunplaced]
    rfl
  branchElse ahead afterCond afterYes afterNo left condition yes no closed hpeek hcondition hyes
      helse hno hclose more := by
    have hcond := readCond_unplaced .then_ ahead.skip
    have hclosed := closeBody_unplaced no afterNo
    rw [hcondition, ← skip_unplaced] at hcond
    rw [← skip_unplaced] at hno
    rw [hclose] at hclosed
    rw [readStmt_branchElse _ (by simpa using hpeek) hcond hyes (by simpa using helse) hno hclosed]
    rfl
  branch ahead afterCond afterYes left condition yes no hpeek hcondition hyes helse hclose more := by
    have hcond := readCond_unplaced .then_ ahead.skip
    have hclosed := closeBody_unplaced .skip afterYes
    rw [hcondition, ← skip_unplaced] at hcond
    rw [hclose] at hclosed
    rw [readStmt_branch _ (by simpa using hpeek) hcond hyes (by simpa using helse) hclosed]
    rfl
  loop ahead afterCond afterBody left condition inner closed hpeek hcondition hinner hclose more := by
    have hcond := readCond_unplaced .do_ ahead.skip
    have hclosed := closeBody_unplaced inner afterBody
    rw [hcondition, ← skip_unplaced] at hcond
    rw [hclose] at hclosed
    rw [readStmt_loop _ (by simpa using hpeek) hcond hinner hclosed]
    rfl
  ret ahead hpeek more := by
    rw [readStmt_ret _ (by simpa using hpeek), skip_unplaced]
    rfl
  block ahead afterLocals afterBody left locals inner closed hpeek hlocals hinner hclose more := by
    have hdeclared := readDeclarations_unplaced ahead.skip
    have hclosed := closeBody_unplaced inner afterBody
    rw [hlocals, ← skip_unplaced] at hdeclared
    rw [hclose] at hclosed
    rw [readStmt_block _ (by simpa using hpeek) hdeclared hinner hclosed]
    rfl
  missing ahead hidentifier hcall hif hwhile hreturn hbegin more := by
    rw [readStmt_missing _ (by simpa using hidentifier) (by simpa using hcall) (by simpa using hif)
      (by simpa using hwhile) (by simpa using hreturn) (by simpa using hbegin), refuse_unplaced,
      peek_unplaced]
    rfl
  done ahead hends := by
    rw [readStmts_done (by simpa using hends)]
    rfl
  more ahead afterFirst last first second hends hfirst hsecond := by
    rw [← skipSemicolons_unplaced] at hsecond
    rw [readStmts_more (by simpa using hends) (hfirst (ne_eof_of_endsBody (by simpa using hends)))
      hsecond]
    rfl

theorem readStmts_unplaced (ahead : Ahead) :
    given (readStmts ahead.unplaced) = unplacedWith Stmt.unplaced (given (readStmts ahead)) :=
  unplaced_statements.holds rfl

theorem pass_unplaced (mark : Sign) (ahead : Ahead) :
    pass mark ahead.unplaced = (pass mark ahead).unplaced := by
  unfold pass
  rw [peek_unplaced, skip_unplaced]
  split <;> rfl

def unplacedProcedure (result : Heading × Decls × Stmt × Ahead) :
    Heading × Decls × Stmt × Ahead :=
  (result.1.unplaced, result.2.1.unplaced, result.2.2.1.unplaced, result.2.2.2.unplaced)

private theorem unplaced_declarations :
    DeclsReading
      (fun ahead result =>
        givenProcedure (readProcedure ahead.unplaced) = unplacedProcedure result)
      (fun ahead result => given (readDecls ahead.unplaced) = unplacedWith Decls.unplaced result) where
  unnamed ahead mistake hname := by
    rw [givenProcedure_readProcedure, identifier_unplaced, hname]
    rfl
  unended ahead name mistake hname hsemicolon := by
    rw [givenProcedure_readProcedure, identifier_unplaced, hname, skip_unplaced, expect_unplaced,
      hsemicolon]
    rfl
  unbegun ahead afterLocals name locals mistake hname hsemicolon hlocals hbegin := by
    rw [givenProcedure_readProcedure, identifier_unplaced, hname, skip_unplaced, expect_unplaced,
      expect_of_peek hsemicolon, skip_unplaced, hlocals]
    dsimp only [Except.map, Except.mapError, unplacedWith]
    rw [expect_unplaced, hbegin]
    rfl
  ended ahead afterLocals afterBody last name locals body closed hname hsemicolon hlocals hbegin
      hbody hclose := by
    have hnamed : ahead.unplaced.identifier = .ok name.unplaced := by
      rw [identifier_unplaced, hname]
      rfl
    have hstmts := readStmts_unplaced afterLocals.skip
    have hclosed := closeBody_unplaced body afterBody
    rw [← skip_unplaced, ← skip_unplaced] at hlocals
    rw [hbody, ← skip_unplaced] at hstmts
    rw [hclose] at hclosed
    rw [readProcedure_eq hnamed (by simpa using hsemicolon) hlocals (by simpa using hbegin) hstmts
      hclosed, pass_unplaced]
    rfl
  plain ahead last left declaration rest hread hrest := by
    obtain ⟨hless, hread'⟩ := readDeclaration?_unplaced_some hread
    rw [readDecls_plain hread' hrest]
    rfl
  nested ahead left last heading locals rest body hread hpeek hprocedure hrest := by
    rw [← skip_unplaced] at hprocedure
    rw [readDecls_nested (readDeclaration?_unplaced_none hread) (by simpa using hpeek) hprocedure
      hrest]
    rfl
  done ahead hread hpeek := by
    rw [readDecls_done (readDeclaration?_unplaced_none hread) (by simpa using hpeek)]
    rfl

theorem ending_unplaced (last : Ahead) : ending last.unplaced = (ending last).unplaced := by
  unfold ending
  rw [peek_unplaced, refuse_unplaced]
  split <;> rfl

theorem readProgram_unplaced (ahead : Ahead) :
    readProgram ahead.unplaced = (readProgram ahead).unplaced := by
  fun_induction readProgram ahead with
  | case1 ahead declaration left hleft hread rest ih =>
    obtain ⟨hless, hread'⟩ := readDeclaration?_unplaced_some hread
    rw [readProgram, hread']
    dsimp only
    rw [ih]
    rfl
  | case2 ahead hread hpeek heading locals body left hleft hprocedure last rest =>
    have hread' := unplaced_declarations.holds (givenProcedure_eq hprocedure)
    rw [← skip_unplaced] at hread'
    rw [readProgram_nested (readDeclaration?_unplaced_none hread) (by simpa using hpeek) hread',
      pass_unplaced, ending_unplaced]
    rfl
  | case3 ahead hread hpeek =>
    rw [readProgram, readDeclaration?_unplaced_none hread]
    dsimp only
    rw [if_neg (by simpa using hpeek), refuse_unplaced]
    rfl

/-- The places of the tokens reach the places of the tree and nothing else. -/
theorem Program.ofTokens_unplaced (tokens : List Lexeme) :
    Program.ofTokens (tokens.map Lexeme.unplaced) = (Program.ofTokens tokens).unplaced := by
  have hahead : Ahead.ofTokens (tokens.map Lexeme.unplaced) = (Ahead.ofTokens tokens).unplaced := by
    have htoken : (tokens.getLast?.map Lexeme.unplaced).map Lexeme.token =
        tokens.getLast?.map Lexeme.token := by
      rw [Option.map_map]
      rfl
    have hstop : ((tokens.getLast?.map Lexeme.unplaced).map fun lexeme =>
        lexeme.span.toPlace).getD {} = ({} : Place) := by
      cases tokens.getLast? <;> rfl
    unfold Ahead.ofTokens Ahead.unplaced
    rw [List.getLast?_map, htoken, hstop]
    dsimp only
    split
    · rw [List.map_dropLast]
      rfl
    · rfl
  unfold Program.ofTokens
  rw [hahead, readProgram_unplaced]

end Tree

end BlockLang
