import BlockLang.Proofs.Fallible
import BlockLang.Proofs.Tree.Readers

/-! A tree that was read without a mistake is the tree of the tokens that were read. -/

namespace BlockLang.Tree

open Ahead

variable {ahead : Ahead}

/-- An expression read without a mistake is the expression of the tokens read. -/
def Expr.Follows (rank : Rank) (ahead : Ahead) (result : Expr × Ahead) : Prop :=
  result.1.Whole → result.1.Derives rank ahead.tokens result.2.tokens

/-- An expression that was begun is read on. -/
def Expr.Extends (rank : Rank) (first : Expr) (ahead : Ahead) (result : Expr × Ahead) : Prop :=
  result.1.Whole → first.Whole ∧ ∀ before, first.Derives rank before ahead.tokens →
    result.1.Derives rank before result.2.tokens

private theorem follows_readers :
    ExprReading (Expr.Follows .factor) (Expr.Follows .term) (Expr.Follows .sum)
      (Expr.Extends .term) (Expr.Extends .sum) where
  number ahead text value hpeek hvalue _ := by
    obtain ⟨span, htokens, -⟩ := tokens_of_peek hpeek (by simp)
    rw [htokens]
    exact .number hvalue
  badNumber _ _ _ _ hwhole := hwhole.elim
  name ahead name hpeek _ := by
    obtain ⟨span, htokens, hplace⟩ := tokens_of_peek hpeek (by simp)
    rw [htokens, hplace]
    exact .name
  paren ahead left inner hpeek hinner hclose hwhole := by
    obtain ⟨first, htokens, -⟩ := tokens_of_peek hpeek (by simp)
    obtain ⟨last, htokens', -⟩ := tokens_of_peek hclose (by simp)
    have hderives := hinner hwhole
    rw [htokens'] at hderives
    rw [htokens]
    exact .paren hderives
  unclosed _ _ _ _ _ _ _ hwhole := hwhole.elim
  negate ahead left operand hpeek hoperand hwhole := by
    obtain ⟨span, htokens, -⟩ := tokens_of_peek hpeek (by simp)
    rw [htokens]
    exact .negate (hoperand hwhole)
  missing _ _ _ _ _ hwhole := hwhole.elim
  firstFactor _ _ _ _ hfirst hmore hwhole := by
    obtain ⟨hwhole', hextends⟩ := hmore hwhole
    exact hextends _ (.factor (hfirst hwhole'))
  nextFactor first ahead left op second result hop hsecond hmore hwhole := by
    obtain ⟨span, htokens, -⟩ := tokens_of_peek rfl (Operator.ne_eof_of_ofMultiplying? hop)
    obtain ⟨⟨hfirst, hwhole'⟩, hextends⟩ := hmore hwhole
    refine ⟨hfirst, fun before hderives => hextends before ?_⟩
    rw [htokens] at hderives
    exact .multiply hop hderives (hsecond hwhole')
  noFactor _ _ _ hwhole := ⟨hwhole, fun _ hderives => hderives⟩
  firstTerm _ _ _ _ hfirst hmore hwhole := by
    obtain ⟨hwhole', hextends⟩ := hmore hwhole
    exact hextends _ (.term (hfirst hwhole'))
  nextTerm first ahead left op second result hop hsecond hmore hwhole := by
    obtain ⟨span, htokens, -⟩ := tokens_of_peek rfl (Operator.ne_eof_of_ofAdding? hop)
    obtain ⟨⟨hfirst, hwhole'⟩, hextends⟩ := hmore hwhole
    refine ⟨hfirst, fun before hderives => hextends before ?_⟩
    rw [htokens] at hderives
    exact .add hop hderives (hsecond hwhole')
  noTerm _ _ _ hwhole := ⟨hwhole, fun _ hderives => hderives⟩

theorem derives_readExpr {expr : Expr} {left : Ahead} (h : given (readExpr ahead) = (expr, left))
    (hwhole : expr.Whole) : expr.Derives .sum ahead.tokens left.tokens :=
  follows_readers.holds h hwhole

theorem derives_readCond {word : Keyword} {cond : Cond} {left : Ahead}
    (h : given (readCond word ahead) = (cond, left)) (hwhole : cond.Whole) :
    ∃ span, cond.Derives ahead.tokens (⟨.keyword word, span⟩ :: left.tokens) := by
  unfold readCond at h
  dsimp only at h
  split at h
  · cases h
    cases hwhole
  · next op hop =>
    obtain ⟨first, hfirst, -⟩ := tokens_of_peek rfl (Comparison.ne_eof_of_ofToken? hop)
    split at h
    · next hword =>
      cases h
      obtain ⟨last, hlast, -⟩ := tokens_of_peek (peek_of_expect hword) (by simp)
      have hleft := derives_readExpr rfl hwhole.1
      rw [hfirst] at hleft
      have hright := derives_readExpr rfl hwhole.2
      rw [hlast] at hright
      exact ⟨last, .compare hop hleft hright⟩
    · cases h
      cases hwhole

theorem derives_readConstValue {value : ConstValue} {left : ahead.Left}
    (h : readConstValue ahead = .ok (value, left)) : value.Derives ahead.tokens left.val.tokens := by
  unfold readConstValue at h
  split at h
  · next hpeek =>
    cases h
    obtain ⟨span, htokens, -⟩ := tokens_of_peek hpeek (by simp)
    change ConstValue.Derives _ ahead.tokens ahead.skip.tokens
    rw [htokens]
    exact .number
  · next hpeek =>
    cases h
    obtain ⟨span, htokens, -⟩ := tokens_of_peek hpeek (by simp)
    change ConstValue.Derives _ ahead.tokens ahead.skip.tokens
    rw [htokens]
    exact .string
  · next hpeek =>
    obtain ⟨first, htokens, -⟩ := tokens_of_peek hpeek (by simp)
    split at h
    · next hpeek' =>
      cases h
      obtain ⟨second, htokens', -⟩ := tokens_of_peek hpeek' (by simp)
      change ConstValue.Derives _ ahead.tokens ahead.skip.skip.tokens
      rw [htokens, htokens']
      exact .negative
    · cases h
  · next hpeek =>
    cases h
    obtain ⟨span, htokens, hplace⟩ := tokens_of_peek hpeek (by simp)
    change ConstValue.Derives _ ahead.tokens ahead.skip.tokens
    rw [htokens, hplace]
    exact .copy
  · cases h

theorem derives_readConst {declaration : Declaration} {left : ahead.Left}
    (h : readConst ahead = .ok (declaration, left)) (hwhole : declaration.Whole) (word : Span) :
    declaration.Derives (⟨.keyword .const, word⟩ :: ahead.tokens) left.val.tokens := by
  obtain ⟨name, hname, h⟩ := Except.exists_of_bind_eq_ok h
  obtain ⟨_, hequal, h⟩ := Except.exists_of_bind_eq_ok h
  obtain ⟨⟨value, last, hlast⟩, hvalue, h⟩ := Except.exists_of_bind_eq_ok h
  obtain ⟨span, htokens, hident⟩ := tokens_of_identifier hname
  obtain ⟨equal, htokens', -⟩ := tokens_of_peek (peek_of_expect hequal) (by simp)
  have hderives := derives_readConstValue hvalue
  dsimp only at h
  split at h
  · next hend =>
    cases h
    obtain ⟨semicolon, hsemicolon, -⟩ := tokens_of_peek (peek_of_expect hend) (by simp)
    rw [hsemicolon] at hderives
    change Declaration.Derives _ (_ :: ahead.tokens) last.skip.tokens
    rw [htokens, htokens', hident]
    exact .const hderives
  · cases h
    cases hwhole
  · cases h

theorem derives_readNames {names : List Ident} {left : ahead.Left}
    (h : readNames ahead = .ok (names, left)) :
    NamesDerive names ahead.tokens left.val.tokens := by
  fun_induction readNames ahead generalizing names with
  | case1 ahead mistake hname => cases h
  | case2 ahead name hname _ hcomma _ names last hlast hread ih =>
    cases h
    obtain ⟨span, htokens, hident⟩ := tokens_of_identifier hname
    obtain ⟨comma, htokens', -⟩ := tokens_of_peek hcomma (by simp)
    change NamesDerive _ ahead.tokens last.tokens
    rw [htokens, htokens', hident]
    exact .more (ih hread)
  | case3 ahead name hname _ hcomma _ mistake hread => cases h
  | case4 ahead name hname _ hcomma =>
    cases h
    obtain ⟨span, htokens, hident⟩ := tokens_of_identifier hname
    change NamesDerive _ ahead.tokens ahead.skip.tokens
    rw [htokens, hident]
    exact .last

theorem tokens_of_typeName {type : IntType} (h : ahead.typeName = .ok type) :
    ∃ name span, IntType.ofName? name = some type ∧
      ahead.tokens = ⟨.identifier name, span⟩ :: ahead.skip.tokens := by
  obtain ⟨ident, hident, h⟩ := Except.exists_of_bind_eq_ok h
  obtain ⟨span, htokens, -⟩ := tokens_of_identifier hident
  split at h
  · next hname =>
    cases h
    exact ⟨ident.name, span, hname, htokens⟩
  · cases h

theorem derives_readVars {declaration : Declaration} {left : ahead.Left}
    (h : readVars ahead = .ok (declaration, left)) (word : Span) :
    declaration.Derives (⟨.keyword .var, word⟩ :: ahead.tokens) left.val.tokens := by
  obtain ⟨⟨names, last, hlast⟩, hnames, h⟩ := Except.exists_of_bind_eq_ok h
  obtain ⟨_, hcolon, h⟩ := Except.exists_of_bind_eq_ok h
  obtain ⟨type, htype, h⟩ := Except.exists_of_bind_eq_ok h
  obtain ⟨_, hsemicolon, h⟩ := Except.exists_of_bind_eq_ok h
  cases h
  obtain ⟨colon, htokens, -⟩ := tokens_of_peek (peek_of_expect hcolon) (by simp)
  obtain ⟨typeName, span, hname, htokens'⟩ := tokens_of_typeName htype
  obtain ⟨semicolon, htokens'', -⟩ := tokens_of_peek (peek_of_expect hsemicolon) (by simp)
  have hderives := derives_readNames hnames
  rw [htokens, htokens', htokens''] at hderives
  exact .vars hname hderives

theorem derives_readDeclaration? {declaration : Declaration} {left : ahead.Less}
    (h : readDeclaration? ahead = some (declaration, left)) (hwhole : declaration.Whole) :
    declaration.Derives ahead.tokens left.val.tokens := by
  unfold readDeclaration? at h
  dsimp only at h
  split at h
  · next hpeek =>
    obtain ⟨word, htokens, -⟩ := tokens_of_peek hpeek (by simp)
    split at h
    · next hread =>
      cases h
      have hderives := derives_readConst hread hwhole word
      rw [← htokens] at hderives
      exact hderives
    · cases h
      cases hwhole
  · split at h
    · next hpeek =>
      obtain ⟨word, htokens, -⟩ := tokens_of_peek hpeek (by simp)
      split at h
      · next hread =>
        cases h
        have hderives := derives_readVars hread word
        rw [← htokens] at hderives
        exact hderives
      · cases h
        cases hwhole
    · cases h

theorem derives_readDeclarations {locals : List Declaration} {left : Ahead}
    (h : given (readDeclarations ahead) = (locals, left))
    (hwhole : ∀ declaration ∈ locals, declaration.Whole) :
    LocalsDerive locals ahead.tokens left.tokens := by
  fun_induction readDeclarations ahead generalizing locals left with
  | case1 ahead hread =>
    cases h
    exact .nil
  | case2 ahead declaration next hnext hread rest last hlast hrest ih =>
    cases h
    refine .cons (derives_readDeclaration? hread (hwhole _ List.mem_cons_self)) ?_
    refine ih ?_ fun other hother => hwhole other (List.mem_cons_of_mem _ hother)
    rw [hrest]
    rfl

theorem semicolons_skipSemicolons (ahead : Ahead) :
    Semicolons ahead.tokens (skipSemicolons ahead).val.tokens := by
  fun_induction skipSemicolons ahead with
  | case1 ahead hpeek _ left hleft hskip ih =>
    obtain ⟨span, htokens, -⟩ := tokens_of_peek hpeek (by simp)
    rw [hskip] at ih
    change Semicolons ahead.tokens left.tokens
    rw [htokens]
    exact .more ih
  | case2 ahead hpeek => exact .none

/-- A statement read without a mistake is the statement of the tokens read. -/
def Stmt.Follows (extent : Extent) (ahead : Ahead) (result : Stmt × Ahead) : Prop :=
  result.1.Whole → result.1.Derives extent ahead.tokens result.2.tokens

private theorem follows_readStmts : StmtReading (Stmt.Follows .single) (Stmt.Follows .body) where
  assign ahead left name value hpeek hassign hvalue hwhole := by
    obtain ⟨span, htokens, hplace⟩ := tokens_of_peek hpeek (by simp)
    obtain ⟨sign, htokens', -⟩ := tokens_of_peek hassign (by simp)
    rw [htokens, htokens', hplace]
    exact .assign (derives_readExpr hvalue hwhole)
  call ahead name hpeek _ _ := by
    obtain ⟨span, htokens, hplace⟩ := tokens_of_peek hpeek (by simp)
    rw [htokens, hplace]
    exact .call
  callWord ahead callee hpeek hcallee _ := by
    obtain ⟨word, htokens, -⟩ := tokens_of_peek hpeek (by simp)
    obtain ⟨span, htokens', hident⟩ := tokens_of_identifier hcallee
    rw [htokens, htokens', hident]
    exact .callWord
  callNone _ _ _ _ hwhole := hwhole.elim
  branchElse ahead afterCond afterYes afterNo left condition yes no closed hpeek hcondition hyes
      helse hno hclose := by
    obtain ⟨first, htokens, -⟩ := tokens_of_peek hpeek (by simp)
    obtain ⟨third, htokens', -⟩ := tokens_of_peek helse (by simp)
    rintro ⟨hcond, hwhole, hwhole'⟩
    obtain ⟨rfl, last, hend⟩ := tokens_of_closeBody hclose hwhole'
    obtain ⟨second, hcondition⟩ := derives_readCond hcondition hcond
    have hyes := hyes hwhole
    have hno := hno hwhole'
    rw [htokens'] at hyes
    rw [hend] at hno
    rw [htokens]
    exact .branchElse hcondition hyes hno
  branch ahead afterCond afterYes left condition yes no hpeek hcondition hyes _ hclose := by
    obtain ⟨first, htokens, -⟩ := tokens_of_peek hpeek (by simp)
    rintro ⟨hcond, hwhole, hwhole'⟩
    obtain ⟨rfl, last, hend⟩ := tokens_of_closeBody hclose hwhole'
    obtain ⟨second, hcondition⟩ := derives_readCond hcondition hcond
    have hyes := hyes hwhole
    rw [hend] at hyes
    rw [htokens]
    exact .branch hcondition hyes
  loop ahead afterCond afterBody left condition inner closed hpeek hcondition hinner hclose := by
    obtain ⟨first, htokens, -⟩ := tokens_of_peek hpeek (by simp)
    rintro ⟨hcond, hwhole⟩
    obtain ⟨rfl, last, hend⟩ := tokens_of_closeBody hclose hwhole
    obtain ⟨second, hcondition⟩ := derives_readCond hcondition hcond
    have hbody := hinner hwhole
    rw [hend] at hbody
    rw [htokens]
    exact .loop hcondition hbody
  ret ahead hpeek _ := by
    obtain ⟨span, htokens, -⟩ := tokens_of_peek hpeek (by simp)
    rw [htokens]
    exact .ret
  block ahead afterLocals afterBody left locals inner closed hpeek hlocals hinner hclose := by
    obtain ⟨first, htokens, -⟩ := tokens_of_peek hpeek (by simp)
    rintro ⟨hdeclared, hwhole⟩
    obtain ⟨rfl, last, hend⟩ := tokens_of_closeBody hclose hwhole
    have hbody := hinner hwhole
    rw [hend] at hbody
    rw [htokens]
    exact .block (derives_readDeclarations hlocals hdeclared) hbody
  missing _ _ _ _ _ _ _ hwhole := hwhole.elim
  done _ _ _ := .skip
  more ahead afterFirst last first second _ hfirst hsecond := by
    rintro ⟨hwhole, hwhole'⟩
    exact .seq (hfirst hwhole) (semicolons_skipSemicolons _) (hsecond hwhole')

theorem derives_readStmts {body : Stmt} {left : Ahead}
    (h : given (readStmts ahead) = (body, left)) (hwhole : body.Whole) :
    body.Derives .body ahead.tokens left.tokens :=
  follows_readStmts.holds h hwhole

/-- A procedure read without a mistake is that of the tokens read, and its declaration goes
on with whatever the tokens after it spell. -/
def Decls.Heads (ahead : Ahead) (result : Heading × Decls × Stmt × Ahead) : Prop :=
  result.1.Whole ∧ result.2.1.Whole ∧ result.2.2.1.Whole → ∀ word rest after,
    rest.Derives result.2.2.2.tokens after →
      (Decls.nested result.1 result.2.1 result.2.2.1 rest).Derives
        (⟨.keyword .procedure, word⟩ :: ahead.tokens) after

def Decls.Follows (ahead : Ahead) (result : Decls × Ahead) : Prop :=
  result.1.Whole → result.1.Derives ahead.tokens result.2.tokens

private theorem follows_readDecls : DeclsReading Decls.Heads Decls.Follows where
  unnamed ahead mistake _ := by
    rintro ⟨⟨⟩, -⟩
  unended ahead name mistake _ _ := by
    rintro ⟨⟨⟩, -⟩
  unbegun ahead afterLocals name locals mistake _ _ _ _ := by
    rintro ⟨-, -, ⟨⟩⟩
  ended ahead afterLocals afterBody last name locals body closed hname hsemicolon hlocals hbegin
      hbody hclose := by
    rintro ⟨-, hwhole, hclosed⟩ word rest after hrest
    obtain ⟨rfl, end_, hend⟩ := tokens_of_closeBody hclose hclosed
    obtain ⟨span, htokens, hident⟩ := tokens_of_identifier hname
    obtain ⟨semicolon, htokens', -⟩ := tokens_of_peek hsemicolon (by simp)
    obtain ⟨first, htokens'', -⟩ := tokens_of_peek hbegin (by simp)
    have hinner := hlocals hwhole
    have hstmts := derives_readStmts hbody hclosed
    dsimp only at hinner
    rw [htokens''] at hinner
    rw [hend] at hstmts
    rw [htokens, htokens', hident]
    exact .nested hinner hstmts (optionally_pass _ _) hrest
  plain ahead last left declaration rest hread hrest := by
    rintro ⟨hfirst, hwhole⟩
    exact .plain (derives_readDeclaration? hread hfirst) (hrest hwhole)
  nested ahead left last heading locals rest body _ hpeek hprocedure hrest := by
    obtain ⟨word, htokens, -⟩ := tokens_of_peek hpeek (by simp)
    rintro ⟨hheading, hlocals, hbody, hwhole⟩
    rw [htokens]
    exact hprocedure ⟨hheading, hlocals, hbody⟩ word rest _ (hrest hwhole)
  done _ _ _ _ := .nil

/-- The end of input stands nowhere among the tokens. -/
def Endless (tokens : List Lexeme) : Prop := ∀ lexeme ∈ tokens, lexeme.token ≠ .eof

theorem Endless.suffix {before after : List Lexeme} (h : Endless before)
    (hsuffix : after <:+ before) : Endless after :=
  fun lexeme hlexeme => h lexeme (hsuffix.subset hlexeme)

theorem Endless.tokens_eq_nil (h : Endless ahead.tokens) (hpeek : ahead.peek = .eof) :
    ahead.tokens = [] := by
  cases htokens : ahead.tokens with
  | nil => rfl
  | cons first rest =>
    rw [htokens] at h
    simp only [peek, htokens] at hpeek
    exact absurd hpeek (h first List.mem_cons_self)

theorem spells_readProgram (h : Endless ahead.tokens) (hwhole : (readProgram ahead).decls.Whole) :
    (readProgram ahead).decls.Spells ahead.tokens := by
  fun_induction readProgram ahead with
  | case1 ahead declaration left hleft hread rest ih =>
    have hfirst := derives_readDeclaration? hread hwhole.1
    exact .plain hfirst (ih (h.suffix hfirst.suffix) hwhole.2)
  | case2 ahead hread hpeek heading locals body left hleft hprocedure last rest =>
    obtain ⟨hheading, hlocals, hbody, hrest⟩ := hwhole
    obtain ⟨word, htokens, -⟩ := tokens_of_peek hpeek (by simp)
    have hheads := follows_readDecls.holds (givenProcedure_eq hprocedure)
    have hderives := hheads ⟨hheading, hlocals, hbody⟩ word .nil _ .nil
    rw [← htokens] at hderives
    have hdot : Optionally .dot left.tokens last.tokens := optionally_pass .dot left
    have hend : last.peek = .eof := by
      dsimp only [rest] at hrest
      split at hrest
      · assumption
      · cases hrest
    have hnil : rest = .nil := if_pos hend
    rw [Endless.tokens_eq_nil ((h.suffix hderives.suffix).suffix hdot.suffix) hend] at hdot
    dsimp only
    rw [hnil]
    exact .procedure hderives hdot
  | case3 ahead hread hpeek => cases hwhole

end BlockLang.Tree
