import BlockLang.Proofs.Tree.Grammar

/-! What the readers give, one equation for each way in which the source can go on. What is to be
known of all trees that are read needs to be shown for each such way, and no more. -/

namespace BlockLang.Tree

open Ahead

namespace Ahead

variable {ahead : Ahead} {token : Token}

theorem tokens_of_peek (h : ahead.peek = token) (hne : token ≠ .eof) :
    ∃ span, ahead.tokens = ⟨token, span⟩ :: ahead.skip.tokens ∧ ahead.place = span.toPlace := by
  subst h
  cases htokens : ahead.tokens with
  | nil => simp [peek, htokens] at hne
  | cons first rest =>
    refine ⟨first.span, ?_, ?_⟩
    · simp [peek, skip, htokens]
    · simp [place, htokens]

theorem peek_of_expect {result : Unit} (h : ahead.expect token = .ok result) :
    ahead.peek = token := by
  unfold expect at h
  split at h
  · assumption
  · cases h

theorem expect_of_peek (h : ahead.peek = token) : ahead.expect token = .ok () := if_pos h

theorem peek_of_identifier {ident : Ident} (h : ahead.identifier = .ok ident) :
    ahead.peek = .identifier ident.name ∧ ident.place = ahead.place := by
  unfold identifier at h
  split at h
  · next hpeek =>
    cases h
    exact ⟨hpeek, rfl⟩
  · cases h

/-- A name that was read is that of the next token. -/
theorem tokens_of_identifier {ident : Ident} (h : ahead.identifier = .ok ident) :
    ∃ span, ahead.tokens = ⟨.identifier ident.name, span⟩ :: ahead.skip.tokens ∧
      ident = ⟨ident.name, span.toPlace⟩ := by
  obtain ⟨hpeek, hplace⟩ := peek_of_identifier h
  obtain ⟨span, htokens, hspan⟩ := tokens_of_peek hpeek (by simp)
  refine ⟨span, htokens, ?_⟩
  rw [← hspan, ← hplace]

end Ahead

theorem Comparison.ne_eof_of_ofToken? {token : Token} {op : Comparison}
    (h : ofToken? token = some op) : token ≠ .eof := by
  rintro rfl
  cases h

variable {ahead : Ahead}

/-- What a reader gives, without the proof that it reads on. -/
def given {α : Type} {bound : Ahead → Prop} (result : α × { left : Ahead // bound left }) :
    α × Ahead := (result.1, result.2.val)

theorem given_eq {α : Type} {bound : Ahead → Prop} {result : α × { left // bound left }}
    {value : α} {left : Ahead} {h : bound left} (hresult : result = (value, ⟨left, h⟩)) :
    given result = (value, left) := by
  rw [hresult]
  rfl

section

variable {left : Ahead}

theorem readFactor_number {text : String} {value : Int64} (h : ahead.peek = .number text)
    (hvalue : Numeral.read? text = some value) :
    given (readFactor ahead) = (.number value, ahead.skip) := by
  rw [readFactor]
  split
  case h_1 =>
    next hpeek =>
    cases h.symm.trans hpeek
    simp only [hvalue]
    rfl
  all_goals simp_all

theorem readFactor_name {name : String} (h : ahead.peek = .identifier name) :
    given (readFactor ahead) = (.name ⟨name, ahead.place⟩, ahead.skip) := by
  rw [readFactor]
  split
  case h_2 =>
    next hpeek =>
    cases h.symm.trans hpeek
    rfl
  all_goals simp_all

theorem readFactor_paren (h : ahead.peek = .sign .leftParen) {inner : Expr}
    (hinner : given (readExpr ahead.skip) = (inner, left))
    (hclose : left.peek = .sign .rightParen) :
    given (readFactor ahead) = (inner, left.skip) := by
  cases hinner
  rw [readFactor]
  split
  case h_3 => simp [expect_of_peek hclose, given]
  all_goals simp_all

theorem readFactor_negate (h : ahead.peek = .sign .minus) {operand : Expr}
    (hoperand : given (readFactor ahead.skip) = (operand, left)) :
    given (readFactor ahead) = (.negate operand, left) := by
  cases hoperand
  rw [readFactor]
  split
  case h_4 => rfl
  all_goals simp_all

theorem readFactor_badNumber {text : String} (h : ahead.peek = .number text)
    (hvalue : Numeral.read? text = none) :
    given (readFactor ahead) = (.missing (ahead.reject (.badNumber text)), ahead.drop) := by
  rw [readFactor]
  split
  case h_1 =>
    next hpeek =>
    cases h.symm.trans hpeek
    simp only [hvalue]
    rfl
  all_goals simp_all

theorem readFactor_unclosed (h : ahead.peek = .sign .leftParen) {inner : Expr} {mistake : Mistake}
    (hinner : given (readExpr ahead.skip) = (inner, left))
    (hclose : left.expect (.sign .rightParen) = .error mistake) :
    given (readFactor ahead) = (.unclosed inner mistake, left.drop) := by
  cases hinner
  rw [readFactor]
  split
  case h_3 => simp [hclose, given]
  all_goals simp_all

theorem readFactor_missing (hnumber : ∀ text, ahead.peek ≠ .number text)
    (hname : ∀ name, ahead.peek ≠ .identifier name) (hparen : ahead.peek ≠ .sign .leftParen)
    (hminus : ahead.peek ≠ .sign .minus) :
    given (readFactor ahead) =
      (.missing (ahead.reject (.expectedExpression ahead.peek)), ahead.drop) := by
  rw [readFactor]
  split
  case h_5 => rfl
  all_goals simp_all

theorem readFactors_more {op : Operator} (h : Operator.ofMultiplying? ahead.peek = some op)
    {second : Expr} (hsecond : given (readFactor ahead.skip) = (second, left)) (first : Expr) :
    given (readFactors first ahead) = given (readFactors (.binary op first second) left) := by
  cases hsecond
  rw [readFactors]
  split
  · next hop =>
    cases h.symm.trans hop
    rfl
  · simp_all

theorem readFactors_done (h : Operator.ofMultiplying? ahead.peek = none) (first : Expr) :
    given (readFactors first ahead) = (first, ahead) := by
  rw [readFactors]
  split
  · simp_all
  · rfl

theorem readTerm_eq {first : Expr} (hfirst : given (readFactor ahead) = (first, left)) :
    given (readTerm ahead) = given (readFactors first left) := by
  cases hfirst
  rw [readTerm]
  rfl

theorem readTerms_more {op : Operator} (h : Operator.ofAdding? ahead.peek = some op)
    {second : Expr} (hsecond : given (readTerm ahead.skip) = (second, left)) (first : Expr) :
    given (readTerms first ahead) = given (readTerms (.binary op first second) left) := by
  cases hsecond
  rw [readTerms]
  split
  · next hop =>
    cases h.symm.trans hop
    rfl
  · simp_all

theorem readTerms_done (h : Operator.ofAdding? ahead.peek = none) (first : Expr) :
    given (readTerms first ahead) = (first, ahead) := by
  rw [readTerms]
  split
  · simp_all
  · rfl

theorem readExpr_eq {first : Expr} (hfirst : given (readTerm ahead) = (first, left)) :
    given (readExpr ahead) = given (readTerms first left) := by
  cases hfirst
  rw [readExpr]
  rfl

end

/-- Properties of what the readers of expressions give, which hold in every way in which these
can go on. -/
structure ExprReading (factor term expr : Ahead → Expr × Ahead → Prop)
    (factors terms : Expr → Ahead → Expr × Ahead → Prop) : Prop where
  number (ahead : Ahead) (text : String) (value : Int64) (hpeek : ahead.peek = .number text)
    (hvalue : Numeral.read? text = some value) : factor ahead (.number value, ahead.skip)
  badNumber (ahead : Ahead) (text : String) (hpeek : ahead.peek = .number text)
    (hvalue : Numeral.read? text = none) :
    factor ahead (.missing (ahead.reject (.badNumber text)), ahead.drop)
  name (ahead : Ahead) (name : String) (hpeek : ahead.peek = .identifier name) :
    factor ahead (.name ⟨name, ahead.place⟩, ahead.skip)
  paren (ahead left : Ahead) (inner : Expr) (hpeek : ahead.peek = .sign .leftParen)
    (hinner : expr ahead.skip (inner, left)) (hclose : left.peek = .sign .rightParen) :
    factor ahead (inner, left.skip)
  unclosed (ahead left : Ahead) (inner : Expr) (mistake : Mistake)
    (hpeek : ahead.peek = .sign .leftParen) (hinner : expr ahead.skip (inner, left))
    (hclose : left.expect (.sign .rightParen) = .error mistake) :
    factor ahead (.unclosed inner mistake, left.drop)
  negate (ahead left : Ahead) (operand : Expr) (hpeek : ahead.peek = .sign .minus)
    (hoperand : factor ahead.skip (operand, left)) : factor ahead (.negate operand, left)
  missing (ahead : Ahead) (hnumber : ∀ text, ahead.peek ≠ .number text)
    (hname : ∀ name, ahead.peek ≠ .identifier name) (hparen : ahead.peek ≠ .sign .leftParen)
    (hminus : ahead.peek ≠ .sign .minus) :
    factor ahead (.missing (ahead.reject (.expectedExpression ahead.peek)), ahead.drop)
  firstFactor (ahead left : Ahead) (first : Expr) (result : Expr × Ahead)
    (hfirst : factor ahead (first, left)) (hmore : factors first left result) : term ahead result
  nextFactor (first : Expr) (ahead left : Ahead) (op : Operator) (second : Expr)
    (result : Expr × Ahead) (hop : Operator.ofMultiplying? ahead.peek = some op)
    (hsecond : factor ahead.skip (second, left))
    (hmore : factors (.binary op first second) left result) : factors first ahead result
  noFactor (first : Expr) (ahead : Ahead) (hop : Operator.ofMultiplying? ahead.peek = none) :
    factors first ahead (first, ahead)
  firstTerm (ahead left : Ahead) (first : Expr) (result : Expr × Ahead)
    (hfirst : term ahead (first, left)) (hmore : terms first left result) : expr ahead result
  nextTerm (first : Expr) (ahead left : Ahead) (op : Operator) (second : Expr)
    (result : Expr × Ahead) (hop : Operator.ofAdding? ahead.peek = some op)
    (hsecond : term ahead.skip (second, left))
    (hmore : terms (.binary op first second) left result) : terms first ahead result
  noTerm (first : Expr) (ahead : Ahead) (hop : Operator.ofAdding? ahead.peek = none) :
    terms first ahead (first, ahead)

private theorem ExprReading.all {factor term expr : Ahead → Expr × Ahead → Prop}
    {factors terms : Expr → Ahead → Expr × Ahead → Prop}
    (h : ExprReading factor term expr factors terms) :
    (∀ ahead, factor ahead (given (readFactor ahead))) ∧
      (∀ ahead, expr ahead (given (readExpr ahead))) ∧
      (∀ first ahead, terms first ahead (given (readTerms first ahead))) ∧
      (∀ ahead, term ahead (given (readTerm ahead))) ∧
      ∀ first ahead, factors first ahead (given (readFactors first ahead)) := by
  apply readFactor.mutual_induct
  case case1 =>
    intro ahead text hpeek value hvalue
    rw [readFactor_number hpeek hvalue]
    exact h.number ahead text value hpeek hvalue
  case case2 =>
    intro ahead text hpeek hvalue
    rw [readFactor_badNumber hpeek hvalue]
    exact h.badNumber ahead text hpeek hvalue
  case case3 =>
    intro ahead name hpeek
    rw [readFactor_name hpeek]
    exact h.name ahead name hpeek
  case case4 =>
    intro ahead hpeek _ inner left _ hread _ hclose ih
    rw [given_eq hread] at ih
    rw [readFactor_paren hpeek (given_eq hread) (peek_of_expect hclose)]
    exact h.paren ahead left inner hpeek ih (peek_of_expect hclose)
  case case5 =>
    intro ahead hpeek _ inner left _ hread mistake hclose ih
    rw [given_eq hread] at ih
    rw [readFactor_unclosed hpeek (given_eq hread) hclose]
    exact h.unclosed ahead left inner mistake hpeek ih hclose
  case case6 =>
    intro ahead hpeek _ operand left _ hread ih
    rw [given_eq hread] at ih
    rw [readFactor_negate hpeek (given_eq hread)]
    exact h.negate ahead left operand hpeek ih
  case case7 =>
    intro ahead hnumber hname hparen hminus
    rw [readFactor_missing hnumber hname hparen hminus]
    exact h.missing ahead hnumber hname hparen hminus
  case case8 =>
    intro ahead first left _ hread result last _ hread' ih ihmore
    rw [given_eq hread] at ih
    rw [readExpr_eq (given_eq hread)]
    exact h.firstTerm ahead left first _ ih ihmore
  case case9 =>
    intro first ahead op hop _ second left _ hread result last _ hread' ih ihmore
    rw [given_eq hread] at ih
    rw [readTerms_more hop (given_eq hread)]
    exact h.nextTerm first ahead left op second _ hop ih ihmore
  case case10 =>
    intro first ahead hop
    rw [readTerms_done hop]
    exact h.noTerm first ahead hop
  case case11 =>
    intro ahead first left _ hread result last _ hread' ih ihmore
    rw [given_eq hread] at ih
    rw [readTerm_eq (given_eq hread)]
    exact h.firstFactor ahead left first _ ih ihmore
  case case12 =>
    intro first ahead op hop _ second left _ hread result last _ hread' ih ihmore
    rw [given_eq hread] at ih
    rw [readFactors_more hop (given_eq hread)]
    exact h.nextFactor first ahead left op second _ hop ih ihmore
  case case13 =>
    intro first ahead hop
    rw [readFactors_done hop]
    exact h.noFactor first ahead hop

/-- What is kept in every way in which the readers go on is so of every expression read. -/
theorem ExprReading.holds {factor term expr : Ahead → Expr × Ahead → Prop}
    {factors terms : Expr → Ahead → Expr × Ahead → Prop}
    (h : ExprReading factor term expr factors terms) {result : Expr × Ahead}
    (hread : given (readExpr ahead) = result) : expr ahead result :=
  hread ▸ h.all.2.1 ahead

-- What a reader returns is bound to its input, so it cannot be rewritten with as it stands. An
-- equation about what is given, without the bound, can.
theorem given_readCond (word : Keyword) (ahead : Ahead) :
    given (readCond word ahead) =
      let (left, after) := given (readExpr ahead)
      match Comparison.ofToken? after.peek with
      | none => (.half left (after.refuse (.expectedComparison after.peek)), after.drop)
      | some op =>
        let (right, last) := given (readExpr after.skip)
        match last.expect (.keyword word) with
        | .ok _ => (.compare op left right, last.skip)
        | .error mistake => (.unfollowed op left right mistake, last.drop) := by
  unfold readCond
  dsimp only [given]
  split
  · next hop => simp only [hop]
  · next hop =>
    simp only [hop]
    split
    · next hword => simp only [hword]
    · next hword => simp only [hword]

/-- What a reader that can fail gives, without the proof that it reads on. -/
def givenOr {α : Type} (result : Except Mistake (α × Left ahead)) : Except Mistake (α × Ahead) :=
  result.map given

theorem givenOr_readConst (ahead : Ahead) :
    givenOr (readConst ahead) = (do
      let name ← ahead.identifier
      ahead.skip.expect (.sign .equal)
      let (value, left) ← givenOr (readConstValue ahead.skip.skip)
      match left.expect (.sign .semicolon), value with
      | .ok _, _ => return (.const name value, left.skip.reachedAt name.place)
      | .error mistake, .copy source => return (.unendedCopy source mistake, left.drop)
      | .error mistake, .text _ => throw mistake) := by
  unfold readConst
  cases ahead.identifier with
  | error mistake => rfl
  | ok name =>
    cases ahead.skip.expect (.sign .equal) with
    | error mistake => rfl
    | ok _ =>
      rcases readConstValue ahead.skip.skip with mistake | ⟨value, left, hleft⟩
      · rfl
      · dsimp only [givenOr, given, bind, Except.bind, Except.map]
        rcases left.expect (.sign .semicolon) with mistake | _
        · cases value <;> rfl
        · rfl

theorem givenOr_readNames (ahead : Ahead) :
    givenOr (readNames ahead) = (do
      let name ← ahead.identifier
      if ahead.skip.peek = .sign .comma then
        let (names, left) ← givenOr (readNames ahead.skip.skip)
        return (name :: names, left)
      else return ([name], ahead.skip)) := by
  rw [readNames]
  rcases ahead.identifier with mistake | name
  · rfl
  dsimp only [bind, Except.bind]
  split
  · rcases readNames ahead.skip.skip with mistake | ⟨names, left, hleft⟩ <;> rfl
  · rfl

theorem givenOr_readVars (ahead : Ahead) :
    givenOr (readVars ahead) = (do
      let (names, left) ← givenOr (readNames ahead)
      left.expect (.sign .colon)
      let type ← left.skip.typeName
      left.skip.skip.expect (.sign .semicolon)
      return (.vars names type,
        left.skip.skip.skip.reachedAt ((names.getLast?.map Ident.place).getD ahead.place))) := by
  unfold readVars
  rcases readNames ahead with mistake | ⟨names, left, hleft⟩
  · rfl
  dsimp only [givenOr, given, bind, Except.bind, Except.map]
  rcases left.expect (.sign .colon) with mistake | _
  · rfl
  rcases left.skip.typeName with mistake | type
  · rfl
  rcases left.skip.skip.expect (.sign .semicolon) with mistake | _ <;> rfl

/-- What was read, where a mistake takes the place of a declaration. -/
def declaredOr (ahead : Ahead) : Except Mistake (Declaration × Ahead) → Declaration × Ahead
  | .ok result => result
  | .error mistake => (.stop mistake, ahead.drop)

theorem given_readDeclaration? (ahead : Ahead) :
    (readDeclaration? ahead).map given =
      if ahead.peek = .keyword .const then
        some (declaredOr ahead (givenOr (readConst ahead.skip)))
      else if ahead.peek = .keyword .var then
        some (declaredOr ahead (givenOr (readVars ahead.skip)))
      else none := by
  unfold readDeclaration?
  dsimp only
  split
  · rcases readConst ahead.skip with mistake | ⟨declaration, left, hleft⟩ <;> rfl
  · split
    · rcases readVars ahead.skip with mistake | ⟨declaration, left, hleft⟩ <;> rfl
    · rfl

theorem closeBody_eq (h : ahead.peek = .keyword .end_) (body : Stmt) :
    given (closeBody body ahead) = (body, ahead.skip) := by
  unfold closeBody
  rw [expect_of_peek h]
  rfl

theorem tokens_of_closeBody {body closed : Stmt} {last : Ahead}
    (h : given (closeBody body ahead) = (closed, last)) (hwhole : closed.Whole) :
    closed = body ∧ ∃ span, ahead.tokens = ⟨.keyword .end_, span⟩ :: last.tokens := by
  unfold closeBody at h
  split at h
  · next hend =>
    cases h
    obtain ⟨span, htokens, -⟩ := tokens_of_peek (peek_of_expect hend) (by simp)
    exact ⟨rfl, span, htokens⟩
  · cases h
    cases hwhole.2

section

variable {left : Ahead} (more : ahead.peek ≠ .eof)

theorem readStmt_assign {name : String} (h : ahead.peek = .identifier name)
    (hassign : ahead.skip.peek = .sign .assign) {value : Expr}
    (hvalue : given (readExpr ahead.skip.skip) = (value, left)) :
    given (readStmt ahead more) = (.assign ⟨name, ahead.place⟩ value, left) := by
  cases hvalue
  rw [readStmt]
  simp only [h, hassign, if_true]
  rfl

theorem readStmt_call {name : String} (h : ahead.peek = .identifier name)
    (hassign : ahead.skip.peek ≠ .sign .assign) :
    given (readStmt ahead more) = (.call ⟨name, ahead.place⟩, ahead.skip) := by
  rw [readStmt]
  simp only [h, hassign, if_false]
  rfl

theorem readStmt_callWord (h : ahead.peek = .keyword .call) {callee : Ident}
    (hcallee : ahead.skip.identifier = .ok callee) :
    given (readStmt ahead more) = (.call callee, ahead.skip.skip) := by
  rw [readStmt]
  simp only [h, hcallee]
  rfl

theorem readStmt_branch (h : ahead.peek = .keyword .if_) {condition : Cond} {yes no : Stmt}
    {afterCond afterYes : Ahead}
    (hcondition : given (readCond .then_ ahead.skip) = (condition, afterCond))
    (hyes : given (readStmts afterCond) = (yes, afterYes)) (helse : afterYes.peek ≠ .keyword .else_)
    (hclose : given (closeBody .skip afterYes) = (no, left)) :
    given (readStmt ahead more) = (.branch condition yes no, left) := by
  cases hcondition
  cases hyes
  cases hclose
  rw [readStmt]
  simp only [h, helse, if_false]
  rfl

theorem readStmt_branchElse (h : ahead.peek = .keyword .if_) {condition : Cond}
    {yes no closed : Stmt} {afterCond afterYes afterNo : Ahead}
    (hcondition : given (readCond .then_ ahead.skip) = (condition, afterCond))
    (hyes : given (readStmts afterCond) = (yes, afterYes)) (helse : afterYes.peek = .keyword .else_)
    (hno : given (readStmts afterYes.skip) = (no, afterNo))
    (hclose : given (closeBody no afterNo) = (closed, left)) :
    given (readStmt ahead more) = (.branch condition yes closed, left) := by
  cases hcondition
  cases hyes
  cases hno
  cases hclose
  rw [readStmt]
  simp only [h, helse, if_true]
  rfl

theorem readStmt_loop (h : ahead.peek = .keyword .while_) {condition : Cond} {body closed : Stmt}
    {afterCond afterBody : Ahead}
    (hcondition : given (readCond .do_ ahead.skip) = (condition, afterCond))
    (hbody : given (readStmts afterCond) = (body, afterBody))
    (hclose : given (closeBody body afterBody) = (closed, left)) :
    given (readStmt ahead more) = (.loop condition closed, left) := by
  cases hcondition
  cases hbody
  cases hclose
  rw [readStmt]
  simp only [h]
  rfl

theorem readStmt_ret (h : ahead.peek = .keyword .return_) :
    given (readStmt ahead more) = (.ret, ahead.skip) := by
  rw [readStmt]
  simp only [h]
  rfl

theorem readStmt_block (h : ahead.peek = .keyword .begin_) {locals : List Declaration}
    {body closed : Stmt} {afterLocals afterBody : Ahead}
    (hlocals : given (readDeclarations ahead.skip) = (locals, afterLocals))
    (hbody : given (readStmts afterLocals) = (body, afterBody))
    (hclose : given (closeBody body afterBody) = (closed, left)) :
    given (readStmt ahead more) = (.block locals closed, left) := by
  cases hlocals
  cases hbody
  cases hclose
  rw [readStmt]
  simp only [h]
  rfl

theorem readStmt_callNone (h : ahead.peek = .keyword .call) {mistake : Mistake}
    (hcallee : ahead.skip.identifier = .error mistake) :
    given (readStmt ahead more) = (.stop mistake, ahead.drop) := by
  rw [readStmt]
  simp only [h, hcallee]
  rfl

theorem readStmt_missing (hidentifier : ∀ name, ahead.peek ≠ .identifier name)
    (hcall : ahead.peek ≠ .keyword .call) (hif : ahead.peek ≠ .keyword .if_)
    (hwhile : ahead.peek ≠ .keyword .while_) (hreturn : ahead.peek ≠ .keyword .return_)
    (hbegin : ahead.peek ≠ .keyword .begin_) :
    given (readStmt ahead more) =
      (.stop (ahead.refuse (.expectedStatement ahead.peek)), ahead.drop) := by
  rw [readStmt]
  split
  · next hpeek => exact (hidentifier _ hpeek).elim
  · next hpeek => exact (hcall hpeek).elim
  · next hpeek => exact (hif hpeek).elim
  · next hpeek => exact (hwhile hpeek).elim
  · next hpeek => exact (hreturn hpeek).elim
  · next hpeek => exact (hbegin hpeek).elim
  · rfl

end

theorem ne_eof_of_endsBody {token : Token} (h : ¬endsBody token = true) : token ≠ .eof := by
  rintro rfl
  exact h rfl

theorem readStmts_done (h : endsBody ahead.peek = true) :
    given (readStmts ahead) = (.skip, ahead) := by
  rw [readStmts]
  simp only [h, dite_true]
  rfl

theorem readStmts_more (h : ¬endsBody ahead.peek = true) {more : ahead.peek ≠ .eof}
    {first second : Stmt} {afterFirst last : Ahead}
    (hfirst : given (readStmt ahead more) = (first, afterFirst))
    (hsecond : given (readStmts (skipSemicolons afterFirst).val) = (second, last)) :
    given (readStmts ahead) = (.seq first second, last) := by
  cases hfirst
  cases hsecond
  rw [readStmts]
  simp only [dif_neg h]
  rfl

/-- Properties of what the readers of a statement and of several give, which hold in every way
in which these can go on. -/
structure StmtReading (single body : Ahead → Stmt × Ahead → Prop) : Prop where
  assign (ahead left : Ahead) (name : String) (value : Expr) (hpeek : ahead.peek = .identifier name)
    (hassign : ahead.skip.peek = .sign .assign)
    (hvalue : given (readExpr ahead.skip.skip) = (value, left)) :
    single ahead (.assign ⟨name, ahead.place⟩ value, left)
  call (ahead : Ahead) (name : String) (hpeek : ahead.peek = .identifier name)
    (hassign : ahead.skip.peek ≠ .sign .assign) :
    single ahead (.call ⟨name, ahead.place⟩, ahead.skip)
  callWord (ahead : Ahead) (callee : Ident) (hpeek : ahead.peek = .keyword .call)
    (hcallee : ahead.skip.identifier = .ok callee) : single ahead (.call callee, ahead.skip.skip)
  callNone (ahead : Ahead) (mistake : Mistake) (hpeek : ahead.peek = .keyword .call)
    (hcallee : ahead.skip.identifier = .error mistake) : single ahead (.stop mistake, ahead.drop)
  branchElse (ahead afterCond afterYes afterNo left : Ahead) (condition : Cond)
    (yes no closed : Stmt) (hpeek : ahead.peek = .keyword .if_)
    (hcondition : given (readCond .then_ ahead.skip) = (condition, afterCond))
    (hyes : body afterCond (yes, afterYes)) (helse : afterYes.peek = .keyword .else_)
    (hno : body afterYes.skip (no, afterNo)) (hclose : given (closeBody no afterNo) = (closed, left)) :
    single ahead (.branch condition yes closed, left)
  branch (ahead afterCond afterYes left : Ahead) (condition : Cond) (yes no : Stmt)
    (hpeek : ahead.peek = .keyword .if_)
    (hcondition : given (readCond .then_ ahead.skip) = (condition, afterCond))
    (hyes : body afterCond (yes, afterYes)) (helse : afterYes.peek ≠ .keyword .else_)
    (hclose : given (closeBody .skip afterYes) = (no, left)) :
    single ahead (.branch condition yes no, left)
  loop (ahead afterCond afterBody left : Ahead) (condition : Cond) (inner closed : Stmt)
    (hpeek : ahead.peek = .keyword .while_)
    (hcondition : given (readCond .do_ ahead.skip) = (condition, afterCond))
    (hinner : body afterCond (inner, afterBody))
    (hclose : given (closeBody inner afterBody) = (closed, left)) :
    single ahead (.loop condition closed, left)
  ret (ahead : Ahead) (hpeek : ahead.peek = .keyword .return_) : single ahead (.ret, ahead.skip)
  block (ahead afterLocals afterBody left : Ahead) (locals : List Declaration)
    (inner closed : Stmt) (hpeek : ahead.peek = .keyword .begin_)
    (hlocals : given (readDeclarations ahead.skip) = (locals, afterLocals))
    (hinner : body afterLocals (inner, afterBody))
    (hclose : given (closeBody inner afterBody) = (closed, left)) :
    single ahead (.block locals closed, left)
  missing (ahead : Ahead) (hidentifier : ∀ name, ahead.peek ≠ .identifier name)
    (hcall : ahead.peek ≠ .keyword .call) (hif : ahead.peek ≠ .keyword .if_)
    (hwhile : ahead.peek ≠ .keyword .while_) (hreturn : ahead.peek ≠ .keyword .return_)
    (hbegin : ahead.peek ≠ .keyword .begin_) :
    single ahead (.stop (ahead.refuse (.expectedStatement ahead.peek)), ahead.drop)
  done (ahead : Ahead) (hends : endsBody ahead.peek = true) : body ahead (.skip, ahead)
  more (ahead afterFirst last : Ahead) (first second : Stmt) (hends : ¬endsBody ahead.peek = true)
    (hfirst : single ahead (first, afterFirst))
    (hsecond : body (skipSemicolons afterFirst).val (second, last)) :
    body ahead (.seq first second, last)

private theorem StmtReading.all {single body : Ahead → Stmt × Ahead → Prop}
    (h : StmtReading single body) :
    (∀ ahead more, single ahead (given (readStmt ahead more))) ∧
      ∀ ahead, body ahead (given (readStmts ahead)) := by
  apply readStmt.mutual_induct
  case case1 =>
    intro ahead more _ name hpeek hassign value left hleft hread
    rw [readStmt_assign more hpeek hassign (given_eq hread)]
    exact h.assign ahead left name value hpeek hassign (given_eq hread)
  case case2 =>
    intro ahead more _ name hpeek hassign
    rw [readStmt_call more hpeek hassign]
    exact h.call ahead name hpeek hassign
  case case3 =>
    intro ahead more _ hpeek callee hcallee
    rw [readStmt_callWord more hpeek hcallee]
    exact h.callWord ahead callee hpeek hcallee
  case case4 =>
    intro ahead more _ hpeek mistake hcallee
    rw [readStmt_callNone more hpeek hcallee]
    exact h.callNone ahead mistake hpeek hcallee
  case case5 =>
    intro ahead more _ hpeek condition afterCond _ hreadCond yes afterYes _ hreadYes helse _ no
      afterNo _ hreadNo closed last _ hclose ihyes ihno
    rw [given_eq hreadYes] at ihyes
    rw [given_eq hreadNo] at ihno
    rw [readStmt_branchElse more hpeek (given_eq hreadCond) (given_eq hreadYes) helse
      (given_eq hreadNo) (given_eq hclose)]
    exact h.branchElse ahead afterCond afterYes afterNo last condition yes no closed hpeek
      (given_eq hreadCond) ihyes helse ihno (given_eq hclose)
  case case6 =>
    intro ahead more _ hpeek condition afterCond _ hreadCond yes afterYes _ hreadYes helse no last _
      hclose ihyes
    rw [given_eq hreadYes] at ihyes
    rw [readStmt_branch more hpeek (given_eq hreadCond) (given_eq hreadYes) helse (given_eq hclose)]
    exact h.branch ahead afterCond afterYes last condition yes no hpeek (given_eq hreadCond) ihyes
      helse (given_eq hclose)
  case case7 =>
    intro ahead more _ hpeek condition afterCond _ hreadCond inner afterBody _ hreadBody closed last
      _ hclose ihinner
    rw [given_eq hreadBody] at ihinner
    rw [readStmt_loop more hpeek (given_eq hreadCond) (given_eq hreadBody) (given_eq hclose)]
    exact h.loop ahead afterCond afterBody last condition inner closed hpeek (given_eq hreadCond)
      ihinner (given_eq hclose)
  case case8 =>
    intro ahead more _ hpeek
    rw [readStmt_ret more hpeek]
    exact h.ret ahead hpeek
  case case9 =>
    intro ahead more _ hpeek locals afterLocals _ hreadLocals inner afterBody _ hreadBody closed
      last _ hclose ihinner
    rw [given_eq hreadBody] at ihinner
    rw [readStmt_block more hpeek (given_eq hreadLocals) (given_eq hreadBody) (given_eq hclose)]
    exact h.block ahead afterLocals afterBody last locals inner closed hpeek
      (given_eq hreadLocals) ihinner (given_eq hclose)
  case case10 =>
    intro ahead more _ hidentifier hcall hif hwhile hreturn hbegin
    rw [readStmt_missing more hidentifier hcall hif hwhile hreturn hbegin]
    exact h.missing ahead hidentifier hcall hif hwhile hreturn hbegin
  case case11 =>
    intro ahead hends
    rw [readStmts_done hends]
    exact h.done ahead hends
  case case12 =>
    intro ahead hends first afterFirst _ hread next _ hskip rest last _ hrest ihfirst ihrest
    obtain rfl : (skipSemicolons afterFirst).val = next := by rw [hskip]
    rw [given_eq hread] at ihfirst
    rw [given_eq hrest] at ihrest
    rw [readStmts_more hends (given_eq hread) (given_eq hrest)]
    exact h.more ahead afterFirst last first rest hends ihfirst ihrest

/-- What is kept in every way in which the readers go on is so of all statements read. -/
theorem StmtReading.holds {single body : Ahead → Stmt × Ahead → Prop} (h : StmtReading single body)
    {result : Stmt × Ahead} (hread : given (readStmts ahead) = result) : body ahead result :=
  hread ▸ h.all.2 ahead

def givenProcedure (result : Heading × Decls × Stmt × Left ahead) :
    Heading × Decls × Stmt × Ahead :=
  (result.1, result.2.1, result.2.2.1, result.2.2.2.val)

theorem givenProcedure_eq {result : Heading × Decls × Stmt × Left ahead} {heading : Heading}
    {locals : Decls} {body : Stmt} {left : Ahead} {h : left.tokens.length ≤ ahead.tokens.length}
    (hresult : result = (heading, locals, body, ⟨left, h⟩)) :
    givenProcedure result = (heading, locals, body, left) := by
  rw [hresult]
  rfl

/-- The semicolon after a procedure is passed over. -/
def pass (mark : Sign) (ahead : Ahead) : Ahead :=
  if ahead.peek = .sign mark then ahead.skip else ahead

theorem optionally_pass (mark : Sign) (ahead : Ahead) :
    Optionally mark ahead.tokens (pass mark ahead).tokens := by
  unfold pass
  split
  · next hpeek =>
    obtain ⟨span, htokens, -⟩ := tokens_of_peek hpeek (by simp)
    rw [htokens]
    exact .present
  · exact .absent

theorem readProcedure_eq {name : Ident} (hname : ahead.identifier = .ok name)
    (hsemicolon : ahead.skip.peek = .sign .semicolon) {locals : Decls} {body closed : Stmt}
    {afterLocals afterBody last : Ahead}
    (hlocals : given (readDecls ahead.skip.skip) = (locals, afterLocals))
    (hbegin : afterLocals.peek = .keyword .begin_)
    (hbody : given (readStmts afterLocals.skip) = (body, afterBody))
    (hclose : given (closeBody body afterBody) = (closed, last)) :
    givenProcedure (readProcedure ahead) = (.named name, locals, closed, pass .semicolon last) := by
  cases hlocals
  cases hbody
  cases hclose
  rw [readProcedure]
  simp only [hname, expect_of_peek hsemicolon, expect_of_peek hbegin]
  unfold pass
  split <;> rfl

theorem givenProcedure_readProcedure (ahead : Ahead) :
    givenProcedure (readProcedure ahead) =
      match ahead.identifier with
      | .error mistake => (.unnamed mistake, .nil, .skip, ahead.drop)
      | .ok name =>
        match ahead.skip.expect (.sign .semicolon) with
        | .error mistake => (.unended name mistake, .nil, .skip, ahead.drop)
        | .ok _ =>
          let (locals, afterLocals) := given (readDecls ahead.skip.skip)
          match afterLocals.expect (.keyword .begin_) with
          | .error mistake => (.named name, locals, .stop mistake, afterLocals.drop)
          | .ok _ =>
            let (body, afterBody) := given (readStmts afterLocals.skip)
            let (closed, last) := given (closeBody body afterBody)
            (.named name, locals, closed, pass .semicolon last) := by
  rw [readProcedure]
  rcases ahead.identifier with mistake | name
  · rfl
  dsimp only
  rcases ahead.skip.expect (.sign .semicolon) with mistake | _
  · rfl
  obtain ⟨locals, afterLocals, hlocals⟩ := readDecls ahead.skip.skip
  dsimp only [given]
  rcases afterLocals.expect (.keyword .begin_) with mistake | _
  · rfl
  dsimp only
  unfold pass
  split <;> rfl

theorem readDecls_plain {declaration : Declaration} {left : ahead.Less}
    (hread : readDeclaration? ahead = some (declaration, left)) {rest : Decls} {last : Ahead}
    (hrest : given (readDecls left.val) = (rest, last)) :
    given (readDecls ahead) = (.plain declaration rest, last) := by
  cases hrest
  rw [readDecls]
  simp only [hread]
  rfl

theorem readDecls_nested (hread : readDeclaration? ahead = none)
    (hpeek : ahead.peek = .keyword .procedure) {heading : Heading} {locals rest : Decls}
    {body : Stmt} {left last : Ahead}
    (hprocedure : givenProcedure (readProcedure ahead.skip) = (heading, locals, body, left))
    (hrest : given (readDecls left) = (rest, last)) :
    given (readDecls ahead) = (.nested heading locals body rest, last) := by
  cases hprocedure
  cases hrest
  rw [readDecls]
  simp only [hread, hpeek, dite_true]
  rfl

theorem readDecls_done (hread : readDeclaration? ahead = none)
    (hpeek : ahead.peek ≠ .keyword .procedure) : given (readDecls ahead) = (.nil, ahead) := by
  rw [readDecls]
  simp only [hread, hpeek, dite_false]
  rfl

/-- Properties of what the readers of a procedure, from behind its keyword, and of declarations
give, which hold in every way in which these can go on. -/
structure DeclsReading (procedure : Ahead → Heading × Decls × Stmt × Ahead → Prop)
    (decls : Ahead → Decls × Ahead → Prop) : Prop where
  unnamed (ahead : Ahead) (mistake : Mistake) (hname : ahead.identifier = .error mistake) :
    procedure ahead (.unnamed mistake, .nil, .skip, ahead.drop)
  unended (ahead : Ahead) (name : Ident) (mistake : Mistake) (hname : ahead.identifier = .ok name)
    (hsemicolon : ahead.skip.expect (.sign .semicolon) = .error mistake) :
    procedure ahead (.unended name mistake, .nil, .skip, ahead.drop)
  unbegun (ahead afterLocals : Ahead) (name : Ident) (locals : Decls) (mistake : Mistake)
    (hname : ahead.identifier = .ok name) (hsemicolon : ahead.skip.peek = .sign .semicolon)
    (hlocals : decls ahead.skip.skip (locals, afterLocals))
    (hbegin : afterLocals.expect (.keyword .begin_) = .error mistake) :
    procedure ahead (.named name, locals, .stop mistake, afterLocals.drop)
  ended (ahead afterLocals afterBody last : Ahead) (name : Ident) (locals : Decls)
    (body closed : Stmt) (hname : ahead.identifier = .ok name)
    (hsemicolon : ahead.skip.peek = .sign .semicolon)
    (hlocals : decls ahead.skip.skip (locals, afterLocals))
    (hbegin : afterLocals.peek = .keyword .begin_)
    (hbody : given (readStmts afterLocals.skip) = (body, afterBody))
    (hclose : given (closeBody body afterBody) = (closed, last)) :
    procedure ahead (.named name, locals, closed, pass .semicolon last)
  plain (ahead last : Ahead) (left : ahead.Less) (declaration : Declaration) (rest : Decls)
    (hread : readDeclaration? ahead = some (declaration, left)) (hrest : decls left.val (rest, last)) :
    decls ahead (.plain declaration rest, last)
  nested (ahead left last : Ahead) (heading : Heading) (locals rest : Decls) (body : Stmt)
    (hread : readDeclaration? ahead = none) (hpeek : ahead.peek = .keyword .procedure)
    (hprocedure : procedure ahead.skip (heading, locals, body, left))
    (hrest : decls left (rest, last)) : decls ahead (.nested heading locals body rest, last)
  done (ahead : Ahead) (hread : readDeclaration? ahead = none)
    (hpeek : ahead.peek ≠ .keyword .procedure) : decls ahead (.nil, ahead)

private theorem DeclsReading.all {procedure : Ahead → Heading × Decls × Stmt × Ahead → Prop}
    {decls : Ahead → Decls × Ahead → Prop} (h : DeclsReading procedure decls) :
    (∀ ahead, procedure ahead (givenProcedure (readProcedure ahead))) ∧
      ∀ ahead, decls ahead (given (readDecls ahead)) := by
  apply readProcedure.mutual_induct
  case case1 =>
    intro ahead mistake hname
    simp only [givenProcedure_readProcedure, hname]
    exact h.unnamed ahead mistake hname
  case case2 =>
    intro ahead name hname mistake hsemicolon
    simp only [givenProcedure_readProcedure, hname, hsemicolon]
    exact h.unended ahead name mistake hname hsemicolon
  case case3 =>
    intro ahead name hname _ hsemicolon _ _ locals afterLocals _ hlocals mistake hbegin ih
    rw [given_eq hlocals] at ih
    simp only [givenProcedure_readProcedure, hname, hsemicolon, given_eq hlocals, hbegin]
    exact h.unbegun ahead afterLocals name locals mistake hname (peek_of_expect hsemicolon) ih hbegin
  -- The semicolon after a procedure is there in the first case and not in the second.
  case case4 | case5 =>
    intro ahead name hname _ hsemicolon _ _ locals afterLocals _ hlocals _ hbegin _ body afterBody _
      hbody closed last _ hclose _ _ ih
    rw [given_eq hlocals] at ih
    rw [readProcedure_eq hname (peek_of_expect hsemicolon) (given_eq hlocals)
      (peek_of_expect hbegin) (given_eq hbody) (given_eq hclose)]
    exact h.ended ahead afterLocals afterBody last name locals body closed hname
      (peek_of_expect hsemicolon) ih (peek_of_expect hbegin) (given_eq hbody) (given_eq hclose)
  case case6 =>
    intro ahead declaration left hleft hread rest last _ hrest ih
    rw [given_eq hrest] at ih
    rw [readDecls_plain hread (given_eq hrest)]
    exact h.plain ahead last ⟨left, hleft⟩ declaration rest hread ih
  case case7 =>
    intro ahead hread hpeek _ heading locals body left _ hprocedure rest last _ hrest ihprocedure ih
    rw [givenProcedure_eq hprocedure] at ihprocedure
    rw [given_eq hrest] at ih
    rw [readDecls_nested hread hpeek (givenProcedure_eq hprocedure) (given_eq hrest)]
    exact h.nested ahead left last heading locals rest body hread hpeek ihprocedure ih
  case case8 =>
    intro ahead hread hpeek
    rw [readDecls_done hread hpeek]
    exact h.done ahead hread hpeek

/-- What is kept in every way in which the readers go on is so of every procedure read. -/
theorem DeclsReading.holds {procedure : Ahead → Heading × Decls × Stmt × Ahead → Prop}
    {decls : Ahead → Decls × Ahead → Prop} (h : DeclsReading procedure decls)
    {result : Heading × Decls × Stmt × Ahead}
    (hread : givenProcedure (readProcedure ahead) = result) : procedure ahead result :=
  hread ▸ h.all.1 ahead

theorem readProgram_plain {declaration : Declaration} {left : ahead.Less}
    (hread : readDeclaration? ahead = some (declaration, left)) :
    (readProgram ahead).decls = .plain declaration (readProgram left.val).decls := by
  rw [readProgram, hread]

theorem readProgram_procedure (hread : readDeclaration? ahead = none)
    (hpeek : ahead.peek = .keyword .procedure) {heading : Heading} {locals : Decls} {body : Stmt}
    {left : Ahead}
    (hprocedure : givenProcedure (readProcedure ahead.skip) = (heading, locals, body, left))
    (hend : (pass .dot left).peek = .eof) :
    (readProgram ahead).decls = .nested heading locals body .nil := by
  cases hprocedure
  rw [readProgram, hread]
  simp only [hpeek, if_true]
  exact congrArg _ (if_pos hend)

/-- What has to follow the procedure of a program is the end. -/
def ending (last : Ahead) : Decls :=
  if last.peek = .eof then .nil else .stop (last.refuse (.expectedEnd last.peek))

theorem readProgram_nested (hread : readDeclaration? ahead = none)
    (hpeek : ahead.peek = .keyword .procedure) {heading : Heading} {locals : Decls} {body : Stmt}
    {left : Ahead}
    (hprocedure : givenProcedure (readProcedure ahead.skip) = (heading, locals, body, left)) :
    readProgram ahead =
      ⟨.nested heading locals body (ending (pass .dot left)), (pass .dot left).reached⟩ := by
  cases hprocedure
  rw [readProgram, hread]
  simp only [hpeek, if_true]
  rfl

end BlockLang.Tree
