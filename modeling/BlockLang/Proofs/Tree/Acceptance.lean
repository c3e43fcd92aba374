import BlockLang.Proofs.Tree.Derivation

/-! Tokens that spell a tree are read as that tree. A reader stops where the next token
cannot go on, so what follows must not begin like a continuation. -/

namespace BlockLang.Tree

open Ahead

/-- The first of the tokens, which may be the end of input. -/
def upcoming (tokens : List Lexeme) : Token :=
  (tokens.head?.map Lexeme.token).getD .eof

variable {ahead : Ahead} {before after : List Lexeme}

theorem peek_eq_upcoming (h : ahead.tokens = before) : ahead.peek = upcoming before := by
  subst h
  rfl

theorem Ahead.of_tokens {token : Token} {span : Span} (h : ahead.tokens = ⟨token, span⟩ :: after) :
    ahead.peek = token ∧ ahead.place = span.toPlace ∧ ahead.skip.tokens = after := by
  simp [peek, place, skip, h]

theorem Ahead.identifier_of_tokens {name : String} {span : Span}
    (h : ahead.tokens = ⟨.identifier name, span⟩ :: after) :
    ahead.identifier = .ok ⟨name, span.toPlace⟩ := by
  obtain ⟨hpeek, hplace, -⟩ := Ahead.of_tokens h
  simp [identifier, hpeek, hplace]

/-- No operator comes next. -/
def Settles (token : Token) : Prop :=
  Operator.ofMultiplying? token = none ∧ Operator.ofAdding? token = none

theorem ofMultiplying?_of_ofAdding? {token : Token} {op : Operator}
    (h : Operator.ofAdding? token = some op) : Operator.ofMultiplying? token = none := by
  unfold Operator.ofAdding? at h
  split at h
  · rfl
  · rfl
  · cases h

/-- How far reading gets with the tokens of an expression. A term or a sum may still go on,
and then what was read is its first operand. -/
def Expr.Reaches (rank : Rank) (expr : Expr) (ahead : Ahead) (after : List Lexeme) : Prop :=
  match rank with
  | .factor => ∃ left, left.tokens = after ∧ given (readFactor ahead) = (expr, left)
  | .term => ∃ left, left.tokens = after ∧
      given (readTerm ahead) = given (readFactors expr left)
  | .sum => Operator.ofMultiplying? (upcoming after) = none → ∃ left, left.tokens = after ∧
      given (readExpr ahead) = given (readTerms expr left)

theorem Expr.Reaches.readTerm {expr : Expr} (h : Expr.Reaches .term expr ahead after)
    (hafter : Operator.ofMultiplying? (upcoming after) = none) :
    ∃ left, left.tokens = after ∧ given (readTerm ahead) = (expr, left) := by
  obtain ⟨left, hleft, hread⟩ := h
  rw [← peek_eq_upcoming hleft] at hafter
  exact ⟨left, hleft, hread.trans (readFactors_done hafter expr)⟩

theorem Expr.Reaches.readExpr {expr : Expr} (h : Expr.Reaches .sum expr ahead after)
    (hafter : Settles (upcoming after)) :
    ∃ left, left.tokens = after ∧ given (readExpr ahead) = (expr, left) := by
  obtain ⟨left, hleft, hread⟩ := h hafter.1
  have hadding := hafter.2
  rw [← peek_eq_upcoming hleft] at hadding
  exact ⟨left, hleft, hread.trans (readTerms_done hadding expr)⟩

theorem Expr.Derives.reaches {rank : Rank} {expr : Expr} (h : expr.Derives rank before after)
    (hahead : ahead.tokens = before) : Expr.Reaches rank expr ahead after := by
  induction h generalizing ahead with
  | number hvalue =>
    obtain ⟨hpeek, -, hskip⟩ := Ahead.of_tokens hahead
    exact ⟨ahead.skip, hskip, readFactor_number hpeek hvalue⟩
  | name =>
    obtain ⟨hpeek, hplace, hskip⟩ := Ahead.of_tokens hahead
    rw [← hplace]
    exact ⟨ahead.skip, hskip, readFactor_name hpeek⟩
  | paren _ ih =>
    obtain ⟨hpeek, -, hskip⟩ := Ahead.of_tokens hahead
    obtain ⟨left, hleft, hread⟩ := (ih hskip).readExpr ⟨rfl, rfl⟩
    obtain ⟨hclose, -, hskip'⟩ := Ahead.of_tokens hleft
    exact ⟨left.skip, hskip', readFactor_paren hpeek hread hclose⟩
  | negate _ ih =>
    obtain ⟨hpeek, -, hskip⟩ := Ahead.of_tokens hahead
    obtain ⟨left, hleft, hread⟩ := ih hskip
    exact ⟨left, hleft, readFactor_negate hpeek hread⟩
  | factor _ ih =>
    obtain ⟨left, hleft, hread⟩ := ih hahead
    exact ⟨left, hleft, readTerm_eq hread⟩
  | multiply hop _ _ ihleft ihright =>
    obtain ⟨middle, hmiddle, hread⟩ := ihleft hahead
    obtain ⟨hpeek, -, hskip⟩ := Ahead.of_tokens hmiddle
    rw [← hpeek] at hop
    obtain ⟨left, hleft, hread'⟩ := ihright hskip
    exact ⟨left, hleft, hread.trans (readFactors_more hop hread' _)⟩
  | term _ ih =>
    intro hafter
    obtain ⟨left, hleft, hread⟩ := (ih hahead).readTerm hafter
    exact ⟨left, hleft, readExpr_eq hread⟩
  | add hop _ _ ihleft ihright =>
    intro hafter
    obtain ⟨middle, hmiddle, hread⟩ := ihleft hahead (ofMultiplying?_of_ofAdding? hop)
    obtain ⟨hpeek, -, hskip⟩ := Ahead.of_tokens hmiddle
    rw [← hpeek] at hop
    obtain ⟨left, hleft, hread'⟩ := (ihright hskip).readTerm hafter
    exact ⟨left, hleft, hread.trans (readTerms_more hop hread' _)⟩

theorem Expr.Derives.read {expr : Expr} (h : expr.Derives .sum before after)
    (hahead : ahead.tokens = before) (hafter : Settles (upcoming after)) :
    ∃ left, left.tokens = after ∧ given (readExpr ahead) = (expr, left) :=
  (h.reaches hahead).readExpr hafter

theorem settles_of_ofToken? {token : Token} {op : Comparison}
    (h : Comparison.ofToken? token = some op) : Settles token := by
  unfold Comparison.ofToken? at h
  split at h
  all_goals first | exact ⟨rfl, rfl⟩ | cases h

theorem Cond.Derives.read {cond : Cond} {word : Keyword} {span : Span}
    (h : cond.Derives before (⟨.keyword word, span⟩ :: after)) (hahead : ahead.tokens = before)
    (hword : Settles (.keyword word)) :
    ∃ left, left.tokens = after ∧ given (readCond word ahead) = (cond, left) := by
  obtain ⟨hop, hleft, hright⟩ := h
  obtain ⟨middle, hmiddle, hread⟩ := hleft.read hahead (settles_of_ofToken? hop)
  obtain ⟨hpeek, -, hskip⟩ := Ahead.of_tokens hmiddle
  obtain ⟨last, hlast, hread'⟩ := hright.read hskip hword
  obtain ⟨hpeek', -, hskip'⟩ := Ahead.of_tokens hlast
  refine ⟨last.skip, hskip', ?_⟩
  cases hread
  cases hread'
  rw [← hpeek] at hop
  unfold readCond
  simp only [hop, expect_of_peek hpeek']
  rfl

theorem ConstValue.Derives.read {value : ConstValue} (h : value.Derives before after)
    (hahead : ahead.tokens = before) :
    ∃ left, left.val.tokens = after ∧ readConstValue ahead = .ok (value, left) := by
  unfold readConstValue
  cases h with
  | number =>
    obtain ⟨hpeek, -, hskip⟩ := Ahead.of_tokens hahead
    rw [hpeek]
    exact ⟨_, hskip, rfl⟩
  | negative =>
    obtain ⟨hpeek, -, hskip⟩ := Ahead.of_tokens hahead
    obtain ⟨hpeek', -, hskip'⟩ := Ahead.of_tokens hskip
    rw [hpeek]
    dsimp only
    rw [hpeek']
    exact ⟨_, hskip', rfl⟩
  | string =>
    obtain ⟨hpeek, -, hskip⟩ := Ahead.of_tokens hahead
    rw [hpeek]
    exact ⟨_, hskip, rfl⟩
  | copy =>
    obtain ⟨hpeek, hplace, hskip⟩ := Ahead.of_tokens hahead
    rw [hpeek, ← hplace]
    exact ⟨_, hskip, rfl⟩

theorem NamesDerive.read {names : List Ident} (h : NamesDerive names before after)
    (hahead : ahead.tokens = before) (hafter : upcoming after ≠ .sign .comma) :
    ∃ left, left.val.tokens = after ∧ readNames ahead = .ok (names, left) := by
  induction h generalizing ahead with
  | last =>
    obtain ⟨-, -, hskip⟩ := Ahead.of_tokens hahead
    rw [← peek_eq_upcoming hskip] at hafter
    rw [readNames, Ahead.identifier_of_tokens hahead]
    simp only [dif_neg hafter]
    exact ⟨_, hskip, rfl⟩
  | more _ ih =>
    obtain ⟨-, -, hskip⟩ := Ahead.of_tokens hahead
    obtain ⟨hcomma, -, hskip'⟩ := Ahead.of_tokens hskip
    obtain ⟨left, hleft, hread⟩ := ih hskip' hafter
    rw [readNames, Ahead.identifier_of_tokens hahead]
    simp only [dif_pos hcomma, hread]
    exact ⟨_, hleft, rfl⟩

private theorem ok_bind {ε α β : Type} {step : Except ε α} {value : α} (h : step = .ok value)
    (next : α → Except ε β) : (step >>= next) = next value := by
  rw [h]
  rfl

theorem read_const {name : String} {value : ConstValue} {span equal last : Span}
    (hvalue : value.Derives before (⟨.sign .semicolon, last⟩ :: after))
    (hahead : ahead.tokens = ⟨.identifier name, span⟩ :: ⟨.sign .equal, equal⟩ :: before) :
    ∃ left, left.val.tokens = after ∧
      readConst ahead = .ok (.const ⟨name, span.toPlace⟩ value, left) := by
  obtain ⟨-, -, hskip⟩ := Ahead.of_tokens hahead
  obtain ⟨hequal, -, hskip'⟩ := Ahead.of_tokens hskip
  obtain ⟨⟨left, hbound⟩, hleft, hread⟩ := hvalue.read hskip'
  obtain ⟨hend, -, hlast⟩ := Ahead.of_tokens hleft
  unfold readConst
  rw [ok_bind (Ahead.identifier_of_tokens hahead), ok_bind (expect_of_peek hequal), ok_bind hread]
  dsimp only at hend ⊢
  rw [expect_of_peek hend]
  exact ⟨_, hlast, rfl⟩

theorem read_vars {names : List Ident} {type : IntType} {typeName : String} {colon span last : Span}
    (htype : IntType.ofName? typeName = some type)
    (hnames : NamesDerive names before (⟨.sign .colon, colon⟩ :: ⟨.identifier typeName, span⟩ ::
      ⟨.sign .semicolon, last⟩ :: after)) (hahead : ahead.tokens = before) :
    ∃ left, left.val.tokens = after ∧ readVars ahead = .ok (.vars names type, left) := by
  obtain ⟨⟨left, hbound⟩, hleft, hread⟩ := hnames.read hahead (by simp [upcoming])
  obtain ⟨hcolon, -, hskip⟩ := Ahead.of_tokens hleft
  obtain ⟨-, -, hskip'⟩ := Ahead.of_tokens hskip
  obtain ⟨hend, -, hlast⟩ := Ahead.of_tokens hskip'
  have htypeName : left.skip.typeName = .ok type := by
    unfold Ahead.typeName
    rw [ok_bind (Ahead.identifier_of_tokens hskip)]
    simp only [htype]
    rfl
  unfold readVars
  rw [ok_bind hread]
  dsimp only at hcolon hend ⊢
  rw [ok_bind (expect_of_peek hcolon), ok_bind htypeName, ok_bind (expect_of_peek hend)]
  exact ⟨_, hlast, rfl⟩

theorem Declaration.Derives.read {declaration : Declaration} (h : declaration.Derives before after)
    (hahead : ahead.tokens = before) :
    ∃ left, left.val.tokens = after ∧ readDeclaration? ahead = some (declaration, left) := by
  unfold readDeclaration?
  cases h with
  | const hvalue =>
    obtain ⟨hpeek, -, hskip⟩ := Ahead.of_tokens hahead
    obtain ⟨left, hleft, hread⟩ := read_const hvalue hskip
    simp only [dif_pos hpeek, hread]
    exact ⟨_, hleft, rfl⟩
  | vars htype hnames =>
    obtain ⟨hpeek, -, hskip⟩ := Ahead.of_tokens hahead
    obtain ⟨left, hleft, hread⟩ := read_vars htype hnames hskip
    have hconst : ahead.peek ≠ .keyword .const := by simp [hpeek]
    simp only [dif_neg hconst, dif_pos hpeek, hread]
    exact ⟨_, hleft, rfl⟩

/-- No declaration of a constant or of variables comes next. -/
def Declared (token : Token) : Prop := token ≠ .keyword .const ∧ token ≠ .keyword .var

theorem readDeclaration?_none (h : Declared ahead.peek) : readDeclaration? ahead = none := by
  unfold readDeclaration?
  simp only [dif_neg h.1, dif_neg h.2]

theorem LocalsDerive.read {locals : List Declaration} (h : LocalsDerive locals before after)
    (hahead : ahead.tokens = before) (hafter : Declared (upcoming after)) :
    ∃ left, left.tokens = after ∧ given (readDeclarations ahead) = (locals, left) := by
  induction h generalizing ahead with
  | nil =>
    rw [← peek_eq_upcoming hahead] at hafter
    refine ⟨ahead, hahead, ?_⟩
    rw [readDeclarations, readDeclaration?_none hafter]
    rfl
  | cons hfirst _ ih =>
    obtain ⟨middle, hmiddle, hread⟩ := hfirst.read hahead
    obtain ⟨left, hleft, hread'⟩ := ih hmiddle hafter
    refine ⟨left, hleft, ?_⟩
    cases hread'
    rw [readDeclarations]
    simp only [hread]
    rfl

def startsStmt : Token → Bool
  | .identifier _ | .keyword .call | .keyword .if_ | .keyword .while_ | .keyword .return_
  | .keyword .begin_ => true
  | _ => false

theorem Stmt.Derives.starts {stmt : Stmt} (h : stmt.Derives .single before after) :
    startsStmt (upcoming before) = true := by
  cases h <;> rfl

theorem Stmt.Derives.starts_body {body : Stmt} (h : body.Derives .body before after) :
    before = after ∨ startsStmt (upcoming before) = true := by
  cases h with
  | skip => exact .inl rfl
  | seq hfirst _ _ => exact .inr hfirst.starts

/-- A body does not begin like a declaration. -/
theorem Stmt.Derives.declared {body : Stmt} {span : Span}
    (h : body.Derives .body before (⟨.keyword .end_, span⟩ :: after)) :
    Declared (upcoming before) := by
  rcases h.starts_body with rfl | hstarts
  · simp [Declared, upcoming]
  · refine ⟨fun heq => ?_, fun heq => ?_⟩ <;>
      (rw [heq] at hstarts; cases hstarts)

/-- Tokens that do not go on with a statement. -/
def Parts (token : Token) : Prop := Settles token ∧ token ≠ .sign .assign

theorem parts_of_startsStmt {token : Token} (h : startsStmt token = true) : Parts token := by
  unfold startsStmt at h
  split at h
  all_goals first | exact ⟨⟨rfl, rfl⟩, by simp⟩ | cases h

theorem parts_of_endsBody {token : Token} (h : endsBody token = true) : Parts token := by
  unfold endsBody at h
  split at h
  all_goals first | exact ⟨⟨rfl, rfl⟩, by simp⟩ | cases h

theorem endsBody_of_startsStmt {token : Token} (h : startsStmt token = true) :
    endsBody token = false := by
  unfold startsStmt at h
  split at h
  all_goals first | rfl | cases h

theorem Semicolons.skip (h : Semicolons before after) (hahead : ahead.tokens = before)
    (hafter : upcoming after ≠ .sign .semicolon) : (skipSemicolons ahead).val.tokens = after := by
  induction h generalizing ahead with
  | none =>
    rw [← peek_eq_upcoming hahead] at hafter
    rw [skipSemicolons]
    simp only [dif_neg hafter]
    exact hahead
  | more _ ih =>
    obtain ⟨hpeek, -, hskip⟩ := Ahead.of_tokens hahead
    rw [skipSemicolons]
    simp only [dif_pos hpeek]
    exact ih hskip hafter

/-- After a statement come semicolons, another statement or the end of the body. -/
theorem Semicolons.parts {middle next : List Lexeme} {rest : Stmt} (h : Semicolons middle next)
    (hrest : rest.Derives .body next after) (hafter : endsBody (upcoming after) = true) :
    Parts (upcoming middle) ∧ upcoming next ≠ .sign .semicolon := by
  have hnext : endsBody (upcoming next) = true ∨ startsStmt (upcoming next) = true := by
    rcases hrest.starts_body with rfl | hstarts
    · exact .inl hafter
    · exact .inr hstarts
  have hends : Parts (upcoming next) ∧ upcoming next ≠ .sign .semicolon := by
    rcases hnext with hends | hstarts
    · exact ⟨parts_of_endsBody hends, fun heq => by rw [heq] at hends; cases hends⟩
    · exact ⟨parts_of_startsStmt hstarts, fun heq => by rw [heq] at hstarts; cases hstarts⟩
  cases h with
  | none => exact hends
  | more _ => exact ⟨⟨⟨rfl, rfl⟩, by simp [upcoming]⟩, hends.2⟩

/-- Reading gets to the end of a statement, or of a body, if what follows lets it stop. -/
def Stmt.Reads (extent : Extent) (stmt : Stmt) (ahead : Ahead) (after : List Lexeme) : Prop :=
  match extent with
  | .single => Parts (upcoming after) → ∀ more,
      ∃ left, left.tokens = after ∧ given (readStmt ahead more) = (stmt, left)
  | .body => endsBody (upcoming after) = true →
      ∃ left, left.tokens = after ∧ given (readStmts ahead) = (stmt, left)

theorem Stmt.Derives.reads {extent : Extent} {stmt : Stmt} (h : stmt.Derives extent before after)
    (hahead : ahead.tokens = before) : Stmt.Reads extent stmt ahead after := by
  induction h generalizing ahead with
  | assign hvalue =>
    intro hafter more
    obtain ⟨hpeek, hplace, hskip⟩ := Ahead.of_tokens hahead
    obtain ⟨hassign, -, hskip'⟩ := Ahead.of_tokens hskip
    obtain ⟨left, hleft, hread⟩ := hvalue.read hskip' hafter.1
    rw [← hplace]
    exact ⟨left, hleft, readStmt_assign more hpeek hassign hread⟩
  | call =>
    intro hafter more
    obtain ⟨hpeek, hplace, hskip⟩ := Ahead.of_tokens hahead
    have hassign := hafter.2
    rw [← peek_eq_upcoming hskip] at hassign
    rw [← hplace]
    exact ⟨ahead.skip, hskip, readStmt_call more hpeek hassign⟩
  | callWord =>
    intro hafter more
    obtain ⟨hpeek, -, hskip⟩ := Ahead.of_tokens hahead
    obtain ⟨-, -, hskip'⟩ := Ahead.of_tokens hskip
    exact ⟨ahead.skip.skip, hskip', readStmt_callWord more hpeek (Ahead.identifier_of_tokens hskip)⟩
  | branch hcondition _ ihyes =>
    intro hafter more
    obtain ⟨hpeek, -, hskip⟩ := Ahead.of_tokens hahead
    obtain ⟨afterCond, hafterCond, hreadCond⟩ := hcondition.read hskip ⟨rfl, rfl⟩
    obtain ⟨afterYes, hafterYes, hreadYes⟩ := ihyes hafterCond rfl
    obtain ⟨hend, -, hlast⟩ := Ahead.of_tokens hafterYes
    refine ⟨afterYes.skip, hlast, ?_⟩
    exact readStmt_branch more hpeek hreadCond hreadYes (by simp [hend]) (closeBody_eq hend _)
  | branchElse hcondition _ _ ihyes ihno =>
    intro hafter more
    obtain ⟨hpeek, -, hskip⟩ := Ahead.of_tokens hahead
    obtain ⟨afterCond, hafterCond, hreadCond⟩ := hcondition.read hskip ⟨rfl, rfl⟩
    obtain ⟨afterYes, hafterYes, hreadYes⟩ := ihyes hafterCond rfl
    obtain ⟨helse, -, hskip'⟩ := Ahead.of_tokens hafterYes
    obtain ⟨afterNo, hafterNo, hreadNo⟩ := ihno hskip' rfl
    obtain ⟨hend, -, hlast⟩ := Ahead.of_tokens hafterNo
    refine ⟨afterNo.skip, hlast, ?_⟩
    exact readStmt_branchElse more hpeek hreadCond hreadYes helse hreadNo (closeBody_eq hend _)
  | loop hcondition _ ihbody =>
    intro hafter more
    obtain ⟨hpeek, -, hskip⟩ := Ahead.of_tokens hahead
    obtain ⟨afterCond, hafterCond, hreadCond⟩ := hcondition.read hskip ⟨rfl, rfl⟩
    obtain ⟨afterBody, hafterBody, hreadBody⟩ := ihbody hafterCond rfl
    obtain ⟨hend, -, hlast⟩ := Ahead.of_tokens hafterBody
    exact ⟨afterBody.skip, hlast, readStmt_loop more hpeek hreadCond hreadBody (closeBody_eq hend _)⟩
  | ret =>
    intro hafter more
    obtain ⟨hpeek, -, hskip⟩ := Ahead.of_tokens hahead
    exact ⟨ahead.skip, hskip, readStmt_ret more hpeek⟩
  | block hlocals hbody ihbody =>
    intro hafter more
    obtain ⟨hpeek, -, hskip⟩ := Ahead.of_tokens hahead
    obtain ⟨afterLocals, hafterLocals, hreadLocals⟩ := hlocals.read hskip hbody.declared
    obtain ⟨afterBody, hafterBody, hreadBody⟩ := ihbody hafterLocals rfl
    obtain ⟨hend, -, hlast⟩ := Ahead.of_tokens hafterBody
    refine ⟨afterBody.skip, hlast, ?_⟩
    exact readStmt_block more hpeek hreadLocals hreadBody (closeBody_eq hend _)
  | skip =>
    intro hafter
    rw [← peek_eq_upcoming hahead] at hafter
    exact ⟨ahead, hahead, readStmts_done hafter⟩
  | seq hfirst hsemicolons hsecond ihfirst ihsecond =>
    intro hafter
    obtain ⟨hparts, hnext⟩ := hsemicolons.parts hsecond hafter
    have hstarts := hfirst.starts
    rw [← peek_eq_upcoming hahead] at hstarts
    have hgoes : ¬endsBody ahead.peek = true := by simp [endsBody_of_startsStmt hstarts]
    have hmore : ahead.peek ≠ .eof := fun heof => by rw [heof] at hstarts; cases hstarts
    obtain ⟨middle, hmiddle, hread⟩ := ihfirst hahead hparts hmore
    obtain ⟨left, hleft, hread'⟩ := ihsecond (hsemicolons.skip hmiddle hnext) hafter
    exact ⟨left, hleft, readStmts_more hgoes hread hread'⟩

theorem Optionally.tokens_pass {mark : Sign} (h : Optionally mark before after)
    (hahead : ahead.tokens = before) (hafter : upcoming after ≠ .sign mark) :
    (pass mark ahead).tokens = after := by
  unfold pass
  cases h with
  | absent =>
    rw [← peek_eq_upcoming hahead] at hafter
    rw [if_neg hafter]
    exact hahead
  | present =>
    obtain ⟨hpeek, -, hskip⟩ := Ahead.of_tokens hahead
    rw [if_pos hpeek]
    exact hskip

/-- Neither a declaration comes next nor the end of one. -/
def Undeclares (token : Token) : Prop :=
  Declared token ∧ token ≠ .keyword .procedure ∧ token ≠ .sign .semicolon

theorem Decls.Derives.upcoming_ne {decls : Decls} (h : decls.Derives before after)
    (hafter : Undeclares (upcoming after)) : upcoming before ≠ .sign .semicolon := by
  cases h with
  | nil => exact hafter.2.2
  | plain hfirst _ => cases hfirst <;> simp [upcoming]
  | nested _ _ _ _ => simp [upcoming]

theorem read_procedure {name : String} {locals : Decls} {body : Stmt} {end_ middle : List Lexeme}
    {span semicolon first last : Span}
    (hlocals : ∀ ahead : Ahead, ahead.tokens = before → ∃ left,
      left.tokens = ⟨.keyword .begin_, first⟩ :: middle ∧ given (readDecls ahead) = (locals, left))
    (hbody : body.Derives .body middle (⟨.keyword .end_, last⟩ :: after))
    (hsemicolon : Optionally .semicolon after end_) (hend : upcoming end_ ≠ .sign .semicolon)
    (hahead : ahead.tokens =
      ⟨.identifier name, span⟩ :: ⟨.sign .semicolon, semicolon⟩ :: before) :
    ∃ left, left.tokens = end_ ∧
      givenProcedure (readProcedure ahead) = (.named ⟨name, span.toPlace⟩, locals, body, left) := by
  obtain ⟨-, -, hskip⟩ := Ahead.of_tokens hahead
  obtain ⟨hpeek, -, hskip'⟩ := Ahead.of_tokens hskip
  obtain ⟨afterLocals, hafterLocals, hreadLocals⟩ := hlocals _ hskip'
  obtain ⟨hbegin, -, hskip''⟩ := Ahead.of_tokens hafterLocals
  obtain ⟨afterBody, hafterBody, hreadBody⟩ := hbody.reads hskip'' rfl
  obtain ⟨hclose, -, hlast⟩ := Ahead.of_tokens hafterBody
  refine ⟨_, hsemicolon.tokens_pass hlast hend, ?_⟩
  exact readProcedure_eq (Ahead.identifier_of_tokens hahead) hpeek hreadLocals hbegin hreadBody
    (closeBody_eq hclose _)

theorem Decls.Derives.read {decls : Decls} (h : decls.Derives before after)
    (hafter : Undeclares (upcoming after)) (ahead : Ahead) (hahead : ahead.tokens = before) :
    ∃ left, left.tokens = after ∧ given (readDecls ahead) = (decls, left) := by
  induction h generalizing ahead with
  | nil =>
    rw [← peek_eq_upcoming hahead] at hafter
    exact ⟨ahead, hahead, readDecls_done (readDeclaration?_none hafter.1) hafter.2.1⟩
  | plain hfirst _ ih =>
    obtain ⟨middle, hmiddle, hread⟩ := hfirst.read hahead
    obtain ⟨left, hleft, hread'⟩ := ih hafter middle.val hmiddle
    exact ⟨left, hleft, readDecls_plain hread hread'⟩
  | nested _ hbody hsemicolon hrest ihlocals ihrest =>
    obtain ⟨hpeek, -, hskip⟩ := Ahead.of_tokens hahead
    obtain ⟨middle, hmiddle, hread⟩ := read_procedure
      (ihlocals (by simp [Undeclares, Declared, upcoming])) hbody hsemicolon
      (hrest.upcoming_ne hafter) hskip
    obtain ⟨left, hleft, hread'⟩ := ihrest hafter middle hmiddle
    have hnone : readDeclaration? ahead = none := readDeclaration?_none (by simp [hpeek, Declared])
    exact ⟨left, hleft, readDecls_nested hnone hpeek hread hread'⟩

/-- Tokens that spell a program are read as that program. -/
theorem Decls.Spells.read {decls : Decls} (h : decls.Spells before) (ahead : Ahead)
    (hahead : ahead.tokens = before) : (readProgram ahead).decls = decls := by
  induction h generalizing ahead with
  | plain hfirst _ ih =>
    obtain ⟨middle, hmiddle, hread⟩ := hfirst.read hahead
    rw [readProgram_plain hread, ih middle.val hmiddle]
  | @procedure _ _ _ _ after hprocedure hdot =>
    cases hprocedure with
    | nested hlocals hbody hsemicolon hrest =>
      cases hrest
      obtain ⟨hpeek, -, hskip⟩ := Ahead.of_tokens hahead
      have hend : upcoming after ≠ .sign .semicolon := by cases hdot <;> simp [upcoming]
      obtain ⟨left, hleft, hread⟩ := read_procedure
        (hlocals.read (by simp [Undeclares, Declared, upcoming])) hbody hsemicolon hend hskip
      have hlast : (pass .dot left).peek = .eof :=
        peek_eq_upcoming (hdot.tokens_pass hleft (by simp [upcoming]))
      have hnone : readDeclaration? ahead = none := readDeclaration?_none (by simp [hpeek, Declared])
      exact readProgram_procedure hnone hpeek hread hlast

end BlockLang.Tree
