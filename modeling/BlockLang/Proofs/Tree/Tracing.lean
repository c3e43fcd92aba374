import BlockLang.Proofs.Tree.Mistakes
import BlockLang.Proofs.Tree.Predicting

/-! The readers follow the grammar with one token in view. The first mistake of a tree is at the
token where this ends, if every number can be read. -/

namespace BlockLang

open BlockLang.Tree BlockLang.Tree.Ahead Grammar Grammar.Form

namespace Grammar

/-- Where the first of the tokens stands, which may be the end of input. -/
def placeOf (stop : Place) (tokens : List Lexeme) : Place :=
  (tokens.head?.map fun lexeme => lexeme.span.toPlace).getD stop

/-- A form was followed from `ahead` to `last`, or to the place of a mistake. -/
inductive Traced (form : Form) (ahead : Ahead) : Option Mistake → Ahead → Prop
  | passed {last : Ahead} (h : form.Runs ahead.tokens (.passed last.tokens))
    (hstop : last.stop = ahead.stop) : Traced form ahead none last
  | refused {mistake : Mistake} {last : Ahead} {rest : List Lexeme}
    (h : form.Runs ahead.tokens (.refused rest)) (hplace : mistake.place = placeOf ahead.stop rest) :
    Traced form ahead (some mistake) last
  | unreadable {mistake : Mistake} {last : Ahead} {lexeme : Lexeme} (h : lexeme ∈ ahead.tokens)
    (hlexeme : ¬Readable lexeme.token) : Traced form ahead (some mistake) last

variable {form first second third : Form} {ahead middle last : Ahead}
  {mistake? first? second? : Option Mistake} {mistake : Mistake}

theorem accepts_ne_eof {symbol : Terminal} {token : Token} (h : symbol.Accepts token) :
    token ≠ .eof := by
  rintro rfl
  cases h

/-- The form stands for one token, of several that it may be. -/
def Form.Choice : Form → Prop
  | .terminal _ => True
  | .alt first second => first.Choice ∧ second.Choice
  | .empty | .rule _ | .seq _ _ | .many _ => False

namespace Traced

/-- Another form is traced in the same way if it is followed in the same way. -/
theorem map (h : Traced first ahead mistake? last)
    (hruns : ∀ ending, first.Runs ahead.tokens ending → second.Runs ahead.tokens ending) :
    Traced second ahead mistake? last := by
  cases h with
  | passed h hstop => exact .passed (hruns _ h) hstop
  | refused h hplace => exact .refused (hruns _ h) hplace
  | unreadable h hlexeme => exact .unreadable h hlexeme

theorem empty : Traced .empty ahead none ahead := .passed .empty rfl

theorem token {symbol : Terminal} (h : symbol.Accepts ahead.peek) :
    Traced (.terminal symbol) ahead none ahead.skip := by
  obtain ⟨span, htokens, -⟩ := tokens_of_peek rfl (accepts_ne_eof h)
  refine .passed ?_ rfl
  rw [htokens]
  exact .token h

theorem refuse {symbol : Terminal} (h : ¬symbol.Accepts ahead.peek)
    (hplace : mistake.place = ahead.place) : Traced (.terminal symbol) ahead (some mistake) last :=
  .refused (.refuse h) hplace

theorem rule {nonterminal : Nonterminal} (h : Traced (predictive nonterminal) ahead mistake? last) :
    Traced (.rule nonterminal) ahead mistake? last :=
  h.map fun _ => .rule

theorem of_rule {nonterminal : Nonterminal} (h : Traced (.rule nonterminal) ahead mistake? last) :
    Traced (predictive nonterminal) ahead mistake? last := by
  refine h.map fun ending hruns => ?_
  cases hruns with
  | rule hruns => exact hruns

theorem seq (h : Traced first ahead first? middle)
    (hnext : first? = none → Traced second middle second? last) :
    Traced (first ++ second) ahead (first?.or second?) last := by
  cases h with
  | passed h hstop =>
    cases hnext rfl with
    | passed h' hstop' => exact .passed (.seq h h') (hstop'.trans hstop)
    | refused h' hplace => exact .refused (.seq h h') (by rw [hplace, hstop])
    | unreadable hmem hlexeme => exact .unreadable (h.derives.suffix.subset hmem) hlexeme
  | refused h hplace => exact .refused (.cut h) hplace
  | unreadable h hlexeme => exact .unreadable h hlexeme

theorem after (h : Traced first ahead none middle) (hnext : Traced second middle mistake? last) :
    Traced (first ++ second) ahead mistake? last :=
  h.seq fun _ => hnext

theorem andThen (h : Traced first ahead mistake? middle)
    (hnext : mistake? = none → Traced second middle none last) :
    Traced (first ++ second) ahead mistake? last := by
  have hboth := h.seq hnext
  rwa [Option.or_none] at hboth

/-- After a mistake nothing more is followed. -/
theorem cut (h : Traced first ahead mistake? last) (hmistake : mistake? ≠ none) :
    Traced (first ++ second) ahead mistake? last :=
  h.andThen fun hnone => (hmistake hnone).elim

theorem stopped {mistake : Mistake} (h : Traced first ahead (some mistake) last) :
    Traced (first ++ second) ahead (some mistake) last :=
  h.cut (Option.some_ne_none mistake)

theorem assoc (h : Traced (first ++ (second ++ third)) ahead mistake? last) :
    Traced (first ++ second ++ third) ahead mistake? last := by
  refine h.map fun ending hruns => ?_
  cases hruns with
  | seq hfirst hrest =>
    cases hrest with
    | seq hsecond hthird => exact .seq (.seq hfirst hsecond) hthird
    | cut hsecond => exact .cut (.seq hfirst hsecond)
  | cut hfirst => exact .cut (.cut hfirst)

theorem left (hbegins : first.Begins ahead.peek) (h : Traced first ahead mistake? last) :
    Traced (first <|> second) ahead mistake? last :=
  h.map fun _ => .left hbegins

theorem right (hbegins : ¬first.Begins ahead.peek) (h : Traced second ahead mistake? last) :
    Traced (first <|> second) ahead mistake? last :=
  h.map fun _ => .right hbegins

theorem absent (hbegins : ¬first.Begins ahead.peek) : Traced (optional first) ahead none ahead :=
  right hbegins empty

/-- Something optional is there, and is followed with what comes behind it. -/
theorem present (hbegins : first.Begins ahead.peek)
    (h : Traced (first ++ second) ahead mistake? last) :
    Traced (optional first ++ second) ahead mistake? last := by
  refine h.map fun ending hruns => ?_
  cases hruns with
  | seq hfirst hsecond => exact .seq (.left hbegins hfirst) hsecond
  | cut hfirst => exact .cut (.left hbegins hfirst)

theorem nothing (hbegins : ¬form.Begins ahead.peek) : Traced (many form) ahead none ahead :=
  .passed (.none hbegins) rfl

theorem more (hbegins : form.Begins ahead.peek) (h : Traced form ahead first? middle)
    (hrest : first? = none → Traced (many form) middle second? last) :
    Traced (many form) ahead (first?.or second?) last := by
  refine (h.seq hrest).map fun ending hruns => ?_
  cases hruns with
  | seq hfirst hrest => exact .more hbegins hfirst hrest
  | cut hfirst => exact .cutMore hbegins hfirst

theorem moreThen (hbegins : first.Begins ahead.peek) (h : Traced first ahead first? middle)
    (hrest : first? = none → Traced (many first ++ second) middle second? last) :
    Traced (many first ++ second) ahead (first?.or second?) last := by
  refine (h.seq hrest).map fun ending hruns => ?_
  cases hruns with
  | seq hfirst hrest =>
    cases hrest with
    | seq hmany hsecond => exact .seq (.more hbegins hfirst hmany) hsecond
    | cut hmany => exact .cut (.more hbegins hfirst hmany)
  | cut hfirst => exact .cut (.cutMore hbegins hfirst)

/-- What comes between the parts of a list, with the rest of the list behind it. -/
theorem unroll (hbegins : first.Begins ahead.peek)
    (h : Traced (first ++ (second ++ many (first ++ second))) ahead mistake? last) :
    Traced (many (first ++ second)) ahead mistake? last := by
  refine h.assoc.map fun ending hruns => ?_
  cases hruns with
  | seq hfirst hrest => exact .more (.inl hbegins) hfirst hrest
  | cut hfirst => exact .cutMore (.inl hbegins) hfirst

theorem reachedAt (h : Traced form ahead mistake? last) (place : Place) :
    Traced form ahead mistake? (last.reachedAt place) := by
  cases h with
  | passed h hstop => exact .passed h hstop
  | refused h hplace => exact .refused h hplace
  | unreadable h hlexeme => exact .unreadable h hlexeme

/-- A token that is expected, whether or not it comes. -/
theorem expect {symbol : Terminal} {token : Token} (hsymbol : ∀ other, symbol.Accepts other ↔ other = token)
    {error : Mistake} (h : ahead.expect token = .error error) :
    Traced (.terminal symbol) ahead (some error) last := by
  unfold Ahead.expect at h
  split at h
  · cases h
  · next hpeek =>
    cases h
    exact refuse (by rwa [hsymbol]) rfl

theorem choose (hchoice : form.Choice) (h : form.Begins ahead.peek) :
    Traced form ahead none ahead.skip := by
  induction form with
  | terminal symbol => exact token h
  | alt first second ihfirst ihsecond =>
    by_cases hfirst : first.Begins ahead.peek
    · exact left hfirst (ihfirst hchoice.1 hfirst)
    · exact right hfirst (ihsecond hchoice.2 (h.resolve_left hfirst))
  | _ => exact hchoice.elim

theorem refuseAll (hchoice : form.Choice) (h : ¬form.Begins ahead.peek)
    (hplace : mistake.place = ahead.place) : Traced form ahead (some mistake) last := by
  induction form with
  | terminal symbol => exact refuse h hplace
  | alt first second _ ihsecond =>
    have hnot := not_or.1 h
    exact right hnot.1 (ihsecond hchoice.2 hnot.2)
  | _ => exact hchoice.elim

theorem identifier {error : Mistake} (h : ahead.identifier = .error error) :
    Traced (.terminal .identifier) ahead (some error) last := by
  unfold Ahead.identifier at h
  split at h
  · cases h
  · next hpeek =>
    cases h
    refine refuse ?_ rfl
    rw [accepts_identifier]
    rintro ⟨name, hname⟩
    exact hpeek name hname

end Traced

end Grammar

namespace Tree

variable {ahead : Ahead}

theorem begins_multiplying : (mark .star <|> mark .slash <|> word .mod).Begins ahead.peek ↔
    (Operator.ofMultiplying? ahead.peek).isSome = true := by
  unfold Operator.ofMultiplying?
  split <;> simp_all

theorem begins_adding : (mark .plus <|> mark .minus).Begins ahead.peek ↔
    (Operator.ofAdding? ahead.peek).isSome = true := by
  unfold Operator.ofAdding?
  split <;> simp_all

theorem begins_comparison : (mark .equal <|> mark .notEqual <|> mark .less <|> mark .lessEqual <|>
      mark .greater <|> mark .greaterEqual).Begins ahead.peek ↔
    (Comparison.ofToken? ahead.peek).isSome = true := by
  unfold Comparison.ofToken?
  split <;> simp_all

theorem traced_multiplying {op : Operator} (h : Operator.ofMultiplying? ahead.peek = some op) :
    Traced (mark .star <|> mark .slash <|> word .mod) ahead none ahead.skip :=
  .choose ⟨trivial, trivial, trivial⟩ (begins_multiplying.2 (Option.isSome_of_eq_some h))

theorem traced_adding {op : Operator} (h : Operator.ofAdding? ahead.peek = some op) :
    Traced (mark .plus <|> mark .minus) ahead none ahead.skip :=
  .choose ⟨trivial, trivial⟩ (begins_adding.2 (Option.isSome_of_eq_some h))

/-- The operands that follow the first one, and the operators before them. -/
def TracedMore (form : Form) (first : Expr) (ahead : Ahead) (result : Expr × Ahead) : Prop :=
  ∃ more?, result.1.mistake? = first.mistake?.or more? ∧ Traced form ahead more? result.2

private theorem traced_readers :
    ExprReading (fun ahead result => Traced (rule .factor) ahead result.1.mistake? result.2)
      (fun ahead result => Traced (rule .term) ahead result.1.mistake? result.2)
      (fun ahead result => Traced (rule .expression) ahead result.1.mistake? result.2)
      (TracedMore (many ((mark .star <|> mark .slash <|> word .mod) ++ rule .factor)))
      (TracedMore (many ((mark .plus <|> mark .minus) ++ rule .term))) where
  number ahead text value hpeek _ := by
    have hnumber : Terminal.number.Accepts ahead.peek := hpeek ▸ .number text
    exact .rule (.left hnumber (.token hnumber))
  badNumber ahead text hpeek hvalue := by
    obtain ⟨span, htokens, -⟩ := tokens_of_peek hpeek (by simp)
    refine .unreadable (by rw [htokens]; exact List.mem_cons_self) fun hreadable => ?_
    have hsome := hreadable text rfl
    rw [hvalue] at hsome
    cases hsome
  name ahead name hpeek := by
    have hname : Terminal.identifier.Accepts ahead.peek := hpeek ▸ .identifier name
    exact .rule (.right (by simp [hpeek]) (.left hname (.token hname)))
  paren ahead left inner hpeek hinner hclose := by
    have hopen : (Terminal.sign .leftParen).Accepts ahead.peek := accepts_sign.2 hpeek
    have hend : (Terminal.sign .rightParen).Accepts left.peek := accepts_sign.2 hclose
    refine .rule (.right (by simp [hpeek]) (.right (by simp [hpeek]) (.left (by simp [hpeek]) ?_)))
    exact ((Traced.token hopen).after hinner).andThen fun _ => .token hend
  unclosed ahead left inner mistake hpeek hinner hclose := by
    have hopen : (Terminal.sign .leftParen).Accepts ahead.peek := accepts_sign.2 hpeek
    refine .rule (.right (by simp [hpeek]) (.right (by simp [hpeek]) (.left (by simp [hpeek]) ?_)))
    exact ((Traced.token hopen).after hinner).seq fun _ => .expect (fun _ => accepts_sign) hclose
  negate ahead left operand hpeek hoperand := by
    have hminus : (Terminal.sign .minus).Accepts ahead.peek := accepts_sign.2 hpeek
    refine .rule (.right (by simp [hpeek]) (.right (by simp [hpeek]) (.right (by simp [hpeek]) ?_)))
    exact (Traced.token hminus).after hoperand
  missing ahead hnumber hname hparen hminus := by
    refine .rule (.right (by simpa using hnumber) (.right (by simpa using hname)
      (.right (by simpa using hparen) ?_)))
    exact (Traced.refuse (by simpa using hminus) rfl).stopped
  firstFactor ahead left first result hfirst hmore := by
    obtain ⟨more?, hmistake, htraced⟩ := hmore
    rw [hmistake]
    exact .rule (hfirst.seq fun _ => htraced)
  nextFactor first ahead left op second result hop hsecond hmore := by
    obtain ⟨more?, hmistake, htraced⟩ := hmore
    refine ⟨second.mistake?.or more?, by rw [hmistake, Expr.mistake?, Option.or_assoc], ?_⟩
    have hbegins := begins_multiplying.2 (Option.isSome_of_eq_some hop)
    exact .more (.inl hbegins) ((traced_multiplying hop).after hsecond) fun _ => htraced
  noFactor first ahead hop := by
    refine ⟨none, (Option.or_none).symm, .nothing ?_⟩
    rw [begins_append, begins_multiplying, hop]
    simp
  firstTerm ahead left first result hfirst hmore := by
    obtain ⟨more?, hmistake, htraced⟩ := hmore
    rw [hmistake]
    exact .rule (hfirst.seq fun _ => htraced)
  nextTerm first ahead left op second result hop hsecond hmore := by
    obtain ⟨more?, hmistake, htraced⟩ := hmore
    refine ⟨second.mistake?.or more?, by rw [hmistake, Expr.mistake?, Option.or_assoc], ?_⟩
    have hbegins := begins_adding.2 (Option.isSome_of_eq_some hop)
    exact .more (.inl hbegins) ((traced_adding hop).after hsecond) fun _ => htraced
  noTerm first ahead hop := by
    refine ⟨none, (Option.or_none).symm, .nothing ?_⟩
    rw [begins_append, begins_adding, hop]
    simp

theorem traced_readExpr {expr : Expr} {last : Ahead} (h : given (readExpr ahead) = (expr, last)) :
    Traced (rule .expression) ahead expr.mistake? last :=
  traced_readers.holds h

theorem traced_readCond {word : Keyword} {cond : Cond} {last : Ahead}
    (h : given (readCond word ahead) = (cond, last)) :
    Traced (rule .condition ++ Form.word word) ahead cond.mistake? last := by
  rw [given_readCond] at h
  rcases hfirst : given (readExpr ahead) with ⟨first, after⟩
  have hleft := traced_readExpr hfirst
  have hchoice : (mark .equal <|> mark .notEqual <|> mark .less <|> mark .lessEqual <|>
      mark .greater <|> mark .greaterEqual).Choice :=
    ⟨trivial, trivial, trivial, trivial, trivial, trivial⟩
  rw [hfirst] at h
  dsimp only at h
  cases hop : Comparison.ofToken? after.peek with
  | none =>
    rw [hop] at h
    cases h
    have hnot := mt begins_comparison.1 (by rw [hop]; simp)
    have hrefused : Traced _ after (some (after.refuse (.expectedComparison after.peek))) after.drop :=
      .refuseAll hchoice hnot rfl
    have hcondition : Traced (rule .condition) ahead _ after.drop :=
      .rule ((hleft.seq fun _ => hrefused).cut (by simp))
    exact hcondition.cut (by simp)
  | some op =>
    rw [hop] at h
    dsimp only at h
    have hbegins := begins_comparison.2 (Option.isSome_of_eq_some hop)
    rcases hsecond : given (readExpr after.skip) with ⟨second, last⟩
    have hcondition : Traced (rule .condition) ahead (first.mistake?.or second.mistake?) last :=
      .rule ((hleft.andThen fun _ => .choose hchoice hbegins).seq fun _ => traced_readExpr hsecond)
    rw [hsecond] at h
    dsimp only at h
    rcases hword : last.expect (.keyword word) with mistake | _
    · rw [hword] at h
      cases h
      exact hcondition.seq fun _ => .expect (fun _ => accepts_keyword) hword
    · rw [hword] at h
      cases h
      exact hcondition.andThen fun _ => .token (accepts_keyword.2 (peek_of_expect hword))

/-- A reader that can fail has followed the form, or its mistake ends this. -/
def TracedOr {α : Type} (form : Form) (ahead : Ahead) (mistake? : α → Option Mistake) :
    Except Mistake (α × Ahead) → Prop
  | .ok (value, last) => Traced form ahead (mistake? value) last
  | .error mistake => ∀ last, Traced form ahead (some mistake) last

theorem traced_readConstValue (ahead : Ahead) :
    TracedOr (optional (mark .minus) ++ terminal .number <|> terminal .string <|>
      terminal .identifier) ahead (fun _ => none) (givenOr (readConstValue ahead)) := by
  unfold readConstValue
  split
  · next text hpeek =>
    have hnumber : Terminal.number.Accepts ahead.peek := hpeek ▸ .number text
    exact .left (.inr ⟨.inr trivial, hnumber⟩) ((Traced.absent (by simp [hpeek])).after (.token hnumber))
  · next text hpeek =>
    have hstring : Terminal.string.Accepts ahead.peek := hpeek ▸ .string text
    exact .right (by simp [hpeek]) (.left hstring (.token hstring))
  · next hpeek =>
    have hminus : (Terminal.sign .minus).Accepts ahead.peek := accepts_sign.2 hpeek
    have hsigned : Traced (optional (mark .minus)) ahead none ahead.skip :=
      .left hminus (.token hminus)
    have hbegins : (optional (mark .minus) ++ terminal .number).Begins ahead.peek := by
      simp [hpeek]
    split
    · next text hpeek' =>
      exact .left hbegins (hsigned.after (.token (hpeek' ▸ .number text)))
    · next hnot =>
      intro last
      refine .left hbegins (hsigned.after (.refuse ?_ rfl))
      rw [accepts_number]
      rintro ⟨text, htext⟩
      exact hnot text htext
  · next name hpeek =>
    have hname : Terminal.identifier.Accepts ahead.peek := hpeek ▸ .identifier name
    exact .right (by simp [hpeek]) (.right (by simp [hpeek]) (.token hname))
  · next hnumber hstring hminus hname =>
    intro last
    refine .right (by simpa using ⟨hminus, hnumber⟩) (.right (by simpa using hstring) (.refuse ?_ rfl))
    simpa using hname

theorem accepts_of_identifier {ident : Ident} (h : ahead.identifier = .ok ident) :
    Terminal.identifier.Accepts ahead.peek :=
  (peek_of_identifier h).1 ▸ .identifier ident.name

theorem traced_readConst (hword : ahead.peek = .keyword .const) :
    TracedOr (rule .constant) ahead Declaration.mistake? (givenOr (readConst ahead.skip)) := by
  rw [givenOr_readConst]
  have hbegun : Traced (Form.word .const) ahead none ahead.skip := .token (accepts_keyword.2 hword)
  rcases hname : ahead.skip.identifier with mistake | name
  · intro last
    exact .rule (hbegun.after (.identifier hname)).stopped.stopped.stopped
  have hnamed := hbegun.after (.token (accepts_of_identifier hname))
  rcases hequal : ahead.skip.skip.expect (.sign .equal) with mistake | _
  · intro last
    exact .rule (hnamed.after (.expect (fun _ => accepts_sign) hequal)).stopped.stopped
  have hmarked := hnamed.after (.token (accepts_sign.2 (peek_of_expect hequal)))
  have hvalue := traced_readConstValue ahead.skip.skip.skip
  rcases hread : givenOr (readConstValue ahead.skip.skip.skip) with mistake | ⟨value, after⟩
  · rw [hread] at hvalue
    intro last
    exact .rule (hmarked.after (hvalue last)).stopped
  rw [hread] at hvalue
  have hvalued := hmarked.after hvalue
  dsimp only [bind, Except.bind]
  rcases hend : after.expect (.sign .semicolon) with mistake | _
  · have hunended : ∀ last, Traced (rule .constant) ahead (some mistake) last := fun last =>
      .rule (hvalued.after (.expect (fun _ => accepts_sign) hend))
    cases value with
    | text spelling => exact hunended
    | copy source => exact hunended _
  · have hended : Traced (rule .constant) ahead none after.skip :=
      .rule (hvalued.after (.token (accepts_sign.2 (peek_of_expect hend))))
    exact hended.reachedAt name.place

theorem traced_readNames (ahead : Ahead) :
    TracedOr (terminal .identifier ++ many (mark .comma ++ terminal .identifier)) ahead
      (fun _ => none) (givenOr (readNames ahead)) := by
  fun_induction readNames ahead with
  | case1 ahead mistake hname => exact fun last => (Traced.identifier hname).stopped
  | case2 ahead name hname _ hcomma _ names left hleft hread ih =>
    rw [hread] at ih
    have hmark : (Terminal.sign .comma).Accepts ahead.skip.peek := accepts_sign.2 hcomma
    refine (Traced.token (accepts_of_identifier hname)).after (.unroll hmark ?_)
    exact (Traced.token hmark).after ih
  | case3 ahead name hname _ hcomma _ mistake hread ih =>
    rw [hread] at ih
    have hmark : (Terminal.sign .comma).Accepts ahead.skip.peek := accepts_sign.2 hcomma
    intro last
    refine (Traced.token (accepts_of_identifier hname)).after (.unroll hmark ?_)
    exact (Traced.token hmark).after (ih last)
  | case4 ahead name hname _ hcomma =>
    exact (Traced.token (accepts_of_identifier hname)).after (.nothing (by simpa using hcomma))

theorem traced_typeName (ahead : Ahead) : match ahead.typeName with
    | .ok _ => Traced (terminal .typeName) ahead none ahead.skip
    | .error mistake => ∀ last, Traced (terminal .typeName) ahead (some mistake) last := by
  unfold Ahead.typeName
  cases hname : ahead.identifier with
  | error mistake =>
    intro last
    unfold Ahead.identifier at hname
    split at hname
    · cases hname
    · next hnot =>
      cases hname
      refine .refuse ?_ rfl
      rw [accepts_typeName]
      rintro ⟨name, type, -, hpeek⟩
      exact hnot name hpeek
  | ok ident =>
    have hpeek := (peek_of_identifier hname).1
    dsimp only [bind, Except.bind]
    cases htype : IntType.ofName? ident.name with
    | some type => exact .token (hpeek ▸ .typeName htype)
    | none =>
      intro last
      refine .refuse ?_ rfl
      rw [accepts_typeName, hpeek]
      rintro ⟨name, type, hsome, hsame⟩
      cases hsame
      rw [htype] at hsome
      cases hsome

theorem traced_readVars (hword : ahead.peek = .keyword .var) :
    TracedOr (rule .vars) ahead Declaration.mistake? (givenOr (readVars ahead.skip)) := by
  rw [givenOr_readVars]
  have hbegun : Traced (Form.word .var) ahead none ahead.skip := .token (accepts_keyword.2 hword)
  have hnames := traced_readNames ahead.skip
  rcases hread : givenOr (readNames ahead.skip) with mistake | ⟨names, after⟩
  · rw [hread] at hnames
    intro last
    exact .rule (hbegun.after (hnames last)).stopped.stopped.stopped
  rw [hread] at hnames
  have hnamed := hbegun.after hnames
  dsimp only [bind, Except.bind]
  rcases hcolon : after.expect (.sign .colon) with mistake | _
  · intro last
    exact .rule (hnamed.after (.expect (fun _ => accepts_sign) hcolon)).stopped.stopped
  have hmarked := hnamed.after (.token (accepts_sign.2 (peek_of_expect hcolon)))
  have htype := traced_typeName after.skip
  rcases hname : after.skip.typeName with mistake | type
  · rw [hname] at htype
    intro last
    exact .rule (hmarked.after (htype last)).stopped
  rw [hname] at htype
  have htyped := hmarked.after htype
  dsimp only
  rcases hend : after.skip.skip.expect (.sign .semicolon) with mistake | _
  · intro last
    exact .rule (htyped.after (.expect (fun _ => accepts_sign) hend))
  · have hended : Traced (rule .vars) ahead none after.skip.skip.skip :=
      .rule (htyped.after (.token (accepts_sign.2 (peek_of_expect hend))))
    exact hended.reachedAt _

theorem TracedOr.declaredOr {form : Form} {result : Except Mistake (Declaration × Ahead)}
    (h : TracedOr form ahead Declaration.mistake? result) :
    Traced form ahead (declaredOr ahead result).1.mistake? (declaredOr ahead result).2 := by
  rcases result with mistake | ⟨declaration, last⟩
  · exact h _
  · exact h

theorem traced_readDeclaration? {declaration : Declaration} {left : ahead.Less}
    (h : readDeclaration? ahead = some (declaration, left)) :
    (rule .constant <|> rule .vars).Begins ahead.peek ∧
      Traced (rule .constant <|> rule .vars) ahead declaration.mistake? left.val := by
  have hgiven := given_readDeclaration? ahead
  rw [h, Option.map_some, given] at hgiven
  split at hgiven
  · next hconst =>
    have hbegins : (rule .constant).Begins ahead.peek := hconst
    have htraced := (traced_readConst hconst).declaredOr
    rw [← Option.some.inj hgiven] at htraced
    exact ⟨.inl hbegins, .left hbegins htraced⟩
  · next hconst =>
    split at hgiven
    · next hvar =>
      have hbegins : (rule .vars).Begins ahead.peek := hvar
      have htraced := (traced_readVars hvar).declaredOr
      rw [← Option.some.inj hgiven] at htraced
      exact ⟨.inr hbegins, .right hconst htraced⟩
    · cases hgiven

theorem declared_of_readDeclaration? (h : readDeclaration? ahead = none) : Declared ahead.peek := by
  unfold readDeclaration? at h
  dsimp only at h
  split at h
  · cases h
  · next hconst =>
    split at h
    · cases h
    · next hvar => exact ⟨hconst, hvar⟩

theorem not_begins_of_readDeclaration? (h : readDeclaration? ahead = none) :
    ¬(rule .constant <|> rule .vars).Begins ahead.peek :=
  fun hbegins => hbegins.elim (declared_of_readDeclaration? h).1 (declared_of_readDeclaration? h).2

theorem traced_readDeclarations (ahead : Ahead) :
    Traced (many (rule .constant <|> rule .vars)) ahead
      (firstMistake? (given (readDeclarations ahead)).1) (given (readDeclarations ahead)).2 := by
  fun_induction readDeclarations ahead with
  | case1 ahead hread =>
    exact .nothing (not_begins_of_readDeclaration? hread)
  | case2 ahead declaration next hnext hread rest last hlast hrest ih =>
    rw [given_eq hrest] at ih
    obtain ⟨hbegins, htraced⟩ := traced_readDeclaration? hread
    exact .more hbegins htraced fun _ => ih

/-- As `Traced`, but a token that begins no statement is not refused before the end of the body
is expected. -/
inductive TracedBody (ahead : Ahead) : Option Mistake → Ahead → Prop
  | traced {mistake? : Option Mistake} {last : Ahead}
    (h : Traced (rule .statements) ahead mistake? last) : TracedBody ahead mistake? last
  | unbegun {mistake : Mistake} {last : Ahead} {rest : List Lexeme}
    (h : (rule .statements).Runs ahead.tokens (.passed rest))
    (hrest : endsBody (upcoming rest) = false) (hplace : mistake.place = placeOf ahead.stop rest) :
    TracedBody ahead (some mistake) last

section

variable {middle last : Ahead} {first? second? : Option Mistake}

theorem begins_statements : (rule .statement ++ many (mark .semicolon)).Begins ahead.peek ↔
    startsStmt ahead.peek = true :=
  or_iff_left fun hnullable => nomatch hnullable.1

/-- A body with what closes it. -/
theorem TracedBody.seq {closing : Form}
    (hclosing : ∀ rest, endsBody (upcoming rest) = false → closing.Runs rest (.refused rest))
    (h : TracedBody ahead first? middle)
    (hnext : first? = none → Traced closing middle second? last) :
    Traced (rule .statements ++ closing) ahead (first?.or second?) last := by
  cases h with
  | traced h => exact h.seq hnext
  | unbegun h hrest hplace => exact .refused (.seq h (hclosing _ hrest)) hplace

theorem TracedBody.more (hbegins : (rule .statement).Begins ahead.peek)
    (h : Traced (rule .statement ++ many (mark .semicolon)) ahead first? middle)
    (hrest : first? = none → TracedBody middle second? last) :
    TracedBody ahead (first?.or second?) last := by
  have hbegins : (rule .statement ++ many (mark .semicolon)).Begins ahead.peek := .inl hbegins
  cases h with
  | passed h hstop =>
    cases hrest rfl with
    | traced hbody => exact .traced (.rule (.more hbegins (.passed h hstop) fun _ => hbody.of_rule))
    | unbegun hruns hnext hplace =>
      cases hruns with
      | rule hruns => exact .unbegun (.rule (.more hbegins h hruns)) hnext (by rw [hplace, hstop])
  | refused h hplace => exact .traced (.rule (.refused (.cutMore hbegins h) hplace))
  | unreadable h hlexeme => exact .traced (.unreadable h hlexeme)

theorem refuses_end {rest : List Lexeme} (h : endsBody (upcoming rest) = false) :
    (Form.word .end_).Runs rest (.refused rest) := by
  refine .refuse fun haccepts => ?_
  rw [accepts_keyword.1 haccepts] at h
  cases h

theorem refuses_else {rest : List Lexeme} (h : endsBody (upcoming rest) = false) :
    (optional (Form.word .else_ ++ rule .statements) ++ Form.word .end_).Runs rest
      (.refused rest) := by
  refine .seq (.right ?_ .empty) (refuses_end h)
  intro hbegins
  rw [(begins_word.1 (hbegins.resolve_right fun hnullable => hnullable.1))] at h
  cases h

end

theorem traced_closeBody (body : Stmt) (ahead : Ahead) :
    ∃ more?, (given (closeBody body ahead)).1.mistake? = body.mistake?.or more? ∧
      Traced (Form.word .end_) ahead more? (given (closeBody body ahead)).2 := by
  unfold closeBody
  rcases hend : ahead.expect (.keyword .end_) with mistake | _
  · exact ⟨some mistake, rfl, .expect (fun _ => accepts_keyword) hend⟩
  · exact ⟨none, Option.or_none.symm, .token (accepts_keyword.2 (peek_of_expect hend))⟩

theorem traced_skipSemicolons (ahead : Ahead) :
    Traced (many (mark .semicolon)) ahead none (skipSemicolons ahead).val := by
  fun_induction skipSemicolons ahead with
  | case1 ahead hpeek _ left hleft hskip ih =>
    rw [hskip] at ih
    exact .more (begins_mark.2 hpeek) (.token (accepts_sign.2 hpeek)) fun _ => ih
  | case2 ahead hpeek => exact .nothing (mt begins_mark.1 hpeek)

/-- A body that has been read, and its end. -/
theorem traced_closed {body closed : Stmt} {start last : Ahead}
    (h : TracedBody start body.mistake? ahead) (hclose : given (closeBody body ahead) = (closed, last)) :
    Traced (rule .statements ++ Form.word .end_) start closed.mistake? last := by
  obtain ⟨more?, hmistake, hend⟩ := traced_closeBody body ahead
  rw [hclose] at hmistake hend
  rw [hmistake]
  exact h.seq (fun _ => refuses_end) fun _ => hend

/-- A statement was followed, or none begins here and this is its mistake. -/
def TracedStmt (ahead : Ahead) (result : Stmt × Ahead) : Prop :=
  (rule .statement).Begins ahead.peek ∧ Traced (rule .statement) ahead result.1.mistake? result.2 ∨
    ¬(rule .statement).Begins ahead.peek ∧
      ∃ mistake, result.1.mistake? = some mistake ∧ mistake.place = ahead.place

private theorem traced_statements :
    StmtReading TracedStmt fun ahead result => TracedBody ahead result.1.mistake? result.2 where
  assign ahead left name value hpeek hassign hvalue := by
    refine .inl ⟨by simp [Nonterminal.Begins, hpeek, startsStmt], .rule (.left (by simp [hpeek]) ?_)⟩
    have hname : Terminal.identifier.Accepts ahead.peek := hpeek ▸ .identifier name
    have hmark : (Terminal.sign .assign).Accepts ahead.skip.peek := accepts_sign.2 hassign
    have hgiven := (Traced.token hmark).after (traced_readExpr hvalue)
    exact (Traced.token hname).after (.left (.inl hmark) hgiven)
  call ahead name hpeek hassign := by
    refine .inl ⟨by simp [Nonterminal.Begins, hpeek, startsStmt], .rule (.left (by simp [hpeek]) ?_)⟩
    have hname : Terminal.identifier.Accepts ahead.peek := hpeek ▸ .identifier name
    exact (Traced.token hname).after (.absent (by simpa using hassign))
  callWord ahead callee hpeek hcallee := by
    refine .inl ⟨by simp [Nonterminal.Begins, hpeek, startsStmt],
      .rule (.right (by simp [hpeek]) (.left (by simp [hpeek]) ?_))⟩
    have hword : (Terminal.keyword .call).Accepts ahead.peek := accepts_keyword.2 hpeek
    exact (Traced.token hword).after (.token (accepts_of_identifier hcallee))
  callNone ahead mistake hpeek hcallee := by
    refine .inl ⟨by simp [Nonterminal.Begins, hpeek, startsStmt],
      .rule (.right (by simp [hpeek]) (.left (by simp [hpeek]) ?_))⟩
    have hword : (Terminal.keyword .call).Accepts ahead.peek := accepts_keyword.2 hpeek
    exact (Traced.token hword).after (.identifier hcallee)
  branchElse ahead afterCond afterYes afterNo left condition yes no closed hpeek hcondition hyes
      helse hno hclose := by
    refine .inl ⟨by simp [Nonterminal.Begins, hpeek, startsStmt],
      .rule (.right (by simp [hpeek]) (.right (by simp [hpeek]) (.left (by simp [hpeek]) ?_)))⟩
    have hword : (Terminal.keyword .if_).Accepts ahead.peek := accepts_keyword.2 hpeek
    have hother : (Terminal.keyword .else_).Accepts afterYes.peek := accepts_keyword.2 helse
    have hcondition := ((Traced.token hword).after (traced_readCond hcondition)).assoc
    have hno := ((Traced.token hother).after (traced_closed hno hclose)).assoc
    have hyes := hyes.seq (fun _ => refuses_else) fun _ => hno.present (.inl hother)
    rw [Stmt.mistake?, Option.or_assoc]
    exact (hcondition.seq fun _ => hyes).assoc.assoc
  branch ahead afterCond afterYes left condition yes no hpeek hcondition hyes helse hclose := by
    refine .inl ⟨by simp [Nonterminal.Begins, hpeek, startsStmt],
      .rule (.right (by simp [hpeek]) (.right (by simp [hpeek]) (.left (by simp [hpeek]) ?_)))⟩
    have hword : (Terminal.keyword .if_).Accepts ahead.peek := accepts_keyword.2 hpeek
    have hcondition := ((Traced.token hword).after (traced_readCond hcondition)).assoc
    obtain ⟨more?, hmistake, hend⟩ := traced_closeBody .skip afterYes
    rw [hclose] at hmistake hend
    have habsent : Traced (optional (Form.word .else_ ++ rule .statements)) afterYes none afterYes :=
      .absent (by simpa using helse)
    have hyes := hyes.seq (fun _ => refuses_else) fun _ => habsent.after hend
    rw [Stmt.mistake?, Option.or_assoc, hmistake]
    exact (hcondition.seq fun _ => hyes).assoc.assoc
  loop ahead afterCond afterBody left condition inner closed hpeek hcondition hinner hclose := by
    refine .inl ⟨by simp [Nonterminal.Begins, hpeek, startsStmt],
      .rule (.right (by simp [hpeek]) (.right (by simp [hpeek]) (.right (by simp [hpeek])
        (.left (by simp [hpeek]) ?_))))⟩
    have hword : (Terminal.keyword .while_).Accepts ahead.peek := accepts_keyword.2 hpeek
    have hcondition := ((Traced.token hword).after (traced_readCond hcondition)).assoc
    exact (hcondition.seq fun _ => traced_closed hinner hclose).assoc
  ret ahead hpeek := by
    refine .inl ⟨by simp [Nonterminal.Begins, hpeek, startsStmt],
      .rule (.right (by simp [hpeek]) (.right (by simp [hpeek]) (.right (by simp [hpeek])
        (.right (by simp [hpeek]) (.left (by simp [hpeek]) ?_)))))⟩
    exact .token (accepts_keyword.2 hpeek)
  block ahead afterLocals afterBody left locals inner closed hpeek hlocals hinner hclose := by
    have hdeclared := traced_readDeclarations ahead.skip
    rw [hlocals] at hdeclared
    refine .inl ⟨by simp [Nonterminal.Begins, hpeek, startsStmt],
      .rule (.right (by simp [hpeek]) (.right (by simp [hpeek]) (.right (by simp [hpeek])
        (.right (by simp [hpeek]) (.right (by simp [hpeek]) ?_)))))⟩
    have hword : (Terminal.keyword .begin_).Accepts ahead.peek := accepts_keyword.2 hpeek
    have hopened := (Traced.token hword).after hdeclared
    exact (hopened.seq fun _ => traced_closed hinner hclose).assoc
  missing ahead hidentifier hcall hif hwhile hreturn hbegin := by
    refine .inr ⟨fun hstarts => ?_, _, rfl, rfl⟩
    change startsStmt ahead.peek = true at hstarts
    unfold startsStmt at hstarts
    split at hstarts <;> simp_all
  done ahead hends := by
    refine .traced (.rule (.nothing fun hbegins => ?_))
    rw [endsBody_of_startsStmt (begins_statements.1 hbegins)] at hends
    cases hends
  more ahead afterFirst last first second hends hfirst hsecond := by
    rcases hfirst with ⟨hbegins, hfirst⟩ | ⟨hnot, mistake, hmistake, hplace⟩
    · exact .more hbegins (hfirst.andThen fun _ => traced_skipSemicolons afterFirst) fun _ => hsecond
    · rw [Stmt.mistake?, hmistake]
      refine .unbegun (.rule (.none (mt begins_statements.1 hnot))) ?_ hplace
      exact Bool.eq_false_iff.2 hends

theorem traced_readStmts {stmt : Stmt} {last : Ahead} (h : given (readStmts ahead) = (stmt, last)) :
    TracedBody ahead stmt.mistake? last :=
  traced_statements.holds h

theorem traced_pass (mark : Sign) (ahead : Ahead) :
    Traced (optional (Form.mark mark)) ahead none (pass mark ahead) := by
  unfold pass
  split
  · next hpeek => exact .left (begins_mark.2 hpeek) (.token (accepts_sign.2 hpeek))
  · next hpeek => exact .absent (mt begins_mark.1 hpeek)

/-- A procedure was followed from its keyword, which is the next token of `start`. -/
def TracedProcedure (start : Ahead) (result : Heading × Decls × Stmt × Ahead) : Prop :=
  Traced (rule .procedure) start
    (result.1.mistake?.or (result.2.1.mistake?.or result.2.2.1.mistake?)) result.2.2.2

theorem traced_plain {declaration : Declaration} {left : ahead.Less}
    (h : readDeclaration? ahead = some (declaration, left)) :
    (rule .declaration).Begins ahead.peek ∧
      Traced (rule .declaration) ahead declaration.mistake? left.val := by
  obtain ⟨hbegins, htraced⟩ := traced_readDeclaration? h
  refine ⟨hbegins.elim .inl fun hvar => .inr (.inl hvar), .rule (htraced.map fun ending hruns => ?_)⟩
  cases hruns with
  | left hconst hruns => exact .left hconst hruns
  | right hconst hruns => exact .right hconst (.left (hbegins.resolve_left hconst) hruns)

theorem traced_heading {start : Ahead} {name : Ident} (hword : start.peek = .keyword .procedure)
    (hname : start.skip.identifier = .ok name) :
    Traced (Form.word .procedure ++ terminal .identifier) start none start.skip.skip :=
  (Traced.token (accepts_keyword.2 hword)).after (.token (accepts_of_identifier hname))

private theorem traced_declarations :
    DeclsReading
      (fun ahead result => ∀ start, start.peek = .keyword .procedure → start.skip = ahead →
        TracedProcedure start result)
      (fun ahead result => Traced (many (rule .declaration)) ahead result.1.mistake? result.2) where
  unnamed ahead mistake hname start hword hskip := by
    subst hskip
    have hbegun : Traced (Form.word .procedure) start none start.skip :=
      .token (accepts_keyword.2 hword)
    exact .rule (hbegun.after (.identifier hname)).stopped.stopped.stopped.stopped.stopped.stopped
  unended ahead name mistake hname hsemicolon start hword hskip := by
    subst hskip
    have hunended : Traced (.mark .semicolon) start.skip.skip (some mistake) start.skip.drop :=
      .expect (fun _ => accepts_sign) hsemicolon
    exact .rule ((traced_heading hword hname).after hunended).stopped.stopped.stopped.stopped.stopped
  unbegun ahead afterLocals name locals mistake hname hsemicolon hlocals hbegin start hword hskip := by
    subst hskip
    have hheaded := (traced_heading hword hname).after (.token (accepts_sign.2 hsemicolon))
    have hunbegun : Traced (.word .begin_) afterLocals (some mistake) afterLocals.drop :=
      .expect (fun _ => accepts_keyword) hbegin
    have hdeclared := hheaded.after hlocals
    exact .rule ((((hdeclared.seq fun _ => hunbegun).cut (by simp)).cut (by simp)).cut (by simp))
  ended ahead afterLocals afterBody last name locals body closed hname hsemicolon hlocals hbegin
      hbody hclose start hword hskip := by
    subst hskip
    have hheaded := (traced_heading hword hname).after (.token (accepts_sign.2 hsemicolon))
    have hopened := (hheaded.after hlocals).andThen fun _ => .token (accepts_keyword.2 hbegin)
    have hclosed := traced_closed (traced_readStmts hbody) hclose
    exact .rule ((hopened.seq fun _ => hclosed).assoc.andThen fun _ => traced_pass .semicolon last)
  plain ahead last left declaration rest hread hrest := by
    obtain ⟨hbegins, htraced⟩ := traced_plain hread
    exact .more hbegins htraced fun _ => hrest
  nested ahead left last heading locals rest body hread hpeek hprocedure hrest := by
    obtain ⟨hconst, hvar⟩ := declared_of_readDeclaration? hread
    have hinside := hprocedure ahead hpeek rfl
    exact .more (.inr (.inr hpeek)) (.rule (.right hconst (.right hvar hinside))) fun _ => hrest
  done ahead hread hpeek := by
    obtain ⟨hconst, hvar⟩ := declared_of_readDeclaration? hread
    refine .nothing ?_
    rintro (hbegins | hbegins | hbegins)
    · exact hconst hbegins
    · exact hvar hbegins
    · exact hpeek hbegins

theorem mistake?_ending {last : Ahead} : (ending last).mistake? =
    if last.peek = .eof then none else some (last.refuse (.expectedEnd last.peek)) := by
  unfold ending
  split <;> rfl

/-- A program was followed, and after it the end is expected. -/
def TracedProgram (form : Form) (ahead : Ahead) (mistake? : Option Mistake) : Prop :=
  ∃ first? last, Traced form ahead first? last ∧ mistake? = first?.or (ending last).mistake?

theorem traced_readProgram (ahead : Ahead) :
    TracedProgram (rule .program) ahead (readProgram ahead).decls.mistake? := by
  have hparts : TracedProgram (many (rule .constant <|> rule .vars) ++
      (rule .procedure ++ optional (mark .dot))) ahead (readProgram ahead).decls.mistake? := by
    fun_induction readProgram ahead with
    | case1 ahead declaration left hleft hread rest ih =>
      obtain ⟨first?, last, htraced, hmistake⟩ := ih
      obtain ⟨hbegins, hfirst⟩ := traced_readDeclaration? hread
      refine ⟨declaration.mistake?.or first?, last, hfirst.moreThen hbegins fun _ => htraced, ?_⟩
      rw [Decls.mistake?, hmistake, Option.or_assoc]
    | case2 ahead hread hpeek heading locals body left hleft hprocedure last rest =>
      have hinside := traced_declarations.holds (givenProcedure_eq hprocedure) ahead hpeek rfl
      have hdotted := Traced.andThen hinside fun _ => traced_pass .dot left
      exact ⟨_, last, (Traced.nothing (not_begins_of_readDeclaration? hread)).after hdotted, rfl⟩
    | case3 ahead hread hpeek =>
      have hrefused : Traced (.word .procedure) ahead (some (ahead.refuse .noProcedure)) ahead :=
        .refuse (mt accepts_keyword.1 hpeek) rfl
      have hprocedure : Traced (rule .procedure) ahead _ ahead :=
        .rule hrefused.stopped.stopped.stopped.stopped.stopped.stopped.stopped
      exact ⟨_, ahead, (Traced.nothing (not_begins_of_readDeclaration? hread)).after
        hprocedure.stopped, rfl⟩
  obtain ⟨first?, last, htraced, hmistake⟩ := hparts
  exact ⟨first?, last, .rule htraced.assoc, hmistake⟩

end Tree

end BlockLang
