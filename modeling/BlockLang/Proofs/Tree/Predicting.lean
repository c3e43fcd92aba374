import BlockLang.Proofs.Tree.Acceptance
import BlockLang.Proofs.Tree.Productions

/-! Following the grammar with one token in view. Where that comes to a token it cannot pass,
the tokens before can be completed, and nothing but these tokens was looked at. -/

namespace BlockLang.Grammar

open BlockLang.Tree Form

section

variable {token : Token}

@[simp] theorem accepts_keyword {word : Keyword} :
    (Terminal.keyword word).Accepts token ↔ token = .keyword word :=
  ⟨fun h => by cases h; rfl, fun h => h ▸ .keyword word⟩

@[simp] theorem accepts_sign {mark : Sign} :
    (Terminal.sign mark).Accepts token ↔ token = .sign mark :=
  ⟨fun h => by cases h; rfl, fun h => h ▸ .sign mark⟩

@[simp] theorem accepts_identifier :
    Terminal.identifier.Accepts token ↔ ∃ name, token = .identifier name :=
  ⟨fun h => by cases h; exact ⟨_, rfl⟩, fun ⟨name, h⟩ => h ▸ .identifier name⟩

@[simp] theorem accepts_typeName : Terminal.typeName.Accepts token ↔
    ∃ name type, IntType.ofName? name = some type ∧ token = .identifier name :=
  ⟨fun h => by cases h with | typeName h => exact ⟨_, _, h, rfl⟩,
    fun ⟨_, _, hname, h⟩ => h ▸ .typeName hname⟩

@[simp] theorem accepts_number : Terminal.number.Accepts token ↔ ∃ text, token = .number text :=
  ⟨fun h => by cases h; exact ⟨_, rfl⟩, fun ⟨text, h⟩ => h ▸ .number text⟩

@[simp] theorem accepts_string : Terminal.string.Accepts token ↔ ∃ text, token = .string text :=
  ⟨fun h => by cases h; exact ⟨_, rfl⟩, fun ⟨text, h⟩ => h ▸ .string text⟩

end

def Nonterminal.Begins : Nonterminal → Token → Prop
  | .program, token | .declaration, token =>
    token = .keyword .const ∨ token = .keyword .var ∨ token = .keyword .procedure
  | .procedure, token => token = .keyword .procedure
  | .constant, token => token = .keyword .const
  | .vars, token => token = .keyword .var
  | .statements, token | .statement, token => startsStmt token = true
  | .condition, token | .expression, token | .term, token | .factor, token =>
    (∃ text, token = .number text) ∨ (∃ name, token = .identifier name) ∨
      token = .sign .leftParen ∨ token = .sign .minus

namespace Form

/-- Whether nothing at all derives from the form. -/
def Nullable : Form → Prop
  | empty | many _ => True
  | terminal _ => False
  | rule nonterminal => nonterminal = .statements
  | seq first second => first.Nullable ∧ second.Nullable
  | alt first second => first.Nullable ∨ second.Nullable

def Begins : Form → Token → Prop
  | empty, _ => False
  | terminal symbol, token => symbol.Accepts token
  | rule nonterminal, token => nonterminal.Begins token
  | seq first second, token => first.Begins token ∨ first.Nullable ∧ second.Begins token
  | alt first second, token => first.Begins token ∨ second.Begins token
  | many form, token => form.Begins token

end Form

section

variable {first second form : Form} {token : Token}

@[simp] theorem begins_append : (first ++ second).Begins token ↔
    first.Begins token ∨ first.Nullable ∧ second.Begins token := Iff.rfl

@[simp] theorem begins_orElse : (first <|> second).Begins token ↔
    first.Begins token ∨ second.Begins token := Iff.rfl

@[simp] theorem begins_optional : (optional form).Begins token ↔ form.Begins token :=
  or_iff_left id

@[simp] theorem begins_many : (many form).Begins token ↔ form.Begins token := Iff.rfl

@[simp] theorem begins_rule {nonterminal : Nonterminal} :
    (rule nonterminal).Begins token ↔ nonterminal.Begins token := Iff.rfl

@[simp] theorem begins_terminal {symbol : Terminal} :
    (terminal symbol).Begins token ↔ symbol.Accepts token := Iff.rfl

@[simp] theorem begins_word {word : Keyword} :
    (Form.word word).Begins token ↔ token = .keyword word := accepts_keyword

@[simp] theorem begins_mark {mark : Sign} :
    (Form.mark mark).Begins token ↔ token = .sign mark := accepts_sign

@[simp] theorem nullable_append :
    (first ++ second).Nullable ↔ first.Nullable ∧ second.Nullable := Iff.rfl

@[simp] theorem nullable_orElse :
    (first <|> second).Nullable ↔ first.Nullable ∨ second.Nullable := Iff.rfl

@[simp] theorem not_nullable_word (word : Keyword) : ¬(Form.word word).Nullable := id

@[simp] theorem not_nullable_mark (mark : Sign) : ¬(Form.mark mark).Nullable := id

@[simp] theorem not_nullable_terminal (symbol : Terminal) : ¬(terminal symbol).Nullable := id

@[simp] theorem nullable_optional (form : Form) : (optional form).Nullable := .inr trivial

end

/-- The productions, where what an assignment and a call have in common is taken out. -/
def predictive (nonterminal : Nonterminal) : Form :=
  match nonterminal, production nonterminal with
  | .statement, alt _ (alt _ others) =>
    terminal .identifier ++ optional (mark .assign ++ rule .expression) <|> others
  | _, form => form

theorem derives_of_predictive {nonterminal : Nonterminal} {before after : List Lexeme}
    (h : (predictive nonterminal).Derives before after) :
    (production nonterminal).Derives before after := by
  cases nonterminal with
  | statement =>
    cases h with
    | left h =>
      obtain ⟨middle, hname, hrest⟩ := h.of_append
      cases hrest with
      | left hassign =>
        obtain ⟨next, hmark, hvalue⟩ := hassign.of_append
        exact .left (.seq (.seq hname hmark) hvalue)
      | right hempty =>
        cases hempty
        exact .right (.left hname)
    | right h => exact .right (.right h)
  | _ => exact h

/-- How following a form ends, and what is left. -/
inductive Ending where
  | passed (rest : List Lexeme)
  /-- The first of the tokens left cannot be passed. -/
  | refused (rest : List Lexeme)

namespace Ending

def rest : Ending → List Lexeme
  | passed rest | refused rest => rest

/-- The same end with other tokens left. -/
def before : Ending → List Lexeme → Ending
  | passed _, rest => passed rest
  | refused _, rest => refused rest

end Ending

/-- Alternatives are chosen by the next token. -/
inductive Form.Runs : Form → List Lexeme → Ending → Prop
  | empty {input : List Lexeme} : Runs .empty input (.passed input)
  | token {terminal : Terminal} {token : Token} {span : Span} {rest : List Lexeme}
    (h : terminal.Accepts token) : Runs (.terminal terminal) (⟨token, span⟩ :: rest) (.passed rest)
  | refuse {terminal : Terminal} {input : List Lexeme} (h : ¬terminal.Accepts (upcoming input)) :
    Runs (.terminal terminal) input (.refused input)
  | rule {nonterminal : Nonterminal} {input : List Lexeme} {ending : Ending}
    (h : Runs (predictive nonterminal) input ending) : Runs (.rule nonterminal) input ending
  | seq {first second : Form} {input middle : List Lexeme} {ending : Ending}
    (hfirst : Runs first input (.passed middle)) (hsecond : Runs second middle ending) :
    Runs (.seq first second) input ending
  | cut {first second : Form} {input rest : List Lexeme} (hfirst : Runs first input (.refused rest)) :
    Runs (.seq first second) input (.refused rest)
  | left {first second : Form} {input : List Lexeme} {ending : Ending}
    (hbegins : first.Begins (upcoming input)) (h : Runs first input ending) :
    Runs (.alt first second) input ending
  | right {first second : Form} {input : List Lexeme} {ending : Ending}
    (hbegins : ¬first.Begins (upcoming input)) (h : Runs second input ending) :
    Runs (.alt first second) input ending
  | none {form : Form} {input : List Lexeme} (hbegins : ¬form.Begins (upcoming input)) :
    Runs (.many form) input (.passed input)
  | more {form : Form} {input middle : List Lexeme} {ending : Ending}
    (hbegins : form.Begins (upcoming input)) (hfirst : Runs form input (.passed middle))
    (hrest : Runs (.many form) middle ending) : Runs (.many form) input ending
  | cutMore {form : Form} {input rest : List Lexeme} (hbegins : form.Begins (upcoming input))
    (hfirst : Runs form input (.refused rest)) : Runs (.many form) input (.refused rest)

namespace Form

variable {form first second : Form} {input taken before middle after : List Lexeme}
  {ending : Ending}

theorem Runs.unique (h : form.Runs input ending) {other : Ending} (h' : form.Runs input other) :
    ending = other := by
  induction h generalizing other with
  | empty =>
    cases h'
    rfl
  | token haccepts =>
    cases h' with
    | token => rfl
    | refuse hnot => exact (hnot haccepts).elim
  | refuse hnot =>
    cases h' with
    | token haccepts => exact (hnot haccepts).elim
    | refuse => rfl
  | rule _ ih =>
    cases h' with
    | rule h => exact ih h
  | seq _ _ ihfirst ihsecond =>
    cases h' with
    | seq hfirst hsecond =>
      cases ihfirst hfirst
      exact ihsecond hsecond
    | cut hfirst => cases ihfirst hfirst
  | cut _ ihfirst =>
    cases h' with
    | seq hfirst _ => cases ihfirst hfirst
    | cut hfirst => exact ihfirst hfirst
  | left hbegins _ ih =>
    cases h' with
    | left _ h => exact ih h
    | right hnot _ => exact (hnot hbegins).elim
  | right hnot _ ih =>
    cases h' with
    | left hbegins _ => exact (hnot hbegins).elim
    | right _ h => exact ih h
  | none hnot =>
    cases h' with
    | none => rfl
    | more hbegins _ _ => exact (hnot hbegins).elim
    | cutMore hbegins _ => exact (hnot hbegins).elim
  | more hbegins _ _ ihfirst ihrest =>
    cases h' with
    | none hnot => exact (hnot hbegins).elim
    | more _ hfirst hrest =>
      cases ihfirst hfirst
      exact ihrest hrest
    | cutMore _ hfirst => cases ihfirst hfirst
  | cutMore hbegins _ ihfirst =>
    cases h' with
    | none hnot => exact (hnot hbegins).elim
    | more _ hfirst _ => cases ihfirst hfirst
    | cutMore _ hfirst => exact ihfirst hfirst

theorem upcoming_append {others rest next : List Lexeme}
    (htokens : others.map Lexeme.token = taken.map Lexeme.token)
    (hnext : upcoming next = upcoming rest) : upcoming (others ++ next) = upcoming (taken ++ rest) := by
  cases taken with
  | nil =>
    obtain rfl := List.map_eq_nil_iff.1 htokens
    exact hnext
  | cons first more =>
    obtain ⟨other, rest', rfl, hother, -⟩ := List.map_eq_cons_iff.1 htokens
    exact hother

/-- Tokens alike up to the next one are followed alike. -/
theorem Runs.alike (h : form.Runs input ending) : ∃ taken, input = taken ++ ending.rest ∧
    ∀ others next, others.map Lexeme.token = taken.map Lexeme.token →
      upcoming next = upcoming ending.rest → form.Runs (others ++ next) (ending.before next) := by
  induction h with
  | empty =>
    refine ⟨[], rfl, fun others next htokens _ => ?_⟩
    obtain rfl := List.map_eq_nil_iff.1 htokens
    exact .empty
  | @token terminal token span rest haccepts =>
    refine ⟨[⟨token, span⟩], rfl, fun others next htokens _ => ?_⟩
    obtain ⟨other, more, rfl, hother, hmore⟩ := List.map_eq_cons_iff.1 htokens
    obtain rfl := List.map_eq_nil_iff.1 hmore
    exact .token (hother ▸ haccepts)
  | refuse hnot =>
    refine ⟨[], rfl, fun others next htokens hnext => ?_⟩
    obtain rfl := List.map_eq_nil_iff.1 htokens
    exact .refuse (by rwa [List.nil_append, hnext])
  | rule _ ih =>
    obtain ⟨taken, hinput, hruns⟩ := ih
    exact ⟨taken, hinput, fun others next htokens hnext => .rule (hruns others next htokens hnext)⟩
  | seq _ _ ihfirst ihsecond =>
    obtain ⟨taken, rfl, hfirst⟩ := ihfirst
    obtain ⟨more, hmiddle, hsecond⟩ := ihsecond
    obtain rfl := hmiddle
    refine ⟨taken ++ more, (List.append_assoc _ _ _).symm, fun others next htokens hnext => ?_⟩
    rw [List.map_append] at htokens
    obtain ⟨others, more', rfl, hothers, hmore⟩ := List.map_eq_append_iff.1 htokens
    rw [List.append_assoc]
    exact .seq (hfirst others _ hothers (upcoming_append hmore hnext)) (hsecond more' next hmore hnext)
  | cut _ ihfirst =>
    obtain ⟨taken, hinput, hruns⟩ := ihfirst
    exact ⟨taken, hinput, fun others next htokens hnext => .cut (hruns others next htokens hnext)⟩
  | left hbegins _ ih =>
    obtain ⟨taken, rfl, hruns⟩ := ih
    refine ⟨taken, rfl, fun others next htokens hnext => ?_⟩
    exact .left (by rwa [upcoming_append htokens hnext]) (hruns others next htokens hnext)
  | right hnot _ ih =>
    obtain ⟨taken, rfl, hruns⟩ := ih
    refine ⟨taken, rfl, fun others next htokens hnext => ?_⟩
    exact .right (by rwa [upcoming_append htokens hnext]) (hruns others next htokens hnext)
  | none hnot =>
    refine ⟨[], rfl, fun others next htokens hnext => ?_⟩
    obtain rfl := List.map_eq_nil_iff.1 htokens
    exact .none (by rwa [List.nil_append, hnext])
  | more hbegins _ _ ihfirst ihrest =>
    obtain ⟨taken, rfl, hfirst⟩ := ihfirst
    obtain ⟨more, hmiddle, hrest⟩ := ihrest
    obtain rfl := hmiddle
    refine ⟨taken ++ more, (List.append_assoc _ _ _).symm, fun others next htokens hnext => ?_⟩
    have halike := upcoming_append htokens hnext
    rw [List.map_append] at htokens
    obtain ⟨others, more', rfl, hothers, hmore⟩ := List.map_eq_append_iff.1 htokens
    rw [List.append_assoc] at halike ⊢
    refine .more ?_ (hfirst others _ hothers (upcoming_append hmore hnext))
      (hrest more' next hmore hnext)
    rw [halike, List.append_assoc]
    exact hbegins
  | cutMore hbegins _ ihfirst =>
    obtain ⟨taken, rfl, hruns⟩ := ihfirst
    refine ⟨taken, rfl, fun others next htokens hnext => ?_⟩
    exact .cutMore (by rwa [upcoming_append htokens hnext]) (hruns others next htokens hnext)

/-- What follows does not matter for what derives. -/
theorem Derives.exists_taken (h : form.Derives before after) :
    ∃ taken, before = taken ++ after ∧ ∀ others, form.Derives (taken ++ others) others := by
  induction h with
  | empty => exact ⟨[], rfl, fun _ => .empty⟩
  | @terminal terminal token span after h => exact ⟨[⟨token, span⟩], rfl, fun _ => .terminal h⟩
  | rule _ ih =>
    obtain ⟨taken, hbefore, hderives⟩ := ih
    exact ⟨taken, hbefore, fun others => .rule (hderives others)⟩
  | seq _ _ ihfirst ihsecond =>
    obtain ⟨taken, rfl, hfirst⟩ := ihfirst
    obtain ⟨more, rfl, hsecond⟩ := ihsecond
    refine ⟨taken ++ more, (List.append_assoc _ _ _).symm, fun others => ?_⟩
    rw [List.append_assoc]
    exact .seq (hfirst _) (hsecond others)
  | left _ ih =>
    obtain ⟨taken, hbefore, hderives⟩ := ih
    exact ⟨taken, hbefore, fun others => .left (hderives others)⟩
  | right _ ih =>
    obtain ⟨taken, hbefore, hderives⟩ := ih
    exact ⟨taken, hbefore, fun others => .right (hderives others)⟩
  | none => exact ⟨[], rfl, fun _ => .none⟩
  | more _ _ ihfirst ihrest =>
    obtain ⟨taken, rfl, hfirst⟩ := ihfirst
    obtain ⟨more, rfl, hrest⟩ := ihrest
    refine ⟨taken ++ more, (List.append_assoc _ _ _).symm, fun others => ?_⟩
    rw [List.append_assoc]
    exact .more (hfirst _) (hrest others)

/-- Tokens that the same terminals stand for can be put in place of the tokens. -/
theorem Derives.map (change : Lexeme → Lexeme)
    (hchange : ∀ terminal lexeme, Terminal.Accepts terminal lexeme.token →
      terminal.Accepts (change lexeme).token)
    (h : form.Derives before after) : form.Derives (before.map change) (after.map change) := by
  induction h with
  | empty => exact .empty
  | terminal h => exact .terminal (hchange _ _ h)
  | rule _ ih => exact .rule ih
  | seq _ _ ihfirst ihsecond => exact .seq ihfirst ihsecond
  | left _ ih => exact .left ih
  | right _ ih => exact .right ih
  | none => exact .none
  | more _ _ ihfirst ihrest => exact .more ihfirst ihrest

/-- With more tokens behind them, the tokens derive from the form. -/
def Starts (form : Form) (taken : List Lexeme) : Prop :=
  ∃ more, ∀ after, form.Derives (taken ++ more ++ after) after

namespace Starts

theorem of_derives (h : ∀ others, form.Derives (taken ++ others) others) : form.Starts taken :=
  ⟨[], fun after => by rw [List.append_nil]; exact h after⟩

theorem rule {nonterminal : Nonterminal} (h : (production nonterminal).Starts taken) :
    (Form.rule nonterminal).Starts taken := by
  obtain ⟨more, hmore⟩ := h
  exact ⟨more, fun after => .rule (hmore after)⟩

theorem left (h : first.Starts taken) : (first <|> second).Starts taken := by
  obtain ⟨more, hmore⟩ := h
  exact ⟨more, fun after => .left (hmore after)⟩

theorem right (h : second.Starts taken) : (first <|> second).Starts taken := by
  obtain ⟨more, hmore⟩ := h
  exact ⟨more, fun after => .right (hmore after)⟩

theorem seq (h : first.Starts taken) (h' : second.Starts []) : (first ++ second).Starts taken := by
  obtain ⟨more, hmore⟩ := h
  obtain ⟨rest, hrest⟩ := h'
  refine ⟨more ++ rest, fun after => ?_⟩
  rw [← List.append_assoc, List.append_assoc]
  exact .seq (hmore _) (hrest after)

theorem next (hfirst : ∀ others, first.Derives (taken ++ others) others) {more : List Lexeme}
    (h : second.Starts more) : (first ++ second).Starts (taken ++ more) := by
  obtain ⟨rest, hrest⟩ := h
  refine ⟨rest, fun after => ?_⟩
  rw [List.append_assoc, List.append_assoc, ← List.append_assoc more]
  exact .seq (hfirst _) (hrest after)

theorem one (h : form.Starts taken) : (many form).Starts taken := by
  obtain ⟨more, hmore⟩ := h
  exact ⟨more, fun after => .more (hmore after) .none⟩

theorem more (hfirst : ∀ others, form.Derives (taken ++ others) others) {more : List Lexeme}
    (h : (many form).Starts more) : (many form).Starts (taken ++ more) := by
  obtain ⟨rest, hrest⟩ := h
  refine ⟨rest, fun after => ?_⟩
  rw [List.append_assoc, List.append_assoc, ← List.append_assoc more]
  exact .more (hfirst _) (hrest after)

end Starts

theorem starts_many (form : Form) : (many form).Starts [] := .of_derives fun _ => .none

theorem starts_terminal (symbol : Terminal) : (terminal symbol).Starts [] := by
  obtain ⟨token, htoken⟩ : ∃ token, symbol.Accepts token := by
    cases symbol with
    | keyword word => exact ⟨_, .keyword word⟩
    | sign mark => exact ⟨_, .sign mark⟩
    | identifier => exact ⟨_, .identifier "X"⟩
    | typeName => exact ⟨_, .typeName (show IntType.ofName? "INT8" = some ⟨8, true⟩ by decide +kernel)⟩
    | number => exact ⟨_, .number "0"⟩
    | string => exact ⟨_, .string ""⟩
  exact ⟨[⟨token, {}⟩], fun after => .terminal htoken⟩

theorem starts_rule (nonterminal : Nonterminal) : (rule nonterminal).Starts [] := by
  have hword (word : Keyword) : (Form.word word).Starts [] := starts_terminal _
  have hmark (mark : Sign) : (Form.mark mark).Starts [] := starts_terminal _
  have hfactor : (rule .factor).Starts [] := .rule (.left (starts_terminal .number))
  have hterm : (rule .term).Starts [] := .rule (hfactor.seq (starts_many _))
  have hexpression : (rule .expression).Starts [] := .rule (hterm.seq (starts_many _))
  have hstatements : (rule .statements).Starts [] := .rule (starts_many _)
  have hconstant : (rule .constant).Starts [] :=
    .rule (((((hword _).seq (starts_terminal _)).seq (hmark _)).seq
      (.right (.left (starts_terminal _)))).seq (hmark _))
  have hprocedure : (rule .procedure).Starts [] :=
    .rule ((((((((hword _).seq (starts_terminal _)).seq (hmark _)).seq (starts_many _)).seq
      (hword _)).seq hstatements).seq (hword _)).seq (.left (hmark _)))
  cases nonterminal with
  | program => exact .rule (((starts_many _).seq hprocedure).seq (.left (hmark _)))
  | procedure => exact hprocedure
  | declaration => exact .rule (.left hconstant)
  | constant => exact hconstant
  | vars =>
    exact .rule (((((hword _).seq ((starts_terminal _).seq (starts_many _))).seq (hmark _)).seq
      (starts_terminal _)).seq (hmark _))
  | statements => exact hstatements
  | statement => exact .rule (.right (.left (starts_terminal _)))
  | condition => exact .rule ((hexpression.seq (.left (hmark _))).seq hexpression)
  | expression => exact hexpression
  | term => exact hterm
  | factor => exact hfactor

/-- Every form can be completed from nothing. -/
theorem starts_nil (form : Form) : form.Starts [] := by
  induction form with
  | empty => exact .of_derives fun _ => .empty
  | terminal symbol => exact starts_terminal symbol
  | rule nonterminal => exact starts_rule nonterminal
  | seq first second ihfirst ihsecond => exact ihfirst.seq ihsecond
  | alt first second ihfirst ihsecond => exact ihfirst.left
  | many form ih => exact starts_many form

/-- What was passed derives from the form, and what was passed before a refusal starts it. -/
def Covers (form : Form) (input : List Lexeme) : Ending → Prop
  | .passed rest => form.Derives input rest
  | .refused rest => ∃ taken, input = taken ++ rest ∧ form.Starts taken

theorem Runs.covers (h : form.Runs input ending) : form.Covers input ending := by
  induction h with
  | empty => exact .empty
  | token haccepts => exact .terminal haccepts
  | refuse _ => exact ⟨[], rfl, starts_nil _⟩
  | @rule nonterminal input ending _ ih =>
    cases ending with
    | passed rest => exact .rule (derives_of_predictive ih)
    | refused rest =>
      obtain ⟨taken, hinput, more, hmore⟩ := ih
      exact ⟨taken, hinput, .rule ⟨more, fun after => derives_of_predictive (hmore after)⟩⟩
  | @seq first second input middle ending _ _ ihfirst ihsecond =>
    cases ending with
    | passed rest => exact .seq ihfirst ihsecond
    | refused rest =>
      obtain ⟨taken, rfl, hfirst⟩ := Derives.exists_taken ihfirst
      obtain ⟨more, rfl, hsecond⟩ := ihsecond
      exact ⟨taken ++ more, (List.append_assoc _ _ _).symm, .next hfirst hsecond⟩
  | cut _ ihfirst =>
    obtain ⟨taken, hinput, hfirst⟩ := ihfirst
    exact ⟨taken, hinput, hfirst.seq (starts_nil _)⟩
  | @left first second input ending _ _ ih =>
    cases ending with
    | passed rest => exact .left ih
    | refused rest =>
      obtain ⟨taken, hinput, hfirst⟩ := ih
      exact ⟨taken, hinput, hfirst.left⟩
  | @right first second input ending _ _ ih =>
    cases ending with
    | passed rest => exact .right ih
    | refused rest =>
      obtain ⟨taken, hinput, hsecond⟩ := ih
      exact ⟨taken, hinput, hsecond.right⟩
  | none _ => exact .none
  | @more form input middle ending _ _ _ ihfirst ihrest =>
    cases ending with
    | passed rest => exact .more ihfirst ihrest
    | refused rest =>
      obtain ⟨taken, rfl, hfirst⟩ := Derives.exists_taken ihfirst
      obtain ⟨more, rfl, hrest⟩ := ihrest
      exact ⟨taken ++ more, (List.append_assoc _ _ _).symm, .more hfirst hrest⟩
  | cutMore _ _ ihfirst =>
    obtain ⟨taken, hinput, hfirst⟩ := ihfirst
    exact ⟨taken, hinput, hfirst.one⟩

theorem Runs.derives {rest : List Lexeme} (h : form.Runs input (.passed rest)) :
    form.Derives input rest :=
  h.covers

theorem Runs.starts (h : form.Runs input ending) :
    ∃ taken, input = taken ++ ending.rest ∧ form.Starts taken := by
  cases ending with
  | passed rest =>
    obtain ⟨taken, hinput, hderives⟩ := h.derives.exists_taken
    exact ⟨taken, hinput, .of_derives hderives⟩
  | refused rest => exact h.covers

end Form

end BlockLang.Grammar
