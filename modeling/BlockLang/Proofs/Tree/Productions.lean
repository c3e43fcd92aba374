import BlockLang.Proofs.Tree.Grammar
import Mathlib.Logic.Relation

/-! The grammar as productions. What derives from them is what the trees of the language are
spelt by. -/

namespace BlockLang.Grammar

open BlockLang.Tree

inductive Terminal where
  | keyword (word : Keyword)
  | sign (mark : Sign)
  | identifier
  | typeName
  | number
  | string
  deriving Repr, DecidableEq

/-- The tokens that a terminal stands for. A type's name is an identifier that names a type. -/
inductive Terminal.Accepts : Terminal → Token → Prop
  | keyword (word : Keyword) : Accepts (.keyword word) (.keyword word)
  | sign (mark : Sign) : Accepts (.sign mark) (.sign mark)
  | identifier (name : String) : Accepts .identifier (.identifier name)
  | typeName {name : String} {type : IntType} (h : IntType.ofName? name = some type) :
    Accepts .typeName (.identifier name)
  | number (text : String) : Accepts .number (.number text)
  | string (text : String) : Accepts .string (.string text)

inductive Nonterminal where
  | program | procedure | declaration | constant | vars
  | statements | statement | condition | expression | term | factor
  deriving Repr, DecidableEq

inductive Form where
  | empty
  | terminal (terminal : Terminal)
  | rule (nonterminal : Nonterminal)
  | seq (first second : Form)
  | alt (first second : Form)
  | many (form : Form)
  deriving Repr, DecidableEq

namespace Form

instance : Append Form := ⟨seq⟩

instance : OrElse Form := ⟨fun first second => alt first (second ())⟩

def optional (form : Form) : Form := form <|> empty

def word (word : Keyword) : Form := terminal (.keyword word)

def mark (mark : Sign) : Form := terminal (.sign mark)

end Form

open Form

/-- What a nonterminal is made of. -/
def production : Nonterminal → Form
  | .program =>
    many (rule .constant <|> rule .vars) ++ rule .procedure ++ optional (mark .dot)
  | .procedure =>
    word .procedure ++ terminal .identifier ++ mark .semicolon ++ many (rule .declaration) ++
      word .begin_ ++ rule .statements ++ word .end_ ++ optional (mark .semicolon)
  | .declaration => rule .constant <|> rule .vars <|> rule .procedure
  | .constant =>
    word .const ++ terminal .identifier ++ mark .equal ++
      (optional (mark .minus) ++ terminal .number <|> terminal .string <|> terminal .identifier) ++
      mark .semicolon
  | .vars =>
    word .var ++ (terminal .identifier ++ many (mark .comma ++ terminal .identifier)) ++
      mark .colon ++ terminal .typeName ++ mark .semicolon
  | .statements => many (rule .statement ++ many (mark .semicolon))
  | .statement =>
    terminal .identifier ++ mark .assign ++ rule .expression <|>
    terminal .identifier <|>
    word .call ++ terminal .identifier <|>
    word .if_ ++ rule .condition ++ word .then_ ++ rule .statements ++
      optional (word .else_ ++ rule .statements) ++ word .end_ <|>
    word .while_ ++ rule .condition ++ word .do_ ++ rule .statements ++ word .end_ <|>
    word .return_ <|>
    word .begin_ ++ many (rule .constant <|> rule .vars) ++ rule .statements ++ word .end_
  | .condition =>
    rule .expression ++
      (mark .equal <|> mark .notEqual <|> mark .less <|> mark .lessEqual <|> mark .greater <|>
        mark .greaterEqual) ++
      rule .expression
  | .expression => rule .term ++ many ((mark .plus <|> mark .minus) ++ rule .term)
  | .term => rule .factor ++ many ((mark .star <|> mark .slash <|> word .mod) ++ rule .factor)
  | .factor =>
    terminal .number <|>
    terminal .identifier <|>
    mark .leftParen ++ rule .expression ++ mark .rightParen <|>
    mark .minus ++ rule .factor

/-- The tokens of `before` up to `after` derive from the form. -/
inductive Form.Derives : Form → List Lexeme → List Lexeme → Prop
  | empty {after : List Lexeme} : Derives .empty after after
  | terminal {terminal : Terminal} {token : Token} {span : Span} {after : List Lexeme}
    (h : terminal.Accepts token) : Derives (.terminal terminal) (⟨token, span⟩ :: after) after
  | rule {nonterminal : Nonterminal} {before after : List Lexeme}
    (h : Derives (production nonterminal) before after) : Derives (.rule nonterminal) before after
  | seq {first second : Form} {before middle after : List Lexeme}
    (hfirst : Derives first before middle) (hsecond : Derives second middle after) :
    Derives (.seq first second) before after
  | left {first second : Form} {before after : List Lexeme} (h : Derives first before after) :
    Derives (.alt first second) before after
  | right {first second : Form} {before after : List Lexeme} (h : Derives second before after) :
    Derives (.alt first second) before after
  | none {form : Form} {after : List Lexeme} : Derives (.many form) after after
  | more {form : Form} {before middle after : List Lexeme} (hfirst : Derives form before middle)
    (hrest : Derives (.many form) middle after) : Derives (.many form) before after

namespace Form

variable {form : Form} {before middle after : List Lexeme}

theorem Derives.suffix (h : form.Derives before after) : after <:+ before := by
  induction h with
  | empty => exact List.suffix_rfl
  | terminal _ => exact List.suffix_cons _ _
  | rule _ ih => exact ih
  | seq _ _ ihfirst ihsecond => exact ihsecond.trans ihfirst
  | left _ ih => exact ih
  | right _ ih => exact ih
  | none => exact List.suffix_rfl
  | more _ _ ihfirst ihrest => exact ihrest.trans ihfirst

theorem Derives.snoc (h : (many form).Derives before middle) (hlast : form.Derives middle after) :
    (many form).Derives before after := by
  generalize hrest : many form = rest at h
  induction h with
  | none =>
    cases hrest
    exact .more hlast .none
  | more hfirst _ _ ihrest =>
    cases hrest
    exact .more hfirst (ihrest hlast rfl)
  | _ => cases hrest

theorem Derives.of_rule {nonterminal : Nonterminal}
    (h : (Form.rule nonterminal).Derives before after) :
    (production nonterminal).Derives before after := by
  cases h with
  | rule h => exact h

theorem Derives.of_append {first second : Form} (h : (first ++ second).Derives before after) :
    ∃ middle, first.Derives before middle ∧ second.Derives middle after := by
  cases h with
  | seq hfirst hsecond => exact ⟨_, hfirst, hsecond⟩

theorem derives_word (word : Keyword) (span : Span) (after : List Lexeme) :
    (Form.word word).Derives (⟨.keyword word, span⟩ :: after) after :=
  .terminal (.keyword word)

theorem derives_mark (mark : Sign) (span : Span) (after : List Lexeme) :
    (Form.mark mark).Derives (⟨.sign mark, span⟩ :: after) after :=
  .terminal (.sign mark)

theorem derives_identifier (name : String) (span : Span) (after : List Lexeme) :
    (Form.terminal .identifier).Derives (⟨.identifier name, span⟩ :: after) after :=
  .terminal (.identifier name)

end Form

section

variable {before after : List Lexeme}

def rankRule : Rank → Nonterminal
  | .factor => .factor
  | .term => .term
  | .sum => .expression

def extentRule : Extent → Nonterminal
  | .single => .statement
  | .body => .statements

theorem derives_multiplying {token : Token} {op : Operator}
    (h : Operator.ofMultiplying? token = some op) (span : Span) (after : List Lexeme) :
    (mark .star <|> mark .slash <|> word .mod).Derives (⟨token, span⟩ :: after) after := by
  unfold Operator.ofMultiplying? at h
  split at h
  · exact .left (derives_mark _ _ _)
  · exact .right (.left (derives_mark _ _ _))
  · exact .right (.right (derives_word _ _ _))
  · cases h

theorem derives_adding {token : Token} {op : Operator} (h : Operator.ofAdding? token = some op)
    (span : Span) (after : List Lexeme) :
    (mark .plus <|> mark .minus).Derives (⟨token, span⟩ :: after) after := by
  unfold Operator.ofAdding? at h
  split at h
  · exact .left (derives_mark _ _ _)
  · exact .right (derives_mark _ _ _)
  · cases h

theorem derives_comparison {token : Token} {op : Comparison}
    (h : Comparison.ofToken? token = some op) (span : Span) (after : List Lexeme) :
    (mark .equal <|> mark .notEqual <|> mark .less <|> mark .lessEqual <|> mark .greater <|>
      mark .greaterEqual).Derives (⟨token, span⟩ :: after) after := by
  unfold Comparison.ofToken? at h
  split at h
  · exact .left (derives_mark _ _ _)
  · exact .right (.left (derives_mark _ _ _))
  · exact .right (.right (.left (derives_mark _ _ _)))
  · exact .right (.right (.right (.left (derives_mark _ _ _))))
  · exact .right (.right (.right (.right (.left (derives_mark _ _ _)))))
  · exact .right (.right (.right (.right (.right (derives_mark _ _ _)))))
  · cases h

theorem derives_of_expr {rank : Rank} {expr : Expr} (h : expr.Derives rank before after) :
    (rule (rankRule rank)).Derives before after := by
  induction h with
  | number _ => exact .rule (.left (.terminal (.number _)))
  | name => exact .rule (.right (.left (derives_identifier _ _ _)))
  | paren _ ih =>
    exact .rule (.right (.right (.left (.seq (.seq (derives_mark _ _ _) ih) (derives_mark _ _ _)))))
  | negate _ ih => exact .rule (.right (.right (.right (.seq (derives_mark _ _ _) ih))))
  | factor _ ih => exact .rule (.seq ih .none)
  | multiply hop _ _ ihleft ihright =>
    obtain ⟨_, hfirst, hrest⟩ := ihleft.of_rule.of_append
    exact .rule (.seq hfirst (hrest.snoc (.seq (derives_multiplying hop _ _) ihright)))
  | term _ ih => exact .rule (.seq ih .none)
  | add hop _ _ ihleft ihright =>
    obtain ⟨_, hfirst, hrest⟩ := ihleft.of_rule.of_append
    exact .rule (.seq hfirst (hrest.snoc (.seq (derives_adding hop _ _) ihright)))

theorem derives_of_cond {cond : Cond} (h : cond.Derives before after) :
    (rule .condition).Derives before after := by
  obtain ⟨hop, hleft, hright⟩ := h
  exact .rule (.seq (.seq (derives_of_expr hleft) (derives_comparison hop _ _))
    (derives_of_expr hright))

theorem derives_of_constValue {value : ConstValue} (h : value.Derives before after) :
    (optional (mark .minus) ++ terminal .number <|> terminal .string <|>
      terminal .identifier).Derives before after := by
  cases h with
  | number => exact .left (.seq (.right .empty) (.terminal (.number _)))
  | negative => exact .left (.seq (.left (derives_mark _ _ _)) (.terminal (.number _)))
  | string => exact .right (.left (.terminal (.string _)))
  | copy => exact .right (.right (derives_identifier _ _ _))

theorem derives_of_names {names : List Ident} (h : NamesDerive names before after) :
    (terminal .identifier ++ many (mark .comma ++ terminal .identifier)).Derives before after := by
  induction h with
  | last => exact .seq (derives_identifier _ _ _) .none
  | more _ ih =>
    obtain ⟨_, hfirst, hrest⟩ := ih.of_append
    exact .seq (derives_identifier _ _ _) (.more (.seq (derives_mark _ _ _) hfirst) hrest)

theorem derives_of_declaration {declaration : Declaration}
    (h : declaration.Derives before after) :
    (rule .constant <|> rule .vars).Derives before after := by
  cases h with
  | const hvalue =>
    exact .left (.rule (.seq (.seq (.seq (.seq (derives_word _ _ _) (derives_identifier _ _ _))
      (derives_mark _ _ _)) (derives_of_constValue hvalue)) (derives_mark _ _ _)))
  | vars htype hnames =>
    exact .right (.rule (.seq (.seq (.seq (.seq (derives_word _ _ _) (derives_of_names hnames))
      (derives_mark _ _ _)) (.terminal (.typeName htype))) (derives_mark _ _ _)))

theorem derives_of_locals {locals : List Declaration} (h : LocalsDerive locals before after) :
    (many (rule .constant <|> rule .vars)).Derives before after := by
  induction h with
  | nil => exact .none
  | cons hfirst _ ih => exact .more (derives_of_declaration hfirst) ih

theorem derives_of_semicolons (h : Semicolons before after) :
    (many (mark .semicolon)).Derives before after := by
  induction h with
  | none => exact .none
  | more _ ih => exact .more (derives_mark _ _ _) ih

theorem derives_of_optionally {sign : Sign} (h : Optionally sign before after) :
    (optional (mark sign)).Derives before after := by
  cases h with
  | absent => exact .right .empty
  | present => exact .left (derives_mark _ _ _)

theorem derives_of_stmt {extent : Extent} {stmt : Stmt} (h : stmt.Derives extent before after) :
    (rule (extentRule extent)).Derives before after := by
  induction h with
  | assign hvalue =>
    exact .rule (.left (.seq (.seq (derives_identifier _ _ _) (derives_mark _ _ _))
      (derives_of_expr hvalue)))
  | call => exact .rule (.right (.left (derives_identifier _ _ _)))
  | callWord =>
    exact .rule (.right (.right (.left (.seq (derives_word _ _ _) (derives_identifier _ _ _)))))
  | branch hcondition _ ihyes =>
    exact .rule (.right (.right (.right (.left (.seq (.seq (.seq (.seq (.seq (derives_word _ _ _)
      (derives_of_cond hcondition)) (derives_word _ _ _)) ihyes) (.right .empty))
      (derives_word _ _ _))))))
  | branchElse hcondition _ _ ihyes ihno =>
    exact .rule (.right (.right (.right (.left (.seq (.seq (.seq (.seq (.seq (derives_word _ _ _)
      (derives_of_cond hcondition)) (derives_word _ _ _)) ihyes)
      (.left (.seq (derives_word _ _ _) ihno))) (derives_word _ _ _))))))
  | loop hcondition _ ihbody =>
    exact .rule (.right (.right (.right (.right (.left (.seq (.seq (.seq (.seq (derives_word _ _ _)
      (derives_of_cond hcondition)) (derives_word _ _ _)) ihbody) (derives_word _ _ _)))))))
  | ret => exact .rule (.right (.right (.right (.right (.right (.left (derives_word _ _ _)))))))
  | block hlocals _ ihbody =>
    exact .rule (.right (.right (.right (.right (.right (.right (.seq (.seq (.seq
      (derives_word _ _ _) (derives_of_locals hlocals)) ihbody) (derives_word _ _ _))))))))
  | skip => exact .rule .none
  | seq _ hsemicolons _ ihfirst ihsecond =>
    exact .rule (.more (.seq ihfirst (derives_of_semicolons hsemicolons)) ihsecond.of_rule)

/-- A procedure's tokens, from its keyword to its end. -/
theorem derives_procedure {body : Stmt} {name : String}
    {word span semicolon first last : Span} {middle next : List Lexeme}
    (hlocals : (many (rule .declaration)).Derives before (⟨.keyword .begin_, first⟩ :: middle))
    (hbody : body.Derives .body middle (⟨.keyword .end_, last⟩ :: next))
    (hsemicolon : Optionally .semicolon next after) :
    (rule .procedure).Derives (⟨.keyword .procedure, word⟩ :: ⟨.identifier name, span⟩ ::
      ⟨.sign .semicolon, semicolon⟩ :: before) after :=
  .rule (.seq (.seq (.seq (.seq (.seq (.seq (.seq (derives_word _ _ _)
    (derives_identifier _ _ _)) (derives_mark _ _ _)) hlocals) (derives_word _ _ _))
    (derives_of_stmt hbody)) (derives_word _ _ _)) (derives_of_optionally hsemicolon))

theorem derives_of_decls {decls : Decls} (h : decls.Derives before after) :
    (many (rule .declaration)).Derives before after := by
  induction h with
  | nil => exact .none
  | plain hfirst _ ih =>
    refine .more (.rule ?_) ih
    cases derives_of_declaration hfirst with
    | left h => exact .left h
    | right h => exact .right (.left h)
  | nested _ hbody hsemicolon _ ihlocals ihrest =>
    exact .more (.rule (.right (.right (derives_procedure ihlocals hbody hsemicolon)))) ihrest

theorem derives_of_spells {decls : Decls} (h : decls.Spells before) :
    (rule .program).Derives before [] := by
  induction h with
  | plain hfirst _ ih =>
    obtain ⟨_, hrest, hdot⟩ := ih.of_rule.of_append
    obtain ⟨_, hplain, hprocedure⟩ := hrest.of_append
    exact .rule (.seq (.seq (.more (derives_of_declaration hfirst) hplain) hprocedure) hdot)
  | procedure hprocedure hdot =>
    cases hprocedure with
    | nested hlocals hbody hsemicolon hrest =>
      cases hrest
      exact .rule (.seq (.seq .none (derives_procedure (derives_of_decls hlocals) hbody hsemicolon))
        (derives_of_optionally hdot))

end

/-- Numbers can be read, as all those of a source can. -/
def Readable (token : Token) : Prop :=
  ∀ text, token = .number text → (Numeral.read? text).isSome = true

/-- The trees that a nonterminal stands for. Other declarations may follow a declaration. -/
def Nonterminal.Spelt : Nonterminal → List Lexeme → List Lexeme → Prop
  | program, before, after => after = [] → ∃ decls : Decls, decls.Spells before
  | procedure, before, after => ∃ heading locals body, ∀ rest last, Decls.Derives rest after last →
    (Decls.nested heading locals body rest).Derives before last
  | declaration, before, after => ∀ rest last, Decls.Derives rest after last →
    ∃ decls : Decls, decls.Derives before last
  | constant, before, after => ∃ declaration : Declaration, declaration.Derives before after
  | vars, before, after => ∃ declaration : Declaration, declaration.Derives before after
  | statements, before, after => ∃ stmt : Stmt, stmt.Derives .body before after
  | statement, before, after => ∃ stmt : Stmt, stmt.Derives .single before after
  | condition, before, after => ∃ cond : Cond, cond.Derives before after
  | expression, before, after => ∃ expr : Expr, expr.Derives .sum before after
  | term, before, after => ∃ expr : Expr, expr.Derives .term before after
  | factor, before, after => ∃ expr : Expr, expr.Derives .factor before after

/-- What derives from a form, if nonterminals are spelt by their trees. -/
def Form.Spelt : Form → List Lexeme → List Lexeme → Prop
  | empty, before, after => before = after
  | terminal wanted, before, after => ∃ token span, wanted.Accepts token ∧ Readable token ∧
    before = ⟨token, span⟩ :: after
  | rule nonterminal, before, after => nonterminal.Spelt before after
  | seq first second, before, after => ∃ middle, first.Spelt before middle ∧
    second.Spelt middle after
  | alt first second, before, after => first.Spelt before after ∨ second.Spelt before after
  | many form, before, after => Relation.ReflTransGen form.Spelt before after

section

variable {before middle after : List Lexeme}

theorem spelt_factor (h : (production .factor).Spelt before after) :
    Nonterminal.factor.Spelt before after := by
  rcases h with ⟨_, span, ⟨⟩, hread, rfl⟩ | ⟨_, span, ⟨⟩, -, rfl⟩ |
    ⟨_, ⟨_, ⟨_, first, ⟨⟩, -, rfl⟩, inner, hinner⟩, _, last, ⟨⟩, -, rfl⟩ |
    ⟨_, ⟨_, span, ⟨⟩, -, rfl⟩, operand, hoperand⟩
  · obtain ⟨value, hvalue⟩ := Option.isSome_iff_exists.1 (hread _ rfl)
    exact ⟨.number value, .number hvalue⟩
  · exact ⟨_, .name⟩
  · exact ⟨inner, .paren hinner⟩
  · exact ⟨.negate operand, .negate hoperand⟩

theorem spelt_term (h : (production .term).Spelt before after) :
    Nonterminal.term.Spelt before after := by
  obtain ⟨middle, ⟨first, hfirst⟩, hrest⟩ := h
  -- Further factors join on the right, as operators group to the left.
  induction hrest with
  | refl => exact ⟨first, .factor hfirst⟩
  | tail _ hlast ih =>
    obtain ⟨left, hleft⟩ := ih
    obtain ⟨_, ⟨_, span, ⟨⟩, -, rfl⟩ | ⟨_, span, ⟨⟩, -, rfl⟩ | ⟨_, span, ⟨⟩, -, rfl⟩, right, hright⟩ :=
      hlast
    · exact ⟨.binary .mul left right, .multiply rfl hleft hright⟩
    · exact ⟨.binary .div left right, .multiply rfl hleft hright⟩
    · exact ⟨.binary .rem left right, .multiply rfl hleft hright⟩

theorem spelt_expression (h : (production .expression).Spelt before after) :
    Nonterminal.expression.Spelt before after := by
  obtain ⟨middle, ⟨first, hfirst⟩, hrest⟩ := h
  induction hrest with
  | refl => exact ⟨first, .term hfirst⟩
  | tail _ hlast ih =>
    obtain ⟨left, hleft⟩ := ih
    obtain ⟨_, ⟨_, span, ⟨⟩, -, rfl⟩ | ⟨_, span, ⟨⟩, -, rfl⟩, right, hright⟩ := hlast
    · exact ⟨.binary .add left right, .add rfl hleft hright⟩
    · exact ⟨.binary .sub left right, .add rfl hleft hright⟩

theorem spelt_condition (h : (production .condition).Spelt before after) :
    Nonterminal.condition.Spelt before after := by
  obtain ⟨_, ⟨_, ⟨left, hleft⟩, hop⟩, right, hright⟩ := h
  rcases hop with ⟨_, _, ⟨⟩, -, rfl⟩ | ⟨_, _, ⟨⟩, -, rfl⟩ | ⟨_, _, ⟨⟩, -, rfl⟩ |
    ⟨_, _, ⟨⟩, -, rfl⟩ | ⟨_, _, ⟨⟩, -, rfl⟩ | ⟨_, _, ⟨⟩, -, rfl⟩
  all_goals exact ⟨_, .compare rfl hleft hright⟩

/-- The names behind the first one. -/
private theorem names_of_spelt (h : (many (mark .comma ++ terminal .identifier)).Spelt middle after)
    (name : String) (span : Span) :
    ∃ names, NamesDerive names (⟨.identifier name, span⟩ :: middle) after := by
  induction h using Relation.ReflTransGen.head_induction_on generalizing name span with
  | refl => exact ⟨_, .last⟩
  | head hfirst _ ih =>
    obtain ⟨_, ⟨_, comma, ⟨⟩, -, rfl⟩, _, next, ⟨⟩, -, rfl⟩ := hfirst
    obtain ⟨names, hnames⟩ := ih _ next
    exact ⟨_, .more hnames⟩

private theorem constValue_of_spelt (h : (optional (mark .minus) ++ terminal .number <|>
    terminal .string <|> terminal .identifier).Spelt before after) :
    ∃ value : ConstValue, value.Derives before after := by
  rcases h with ⟨_, ⟨_, minus, ⟨⟩, -, rfl⟩ | rfl, _, span, ⟨⟩, -, rfl⟩ | ⟨_, span, ⟨⟩, -, rfl⟩ |
    ⟨_, span, ⟨⟩, -, rfl⟩
  · exact ⟨_, .negative⟩
  · exact ⟨_, .number⟩
  · exact ⟨_, .string⟩
  · exact ⟨_, .copy⟩

theorem spelt_constant (h : (production .constant).Spelt before after) :
    Nonterminal.constant.Spelt before after := by
  obtain ⟨_, ⟨_, ⟨_, ⟨_, ⟨_, word, ⟨⟩, -, rfl⟩, _, span, ⟨⟩, -, rfl⟩, _, equal, ⟨⟩, -, rfl⟩, hvalue⟩,
    _, last, ⟨⟩, -, rfl⟩ := h
  obtain ⟨value, hvalue⟩ := constValue_of_spelt hvalue
  exact ⟨_, .const hvalue⟩

theorem spelt_vars (h : (production .vars).Spelt before after) :
    Nonterminal.vars.Spelt before after := by
  obtain ⟨_, ⟨_, ⟨_, ⟨_, ⟨_, word, ⟨⟩, -, rfl⟩, _, ⟨_, span, ⟨⟩, -, rfl⟩, hnames⟩, _, colon, ⟨⟩, -,
    rfl⟩, _, type, haccepts, -, rfl⟩, _, last, ⟨⟩, -, rfl⟩ := h
  cases haccepts with
  | typeName htype =>
    obtain ⟨names, hnames⟩ := names_of_spelt hnames _ span
    exact ⟨_, .vars htype hnames⟩

/-- A constant or variables. -/
private theorem declaration_of_spelt (h : (rule .constant <|> rule .vars).Spelt before after) :
    ∃ declaration : Declaration, declaration.Derives before after :=
  h.elim id id

private theorem locals_of_spelt
    (h : (many (rule .constant <|> rule .vars)).Spelt before after) :
    ∃ locals, LocalsDerive locals before after := by
  induction h using Relation.ReflTransGen.head_induction_on with
  | refl => exact ⟨_, .nil⟩
  | head hfirst _ ih =>
    obtain ⟨declaration, hdeclaration⟩ := declaration_of_spelt hfirst
    obtain ⟨locals, hlocals⟩ := ih
    exact ⟨_, .cons hdeclaration hlocals⟩

private theorem semicolons_of_spelt (h : (many (mark .semicolon)).Spelt before after) :
    Semicolons before after := by
  induction h using Relation.ReflTransGen.head_induction_on with
  | refl => exact .none
  | head hfirst _ ih =>
    obtain ⟨_, span, ⟨⟩, -, rfl⟩ := hfirst
    exact .more ih

private theorem optionally_of_spelt {sign : Sign} (h : (optional (mark sign)).Spelt before after) :
    Optionally sign before after := by
  rcases h with ⟨_, span, ⟨⟩, -, rfl⟩ | rfl
  · exact .present
  · exact .absent

theorem spelt_statements (h : (production .statements).Spelt before after) :
    Nonterminal.statements.Spelt before after := by
  induction h using Relation.ReflTransGen.head_induction_on with
  | refl => exact ⟨_, .skip⟩
  | head hfirst _ ih =>
    obtain ⟨_, ⟨first, hfirst⟩, hsemicolons⟩ := hfirst
    obtain ⟨second, hsecond⟩ := ih
    exact ⟨_, .seq hfirst (semicolons_of_spelt hsemicolons) hsecond⟩

theorem spelt_statement (h : (production .statement).Spelt before after) :
    Nonterminal.statement.Spelt before after := by
  rcases h with hassign | hcall | hcallWord | hbranch | hloop | hret | hblock
  · obtain ⟨_, ⟨_, ⟨_, span, ⟨⟩, -, rfl⟩, _, sign, ⟨⟩, -, rfl⟩, value, hvalue⟩ := hassign
    exact ⟨_, .assign hvalue⟩
  · obtain ⟨_, span, ⟨⟩, -, rfl⟩ := hcall
    exact ⟨_, .call⟩
  · obtain ⟨_, ⟨_, word, ⟨⟩, -, rfl⟩, _, span, ⟨⟩, -, rfl⟩ := hcallWord
    exact ⟨_, .callWord⟩
  · obtain ⟨_, ⟨_, ⟨_, ⟨_, ⟨_, ⟨_, first, ⟨⟩, -, rfl⟩, condition, hcondition⟩, _, second, ⟨⟩, -, rfl⟩,
      yes, hyes⟩, helse⟩, _, last, ⟨⟩, -, rfl⟩ := hbranch
    rcases helse with ⟨_, ⟨_, third, ⟨⟩, -, rfl⟩, no, hno⟩ | rfl
    · exact ⟨_, .branchElse hcondition hyes hno⟩
    · exact ⟨_, .branch hcondition hyes⟩
  · obtain ⟨_, ⟨_, ⟨_, ⟨_, ⟨_, first, ⟨⟩, -, rfl⟩, condition, hcondition⟩, _, second, ⟨⟩, -, rfl⟩,
      body, hbody⟩, _, last, ⟨⟩, -, rfl⟩ := hloop
    exact ⟨_, .loop hcondition hbody⟩
  · obtain ⟨_, span, ⟨⟩, -, rfl⟩ := hret
    exact ⟨_, .ret⟩
  · obtain ⟨_, ⟨_, ⟨_, ⟨_, first, ⟨⟩, -, rfl⟩, hlocals⟩, body, hbody⟩, _, last, ⟨⟩, -, rfl⟩ := hblock
    obtain ⟨locals, hlocals⟩ := locals_of_spelt hlocals
    exact ⟨_, .block hlocals hbody⟩

theorem spelt_declaration (h : (production .declaration).Spelt before after) :
    Nonterminal.declaration.Spelt before after := by
  intro rest last hrest
  rcases h with ⟨declaration, hdeclaration⟩ | ⟨declaration, hdeclaration⟩ |
    ⟨heading, locals, body, hprocedure⟩
  · exact ⟨_, .plain hdeclaration hrest⟩
  · exact ⟨_, .plain hdeclaration hrest⟩
  · exact ⟨_, hprocedure rest last hrest⟩

private theorem decls_of_spelt (h : (many (rule .declaration)).Spelt before after) :
    ∃ decls : Decls, decls.Derives before after := by
  induction h using Relation.ReflTransGen.head_induction_on with
  | refl => exact ⟨_, .nil⟩
  | head hfirst _ ih =>
    obtain ⟨rest, hrest⟩ := ih
    exact hfirst rest after hrest

theorem spelt_procedure (h : (production .procedure).Spelt before after) :
    Nonterminal.procedure.Spelt before after := by
  obtain ⟨_, ⟨_, ⟨_, ⟨_, ⟨_, ⟨_, ⟨_, ⟨_, word, ⟨⟩, -, rfl⟩, _, span, ⟨⟩, -, rfl⟩, _, semicolon, ⟨⟩, -,
    rfl⟩, hlocals⟩, _, first, ⟨⟩, -, rfl⟩, body, hbody⟩, _, last, ⟨⟩, -, rfl⟩, hsemicolon⟩ := h
  obtain ⟨locals, hlocals⟩ := decls_of_spelt hlocals
  exact ⟨_, locals, body, fun _ _ hrest =>
    .nested hlocals hbody (optionally_of_spelt hsemicolon) hrest⟩

theorem spelt_program (h : (production .program).Spelt before after) :
    Nonterminal.program.Spelt before after := by
  rintro rfl
  obtain ⟨_, ⟨middle, hplain, heading, locals, body, hprocedure⟩, hdot⟩ := h
  induction hplain using Relation.ReflTransGen.head_induction_on with
  | refl => exact ⟨_, .procedure (hprocedure .nil _ .nil) (optionally_of_spelt hdot)⟩
  | head hfirst _ ih =>
    obtain ⟨declaration, hdeclaration⟩ := declaration_of_spelt hfirst
    obtain ⟨rest, hrest⟩ := ih
    exact ⟨_, .plain hdeclaration hrest⟩

/-- The trees are closed under the productions. -/
theorem Nonterminal.spelt_of_production (nonterminal : Nonterminal)
    (h : (production nonterminal).Spelt before after) : nonterminal.Spelt before after := by
  cases nonterminal with
  | program => exact spelt_program h
  | procedure => exact spelt_procedure h
  | declaration => exact spelt_declaration h
  | constant => exact spelt_constant h
  | vars => exact spelt_vars h
  | statements => exact spelt_statements h
  | statement => exact spelt_statement h
  | condition => exact spelt_condition h
  | expression => exact spelt_expression h
  | term => exact spelt_term h
  | factor => exact spelt_factor h

theorem Form.Derives.spelt {form : Form} (h : form.Derives before after)
    (hreadable : ∀ lexeme ∈ before, Readable lexeme.token) : form.Spelt before after := by
  induction h with
  | empty => rfl
  | terminal haccepts => exact ⟨_, _, haccepts, hreadable _ List.mem_cons_self, rfl⟩
  | rule _ ih => exact Nonterminal.spelt_of_production _ (ih hreadable)
  | seq hfirst _ ihfirst ihsecond =>
    have hafter := fun lexeme hlexeme => hreadable lexeme (hfirst.suffix.subset hlexeme)
    exact ⟨_, ihfirst hreadable, ihsecond hafter⟩
  | left _ ih => exact .inl (ih hreadable)
  | right _ ih => exact .inr (ih hreadable)
  | none => exact .refl
  | more hfirst _ ihfirst ihrest =>
    have hafter := fun lexeme hlexeme => hreadable lexeme (hfirst.suffix.subset hlexeme)
    exact .head (ihfirst hreadable) (ihrest hafter)

/-- What derives from the productions is what spells a program. -/
theorem derives_program_iff (hreadable : ∀ lexeme ∈ before, Readable lexeme.token) :
    (rule .program).Derives before [] ↔ ∃ decls : Decls, decls.Spells before := by
  constructor
  · intro h
    exact h.spelt hreadable rfl
  · rintro ⟨decls, hdecls⟩
    exact derives_of_spells hdecls

end

end BlockLang.Grammar
