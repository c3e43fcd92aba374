import BlockLang.Tree.Read

/-! The grammar of the language. Each relation says which tree the tokens of `before` spell
up to `after`, what follows them. -/

namespace BlockLang.Tree

/-- The classes of expressions, those that bind more tightly first. -/
inductive Rank where
  | factor
  | term
  | sum

inductive Expr.Derives : Rank → Expr → List Lexeme → List Lexeme → Prop
  | number {text : String} {value : Int64} {span : Span} {after : List Lexeme}
    (hvalue : Numeral.read? text = some value) :
    Derives .factor (.number value) (⟨.number text, span⟩ :: after) after
  | name {name : String} {span : Span} {after : List Lexeme} :
    Derives .factor (.name ⟨name, span.toPlace⟩) (⟨.identifier name, span⟩ :: after) after
  | paren {inner : Expr} {first last : Span} {before after : List Lexeme}
    (hinner : Derives .sum inner before (⟨.sign .rightParen, last⟩ :: after)) :
    Derives .factor inner (⟨.sign .leftParen, first⟩ :: before) after
  | negate {operand : Expr} {span : Span} {before after : List Lexeme}
    (hoperand : Derives .factor operand before after) :
    Derives .factor (.negate operand) (⟨.sign .minus, span⟩ :: before) after
  | factor {expr : Expr} {before after : List Lexeme} (h : Derives .factor expr before after) :
    Derives .term expr before after
  | multiply {token : Token} {op : Operator} {left right : Expr} {span : Span}
    {before middle after : List Lexeme} (hop : Operator.ofMultiplying? token = some op)
    (hleft : Derives .term left before (⟨token, span⟩ :: middle))
    (hright : Derives .factor right middle after) :
    Derives .term (.binary op left right) before after
  | term {expr : Expr} {before after : List Lexeme} (h : Derives .term expr before after) :
    Derives .sum expr before after
  | add {token : Token} {op : Operator} {left right : Expr} {span : Span}
    {before middle after : List Lexeme} (hop : Operator.ofAdding? token = some op)
    (hleft : Derives .sum left before (⟨token, span⟩ :: middle))
    (hright : Derives .term right middle after) :
    Derives .sum (.binary op left right) before after

inductive Cond.Derives : Cond → List Lexeme → List Lexeme → Prop
  | compare {token : Token} {op : Comparison} {left right : Expr} {span : Span}
    {before middle after : List Lexeme} (hop : Comparison.ofToken? token = some op)
    (hleft : left.Derives .sum before (⟨token, span⟩ :: middle))
    (hright : right.Derives .sum middle after) :
    Derives (.compare op left right) before after

inductive ConstValue.Derives : ConstValue → List Lexeme → List Lexeme → Prop
  | number {text : String} {span : Span} {after : List Lexeme} :
    Derives (.text text) (⟨.number text, span⟩ :: after) after
  | negative {text : String} {first second : Span} {after : List Lexeme} :
    Derives (.text ("-" ++ text)) (⟨.sign .minus, first⟩ :: ⟨.number text, second⟩ :: after) after
  | string {text : String} {span : Span} {after : List Lexeme} :
    Derives (.text text) (⟨.string text, span⟩ :: after) after
  | copy {name : String} {span : Span} {after : List Lexeme} :
    Derives (.copy ⟨name, span.toPlace⟩) (⟨.identifier name, span⟩ :: after) after

/-- One or more names with commas between them. -/
inductive NamesDerive : List Ident → List Lexeme → List Lexeme → Prop
  | last {name : String} {span : Span} {after : List Lexeme} :
    NamesDerive [⟨name, span.toPlace⟩] (⟨.identifier name, span⟩ :: after) after
  | more {name : String} {names : List Ident} {span comma : Span} {before after : List Lexeme}
    (hnames : NamesDerive names before after) :
    NamesDerive (⟨name, span.toPlace⟩ :: names)
      (⟨.identifier name, span⟩ :: ⟨.sign .comma, comma⟩ :: before) after

inductive Declaration.Derives : Declaration → List Lexeme → List Lexeme → Prop
  | const {name : String} {value : ConstValue} {word span equal last : Span}
    {before after : List Lexeme} (hvalue : value.Derives before (⟨.sign .semicolon, last⟩ :: after)) :
    Derives (.const ⟨name, span.toPlace⟩ value)
      (⟨.keyword .const, word⟩ :: ⟨.identifier name, span⟩ :: ⟨.sign .equal, equal⟩ :: before) after
  | vars {names : List Ident} {type : IntType} {typeName : String} {word colon span last : Span}
    {before after : List Lexeme} (htype : IntType.ofName? typeName = some type)
    (hnames : NamesDerive names before (⟨.sign .colon, colon⟩ :: ⟨.identifier typeName, span⟩ ::
      ⟨.sign .semicolon, last⟩ :: after)) :
    Derives (.vars names type) (⟨.keyword .var, word⟩ :: before) after

/-- Any number of declarations of constants and variables. -/
inductive LocalsDerive : List Declaration → List Lexeme → List Lexeme → Prop
  | nil {after : List Lexeme} : LocalsDerive [] after after
  | cons {declaration : Declaration} {rest : List Declaration} {before middle after : List Lexeme}
    (hfirst : declaration.Derives before middle) (hrest : LocalsDerive rest middle after) :
    LocalsDerive (declaration :: rest) before after

/-- Any number of semicolons stands before `after`. -/
inductive Semicolons : List Lexeme → List Lexeme → Prop
  | none {after : List Lexeme} : Semicolons after after
  | more {span : Span} {before after : List Lexeme} (h : Semicolons before after) :
    Semicolons (⟨.sign .semicolon, span⟩ :: before) after

/-- A single statement, or the statements of a body. -/
inductive Extent where
  | single
  | body

inductive Stmt.Derives : Extent → Stmt → List Lexeme → List Lexeme → Prop
  | assign {name : String} {value : Expr} {span sign : Span} {before after : List Lexeme}
    (hvalue : value.Derives .sum before after) :
    Derives .single (.assign ⟨name, span.toPlace⟩ value)
      (⟨.identifier name, span⟩ :: ⟨.sign .assign, sign⟩ :: before) after
  | call {name : String} {span : Span} {after : List Lexeme} :
    Derives .single (.call ⟨name, span.toPlace⟩) (⟨.identifier name, span⟩ :: after) after
  | callWord {name : String} {word span : Span} {after : List Lexeme} :
    Derives .single (.call ⟨name, span.toPlace⟩)
      (⟨.keyword .call, word⟩ :: ⟨.identifier name, span⟩ :: after) after
  | branch {condition : Cond} {yes : Stmt} {first second last : Span}
    {before middle after : List Lexeme}
    (hcondition : condition.Derives before (⟨.keyword .then_, second⟩ :: middle))
    (hyes : Derives .body yes middle (⟨.keyword .end_, last⟩ :: after)) :
    Derives .single (.branch condition yes .skip) (⟨.keyword .if_, first⟩ :: before) after
  | branchElse {condition : Cond} {yes no : Stmt} {first second third last : Span}
    {before middle other after : List Lexeme}
    (hcondition : condition.Derives before (⟨.keyword .then_, second⟩ :: middle))
    (hyes : Derives .body yes middle (⟨.keyword .else_, third⟩ :: other))
    (hno : Derives .body no other (⟨.keyword .end_, last⟩ :: after)) :
    Derives .single (.branch condition yes no) (⟨.keyword .if_, first⟩ :: before) after
  | loop {condition : Cond} {body : Stmt} {first second last : Span}
    {before middle after : List Lexeme}
    (hcondition : condition.Derives before (⟨.keyword .do_, second⟩ :: middle))
    (hbody : Derives .body body middle (⟨.keyword .end_, last⟩ :: after)) :
    Derives .single (.loop condition body) (⟨.keyword .while_, first⟩ :: before) after
  | ret {span : Span} {after : List Lexeme} :
    Derives .single .ret (⟨.keyword .return_, span⟩ :: after) after
  | block {locals : List Declaration} {body : Stmt} {first last : Span}
    {before middle after : List Lexeme} (hlocals : LocalsDerive locals before middle)
    (hbody : Derives .body body middle (⟨.keyword .end_, last⟩ :: after)) :
    Derives .single (.block locals body) (⟨.keyword .begin_, first⟩ :: before) after
  | skip {after : List Lexeme} : Derives .body .skip after after
  | seq {first second : Stmt} {before middle next after : List Lexeme}
    (hfirst : Derives .single first before middle) (hsemicolons : Semicolons middle next)
    (hsecond : Derives .body second next after) :
    Derives .body (.seq first second) before after

/-- The sign may stand before `after`, or not. -/
inductive Optionally (mark : Sign) : List Lexeme → List Lexeme → Prop
  | absent {after : List Lexeme} : Optionally mark after after
  | present {span : Span} {after : List Lexeme} :
    Optionally mark (⟨.sign mark, span⟩ :: after) after

inductive Decls.Derives : Decls → List Lexeme → List Lexeme → Prop
  | nil {after : List Lexeme} : Derives .nil after after
  | plain {declaration : Declaration} {rest : Decls} {before middle after : List Lexeme}
    (hfirst : declaration.Derives before middle) (hrest : Derives rest middle after) :
    Derives (.plain declaration rest) before after
  | nested {name : String} {locals rest : Decls} {body : Stmt} {word span semicolon first last : Span}
    {before middle next end_ after : List Lexeme}
    (hlocals : Derives locals before (⟨.keyword .begin_, first⟩ :: middle))
    (hbody : body.Derives .body middle (⟨.keyword .end_, last⟩ :: next))
    (hsemicolon : Optionally .semicolon next end_) (hrest : Derives rest end_ after) :
    Derives (.nested (.named ⟨name, span.toPlace⟩) locals body rest)
      (⟨.keyword .procedure, word⟩ :: ⟨.identifier name, span⟩ ::
        ⟨.sign .semicolon, semicolon⟩ :: before) after

/-- The tokens are those of a program, up to the end of input. -/
inductive Decls.Spells : Decls → List Lexeme → Prop
  | plain {declaration : Declaration} {rest : Decls} {before middle : List Lexeme}
    (hfirst : declaration.Derives before middle) (hrest : Spells rest middle) :
    Spells (.plain declaration rest) before
  | procedure {heading : Heading} {locals : Decls} {body : Stmt} {before after : List Lexeme}
    (hprocedure : (Decls.nested heading locals body .nil).Derives before after)
    (hdot : Optionally .dot after []) :
    Spells (.nested heading locals body .nil) before

def Expr.Whole : Expr → Prop
  | number _ => True
  | name _ => True
  | negate operand => operand.Whole
  | binary _ left right => left.Whole ∧ right.Whole
  | missing _ => False
  | unclosed _ _ => False

def Cond.Whole : Cond → Prop
  | compare _ left right => left.Whole ∧ right.Whole
  | half _ _ => False
  | unfollowed _ _ _ _ => False

def Declaration.Whole : Declaration → Prop
  | const _ _ => True
  | vars _ _ => True
  | stop _ => False
  | unendedCopy _ _ => False

def Stmt.Whole : Stmt → Prop
  | skip => True
  | seq first second => first.Whole ∧ second.Whole
  | assign _ value => value.Whole
  | call _ => True
  | branch condition yes no => condition.Whole ∧ yes.Whole ∧ no.Whole
  | loop condition body => condition.Whole ∧ body.Whole
  | ret => True
  | block locals body => (∀ declaration ∈ locals, declaration.Whole) ∧ body.Whole
  | stop _ => False

def Heading.Whole : Heading → Prop
  | named _ => True
  | unnamed _ => False
  | unended _ _ => False

def Decls.Whole : Decls → Prop
  | nil => True
  | plain declaration rest => declaration.Whole ∧ rest.Whole
  | nested heading locals body rest => heading.Whole ∧ locals.Whole ∧ body.Whole ∧ rest.Whole
  | stop _ => False

section

variable {before after : List Lexeme}

theorem Expr.Derives.whole {rank : Rank} {expr : Expr} (h : expr.Derives rank before after) :
    expr.Whole := by
  induction h with
  | number _ => trivial
  | name => trivial
  | paren _ ih => exact ih
  | negate _ ih => exact ih
  | factor _ ih => exact ih
  | multiply _ _ _ ihleft ihright => exact ⟨ihleft, ihright⟩
  | term _ ih => exact ih
  | add _ _ _ ihleft ihright => exact ⟨ihleft, ihright⟩

theorem Cond.Derives.whole {cond : Cond} (h : cond.Derives before after) : cond.Whole := by
  obtain ⟨_, hleft, hright⟩ := h
  exact ⟨hleft.whole, hright.whole⟩

theorem Declaration.Derives.whole {declaration : Declaration}
    (h : declaration.Derives before after) : declaration.Whole := by
  cases h with
  | const _ => trivial
  | vars _ _ => trivial

theorem LocalsDerive.whole {locals : List Declaration} (h : LocalsDerive locals before after) :
    ∀ declaration ∈ locals, declaration.Whole := by
  induction h with
  | nil => simp
  | cons hfirst _ ih =>
    intro declaration hdeclaration
    rcases List.mem_cons.1 hdeclaration with rfl | hdeclaration
    · exact hfirst.whole
    · exact ih declaration hdeclaration

theorem Stmt.Derives.whole {extent : Extent} {stmt : Stmt} (h : stmt.Derives extent before after) :
    stmt.Whole := by
  induction h with
  | assign hvalue => exact hvalue.whole
  | call => trivial
  | callWord => trivial
  | branch hcondition _ ihyes => exact ⟨hcondition.whole, ihyes, trivial⟩
  | branchElse hcondition _ _ ihyes ihno => exact ⟨hcondition.whole, ihyes, ihno⟩
  | loop hcondition _ ihbody => exact ⟨hcondition.whole, ihbody⟩
  | ret => trivial
  | block hlocals _ ihbody => exact ⟨hlocals.whole, ihbody⟩
  | skip => trivial
  | seq _ _ _ ihfirst ihsecond => exact ⟨ihfirst, ihsecond⟩

theorem Decls.Derives.whole {decls : Decls} (h : decls.Derives before after) : decls.Whole := by
  induction h with
  | nil => trivial
  | plain hfirst _ ih => exact ⟨hfirst.whole, ih⟩
  | nested _ hbody _ _ ihlocals ihrest => exact ⟨trivial, ihlocals, hbody.whole, ihrest⟩

theorem Decls.Spells.whole {decls : Decls} (h : decls.Spells before) : decls.Whole := by
  induction h with
  | plain hfirst _ ih => exact ⟨hfirst.whole, ih⟩
  | procedure hprocedure _ => exact hprocedure.whole

end

section

variable {before middle after : List Lexeme} {lexeme : Lexeme}

private theorem suffix_past (h : lexeme :: after <:+ before) : after <:+ before :=
  (List.suffix_cons _ _).trans h

private theorem suffix_onto (h : after <:+ before) : after <:+ lexeme :: before :=
  h.trans (List.suffix_cons _ _)

theorem Expr.Derives.suffix {rank : Rank} {expr : Expr} (h : expr.Derives rank before after) :
    after <:+ before := by
  induction h with
  | number _ => exact List.suffix_cons _ _
  | name => exact List.suffix_cons _ _
  | paren _ ih => exact suffix_onto (suffix_past ih)
  | negate _ ih => exact suffix_onto ih
  | factor _ ih => exact ih
  | multiply _ _ _ ihleft ihright => exact ihright.trans (suffix_past ihleft)
  | term _ ih => exact ih
  | add _ _ _ ihleft ihright => exact ihright.trans (suffix_past ihleft)

theorem Cond.Derives.suffix {cond : Cond} (h : cond.Derives before after) : after <:+ before := by
  obtain ⟨_, hleft, hright⟩ := h
  exact hright.suffix.trans (suffix_past hleft.suffix)

theorem ConstValue.Derives.suffix {value : ConstValue} (h : value.Derives before after) :
    after <:+ before := by
  cases h with
  | number => exact List.suffix_cons _ _
  | negative => exact suffix_onto (List.suffix_cons _ _)
  | string => exact List.suffix_cons _ _
  | copy => exact List.suffix_cons _ _

theorem NamesDerive.suffix {names : List Ident} (h : NamesDerive names before after) :
    after <:+ before := by
  induction h with
  | last => exact List.suffix_cons _ _
  | more _ ih => exact suffix_onto (suffix_onto ih)

theorem Declaration.Derives.suffix {declaration : Declaration}
    (h : declaration.Derives before after) : after <:+ before := by
  cases h with
  | const hvalue => exact suffix_onto (suffix_onto (suffix_onto (suffix_past hvalue.suffix)))
  | vars _ hnames => exact suffix_onto (suffix_past (suffix_past (suffix_past hnames.suffix)))

theorem LocalsDerive.suffix {locals : List Declaration} (h : LocalsDerive locals before after) :
    after <:+ before := by
  induction h with
  | nil => exact List.suffix_rfl
  | cons hfirst _ ih => exact ih.trans hfirst.suffix

theorem Semicolons.suffix (h : Semicolons before after) : after <:+ before := by
  induction h with
  | none => exact List.suffix_rfl
  | more _ ih => exact suffix_onto ih

theorem Stmt.Derives.suffix {extent : Extent} {stmt : Stmt} (h : stmt.Derives extent before after) :
    after <:+ before := by
  induction h with
  | assign hvalue => exact suffix_onto (suffix_onto hvalue.suffix)
  | call => exact List.suffix_cons _ _
  | callWord => exact suffix_onto (List.suffix_cons _ _)
  | branch hcondition _ ihyes =>
    exact suffix_onto ((suffix_past ihyes).trans (suffix_past hcondition.suffix))
  | branchElse hcondition _ _ ihyes ihno =>
    have hyes := (suffix_past ihyes).trans (suffix_past hcondition.suffix)
    exact suffix_onto ((suffix_past ihno).trans hyes)
  | loop hcondition _ ihbody =>
    exact suffix_onto ((suffix_past ihbody).trans (suffix_past hcondition.suffix))
  | ret => exact List.suffix_cons _ _
  | block hlocals _ ihbody => exact suffix_onto ((suffix_past ihbody).trans hlocals.suffix)
  | skip => exact List.suffix_rfl
  | seq _ hsemicolons _ ihfirst ihsecond =>
    exact ihsecond.trans (hsemicolons.suffix.trans ihfirst)

theorem Optionally.suffix {mark : Sign} (h : Optionally mark before after) : after <:+ before := by
  cases h with
  | absent => exact List.suffix_rfl
  | present => exact List.suffix_cons _ _

theorem Decls.Derives.suffix {decls : Decls} (h : decls.Derives before after) :
    after <:+ before := by
  induction h with
  | nil => exact List.suffix_rfl
  | plain hfirst _ ih => exact ih.trans hfirst.suffix
  | nested _ hbody hsemicolon _ ihlocals ihrest =>
    have hinner := (suffix_past hbody.suffix).trans (suffix_past ihlocals)
    exact suffix_onto (suffix_onto (suffix_onto (ihrest.trans (hsemicolon.suffix.trans hinner))))

end

end BlockLang.Tree
