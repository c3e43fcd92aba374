import BlockLang.Proofs.Tree.Grammar

/-! The first mistake of a tree, in the order of the source. A tree that has none is whole. -/

namespace BlockLang.Tree

def Expr.mistake? : Expr → Option Mistake
  | number _ | name _ => none
  | negate operand => operand.mistake?
  | binary _ left right => left.mistake?.or right.mistake?
  | missing mistake => some mistake
  | unclosed inner mistake => inner.mistake?.or (some mistake)

def Cond.mistake? : Cond → Option Mistake
  | compare _ left right => left.mistake?.or right.mistake?
  | half left mistake => left.mistake?.or (some mistake)
  | unfollowed _ left right mistake => (left.mistake?.or right.mistake?).or (some mistake)

def Declaration.mistake? : Declaration → Option Mistake
  | const _ _ | vars _ _ => none
  | stop mistake | unendedCopy _ mistake => some mistake

def firstMistake? (locals : List Declaration) : Option Mistake :=
  locals.foldr (fun declaration rest => declaration.mistake?.or rest) none

def Stmt.mistake? : Stmt → Option Mistake
  | skip | call _ | ret => none
  | seq first second => first.mistake?.or second.mistake?
  | assign _ value => value.mistake?
  | branch condition yes no => (condition.mistake?.or yes.mistake?).or no.mistake?
  | loop condition body => condition.mistake?.or body.mistake?
  | block locals body => (firstMistake? locals).or body.mistake?
  | stop mistake => some mistake

def Heading.mistake? : Heading → Option Mistake
  | named _ => none
  | unnamed mistake | unended _ mistake => some mistake

def Decls.mistake? : Decls → Option Mistake
  | nil => none
  | plain declaration rest => declaration.mistake?.or rest.mistake?
  | nested heading locals body rest =>
    (heading.mistake?.or (locals.mistake?.or body.mistake?)).or rest.mistake?
  | stop mistake => some mistake

theorem Expr.mistake?_eq_none {expr : Expr} : expr.mistake? = none ↔ expr.Whole := by
  induction expr <;> simp_all [mistake?, Whole, Option.or_eq_none_iff]

theorem Cond.mistake?_eq_none {cond : Cond} : cond.mistake? = none ↔ cond.Whole := by
  cases cond <;> simp [mistake?, Whole, Option.or_eq_none_iff, Expr.mistake?_eq_none]

theorem Declaration.mistake?_eq_none {declaration : Declaration} :
    declaration.mistake? = none ↔ declaration.Whole := by
  cases declaration <;> simp [mistake?, Whole]

theorem firstMistake?_eq_none {locals : List Declaration} :
    firstMistake? locals = none ↔ ∀ declaration ∈ locals, declaration.Whole := by
  induction locals with
  | nil => simp [firstMistake?]
  | cons declaration rest ih =>
    rw [List.forall_mem_cons, ← ih, ← Declaration.mistake?_eq_none]
    exact Option.or_eq_none_iff

theorem Stmt.mistake?_eq_none {stmt : Stmt} : stmt.mistake? = none ↔ stmt.Whole := by
  induction stmt <;> simp_all [mistake?, Whole, Option.or_eq_none_iff, Expr.mistake?_eq_none,
    Cond.mistake?_eq_none, firstMistake?_eq_none, and_assoc]

theorem Heading.mistake?_eq_none {heading : Heading} :
    heading.mistake? = none ↔ heading.Whole := by
  cases heading <;> simp [mistake?, Whole]

theorem Decls.mistake?_eq_none {decls : Decls} : decls.mistake? = none ↔ decls.Whole := by
  induction decls <;> simp_all [mistake?, Whole, Option.or_eq_none_iff,
    Declaration.mistake?_eq_none, Heading.mistake?_eq_none, Stmt.mistake?_eq_none, and_assoc]

end BlockLang.Tree
