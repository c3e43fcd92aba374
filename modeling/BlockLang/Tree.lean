import BlockLang.IntType
import BlockLang.Token

/-! What a program says. A tree may break off: where the source does not follow the
grammar, the tree holds the mistake in place of what should have come. What stands
before the mistake is still meant to be carried out. -/

namespace BlockLang.Tree

inductive Cause where
  | expected (token found : Token)
  | expectedIdentifier (found : Token)
  | expectedStatement (found : Token)
  | expectedExpression (found : Token)
  | expectedConstant (found : Token)
  | expectedNumber (found : Token)
  | expectedComparison (found : Token)
  | expectedEnd (found : Token)
  | noProcedure
  | unknownType (name : String)
  | badNumber (text : String)
  deriving Repr, DecidableEq

def Cause.message : Cause → String
  | expected token found => "expected " ++ token.describe ++ ", found " ++ found.describe
  | expectedIdentifier found => "expected an identifier, found " ++ found.describe
  | expectedStatement found => "expected a statement, found " ++ found.describe
  | expectedExpression found => "expected an expression, found " ++ found.describe
  | expectedConstant found => "expected a constant value, found " ++ found.describe
  | expectedNumber found => "expected a number after '-', found " ++ found.describe
  | expectedComparison found => "expected a comparison operator, found " ++ found.describe
  | expectedEnd found => "expected end of input, found " ++ found.describe
  | noProcedure => "a program must declare a top-level PROCEDURE"
  | unknownType name => "unknown type '" ++ name ++ "'"
  | badNumber text => "invalid number '" ++ text ++ "'"

/-- Why a source does not follow the grammar, and the place of the token at fault. -/
structure Mistake where
  place : Place
  cause : Cause
  /-- The place reading had reached, if it had begun. -/
  reached : Option Place
  deriving Repr, DecidableEq

structure Ident where
  name : String
  place : Place
  deriving Repr, DecidableEq, Inhabited

inductive Operator where
  | add | sub | mul | div | rem
  deriving Repr, DecidableEq, Inhabited

inductive Comparison where
  | equal | notEqual | less | lessEqual | greater | greaterEqual
  deriving Repr, DecidableEq, Inhabited

inductive Expr where
  | number (value : Int64)
  | name (ident : Ident)
  | negate (operand : Expr)
  | binary (op : Operator) (left right : Expr)
  | missing (mistake : Mistake)
  /-- The parenthesis around `inner` is not closed. -/
  | unclosed (inner : Expr) (mistake : Mistake)
  deriving Repr, DecidableEq

inductive Cond where
  | compare (op : Comparison) (left right : Expr)
  /-- No comparison follows `left`. -/
  | half (left : Expr) (mistake : Mistake)
  /-- The word that should follow the comparison does not. -/
  | unfollowed (op : Comparison) (left right : Expr) (mistake : Mistake)
  deriving Repr, DecidableEq

inductive ConstValue where
  | text (spelling : String)
  | copy (source : Ident)
  deriving Repr, DecidableEq

inductive Declaration where
  | const (name : Ident) (value : ConstValue)
  | vars (names : List Ident) (type : IntType)
  | stop (mistake : Mistake)
  /-- A constant that copies `source` and is not ended. -/
  | unendedCopy (source : Ident) (mistake : Mistake)
  deriving Repr, DecidableEq

inductive Stmt where
  | skip
  | seq (first second : Stmt)
  | assign (target : Ident) (value : Expr)
  | call (callee : Ident)
  | branch (condition : Cond) (yes no : Stmt)
  | loop (condition : Cond) (body : Stmt)
  | ret
  | block (locals : List Declaration) (body : Stmt)
  | stop (mistake : Mistake)
  deriving Repr, DecidableEq

inductive Heading where
  | named (name : Ident)
  | unnamed (mistake : Mistake)
  /-- Nothing ends the heading. -/
  | unended (name : Ident) (mistake : Mistake)
  deriving Repr, DecidableEq

/-- The declarations of a unit or of a procedure, in order. -/
inductive Decls where
  | nil
  | plain (declaration : Declaration) (rest : Decls)
  | nested (heading : Heading) (locals : Decls) (body : Stmt) (rest : Decls)
  | stop (mistake : Mistake)
  deriving Repr, DecidableEq

structure Program where
  decls : Decls
  /-- The place reading reached. -/
  reached : Option Place
  deriving Repr, DecidableEq

end BlockLang.Tree
