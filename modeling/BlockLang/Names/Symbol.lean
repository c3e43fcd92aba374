import BlockLang.Code.Instr
import BlockLang.Failure
import BlockLang.IntType

/-! Declared names. A symbol is made when its name is met and is told once what the
name stands for. -/

namespace BlockLang.Names

open Code

inductive Kind where
  | literal | procedure | cell
  deriving Repr, DecidableEq, Inhabited

def Kind.describe : Kind → String
  | literal => "literal"
  | procedure => "procedure"
  | cell => "variable"

inductive Meaning where
  /-- A constant, kept as it was spelled. -/
  | literal (text : String)
  /-- A procedure's function, and the block that takes its next instruction. -/
  | procedure (function : FunctionId) (block : BlockRef)
  /-- A variable: the global that holds it, and its declared type. -/
  | cell (global : GlobalId) (type : IntType)
  deriving Repr, DecidableEq, Inhabited

def Meaning.kind : Meaning → Kind
  | literal _ => .literal
  | procedure _ _ => .procedure
  | cell _ _ => .cell

structure Symbol where
  name : String
  meaning? : Option Meaning := none
  deriving Repr, DecidableEq, Inhabited

namespace Symbol

def kind? (symbol : Symbol) : Option Kind :=
  symbol.meaning?.map Meaning.kind

def describeKind (symbol : Symbol) : String :=
  (symbol.kind?.map Kind.describe).getD "incomplete declaration"

def declare (symbol : Symbol) (meaning : Meaning) : Except Fault Symbol :=
  match symbol.meaning? with
  | none => .ok { symbol with meaning? := some meaning }
  | some _ => .error (.alreadyDeclared symbol.name)

private def notA (symbol : Symbol) (kind : Kind) : Fault :=
  .notA symbol.name symbol.describeKind kind.describe

def literal (symbol : Symbol) : Except Fault String :=
  match symbol.meaning? with
  | some (.literal text) => .ok text
  | _ => .error (symbol.notA .literal)

def procedure (symbol : Symbol) : Except Fault (FunctionId × BlockRef) :=
  match symbol.meaning? with
  | some (.procedure function block) => .ok (function, block)
  | _ => .error (symbol.notA .procedure)

def cell (symbol : Symbol) : Except Fault (GlobalId × IntType) :=
  match symbol.meaning? with
  | some (.cell global type) => .ok (global, type)
  | _ => .error (symbol.notA .cell)

/-- Moves the place where a procedure's next instruction goes. -/
def setBlock (symbol : Symbol) (block : BlockRef) : Except Fault Symbol := do
  let (function, _) ← symbol.procedure
  return { symbol with meaning? := some (.procedure function block) }

end Symbol

end BlockLang.Names
