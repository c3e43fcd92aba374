import BlockLang.Numeral
import BlockLang.Session
import BlockLang.Tree

/-! Carrying out a program: names are declared and resolved, and code is emitted, in
the order of the source. The first mistake met ends the work. -/

namespace BlockLang

open BlockLang.Code BlockLang.Names BlockLang.Tree

/-- A value and the declared type it has. -/
structure Operand where
  value : Value
  type : IntType
  deriving Repr, DecidableEq

def IntType.backend (type : IntType) : Ty := .int type.width

/-- Constants are as narrow as they can be, but not below 32 bits. -/
def Operand.constant (value : Int64) : Operand :=
  let type := IntType.ofConstant value
  ⟨.const type.backend value, type⟩

def Tree.Operator.binOp (signed : Bool) : Operator → BinOp
  | add => .add
  | sub => .sub
  | mul => .mul
  | div => if signed then .sdiv else .udiv
  | rem => if signed then .srem else .urem

def Tree.Comparison.predicate (signed : Bool) : Comparison → Predicate
  | equal => .eq
  | notEqual => .ne
  | less => if signed then .slt else .ult
  | lessEqual => if signed then .sle else .ule
  | greater => if signed then .sgt else .ugt
  | greaterEqual => if signed then .sge else .uge

namespace Compiler

def raise {α : Type} (mistake : Mistake) : Compiler α := do
  if let some place := mistake.reached then locate place
  fail (.malformed ((← get).location.movedTo mistake.place) mistake.cause.message)

/-- The symbol a name stands for here. -/
def resolve (name : Ident) : Compiler Symbol := do
  locate name.place
  symbol (← find name.name)

def mismatch {α : Type} (symbol : Symbol) (expected : String) : Compiler α := do
  fail (.wrongKind (← get).location symbol.name expected symbol.describeKind)

/-- The symbol a name stands for here, which has to be of the given kind. -/
def resolveAs (kind : Kind) (name : Ident) : Compiler Symbol := do
  let symbol ← resolve name
  if symbol.kind? = some kind then
    return symbol
  else
    record (.kindMismatch symbol.name kind)
    mismatch symbol kind.describe

def loadName (name : Ident) : Compiler Operand := do
  let symbol ← resolve name
  match symbol.meaning? with
  | some (.literal text) =>
    match Numeral.read? text with
    | some value => return .constant value
    | none => fail (.notNumeric (← get).location name.name text)
  | some (.cell global type) =>
    return ⟨← build (Build.load global), type⟩
  | _ => mismatch symbol "value"

/-- Brings both operands to their common type. -/
def unify (left right : Operand) : Compiler (Value × Value × IntType) := do
  let type := left.type.join right.type
  let first ← build (Build.intCast left.value type.backend left.type.signed)
  let second ← build (Build.intCast right.value type.backend right.type.signed)
  return (first, second, type)

def combine (op : Operator) (left right : Operand) : Compiler Operand := do
  let (first, second, type) ← unify left right
  return ⟨← build (Build.binary (op.binOp type.signed) first second), type⟩

/-- A negated constant is a constant; its value wraps around. -/
def negate (operand : Operand) : Compiler Operand := do
  match operand.value with
  | .const _ value => return .constant (-value)
  | .register _ _ =>
    return ⟨← build (Build.binary .sub (.const operand.type.backend 0) operand.value), operand.type⟩

def compare (op : Comparison) (left right : Operand) : Compiler Value := do
  let (first, second, type) ← unify left right
  build (Build.compare (op.predicate type.signed) first second)

/-- Goes on at `target`, unless the current block has been left already. -/
def jumpIfOpen (target : BlockRef) : Compiler Unit := do
  unless ← build (Build.isTerminated (← currentBlock)) do
    build (Build.jump target)

end Compiler

open Compiler

def Tree.Expr.emit : Expr → Compiler Operand
  | number value => return .constant value
  | name ident => loadName ident
  | negate operand => do Compiler.negate (← operand.emit)
  | binary op left right => do
    let first ← left.emit
    let second ← right.emit
    combine op first second
  | missing mistake => raise mistake
  | unclosed inner mistake => do
    discard inner.emit
    raise mistake

def Tree.Cond.emit : Cond → Compiler Value
  | compare op left right => do
    let first ← left.emit
    let second ← right.emit
    Compiler.compare op first second
  | half left mistake => do
    discard left.emit
    raise mistake
  | unfollowed op left right mistake => do
    let first ← left.emit
    let second ← right.emit
    discard (Compiler.compare op first second)
    raise mistake

/-- The text of a constant; a copied constant gives its own. -/
def Tree.ConstValue.emit : ConstValue → Compiler String
  | text spelling => return spelling
  | copy source => do orFault (← resolveAs .literal source).literal

/-- Declares a name in the current scope. -/
def Tree.Ident.declare (name : Ident) : Compiler SymbolId := do
  locate name.place
  add name.name

def Tree.Declaration.emit : Declaration → Compiler Unit
  | const name value => do
    let text ← value.emit
    declareLiteral (← name.declare) text
  | vars names type => names.forM fun name => do
    discard (declareCell (← name.declare) type)
  | stop mistake => raise mistake
  | unendedCopy source mistake => do
    discard (ConstValue.emit (.copy source))
    raise mistake

def Tree.Stmt.emit : Stmt → Compiler Unit
  | skip => return
  | seq first second => do
    first.emit
    second.emit
  | assign target value => do
    let symbol ← resolveAs .cell target
    let operand ← value.emit
    let (global, type) ← orFault symbol.cell
    let converted ← build (Build.intCast operand.value type.backend operand.type.signed)
    build (Build.store converted global)
  | call callee => do
    let (function, _) ← orFault (← resolveAs .procedure callee).procedure
    build (Build.call function)
  | branch condition yes no => do
    let value ← condition.emit
    let thenBlock ← appendBlock "then"
    let elseBlock ← appendBlock "else"
    let merge ← appendBlock "endif"
    build (Build.fork value thenBlock elseBlock)
    setCurrentBlock thenBlock
    yes.emit
    jumpIfOpen merge
    setCurrentBlock elseBlock
    no.emit
    jumpIfOpen merge
    setCurrentBlock merge
  | loop condition body => do
    let test ← appendBlock "while.cond"
    let bodyBlock ← appendBlock "while.body"
    let exit ← appendBlock "while.end"
    jumpIfOpen test
    setCurrentBlock test
    let value ← condition.emit
    build (Build.fork value bodyBlock exit)
    setCurrentBlock bodyBlock
    body.emit
    jumpIfOpen test
    setCurrentBlock exit
  | ret => do
    build Build.ret
    -- What follows is never run, but has to stand somewhere.
    setCurrentBlock (← appendBlock "after.return")
  | block locals body => do
    enterScope
    locals.forM Declaration.emit
    body.emit
    leaveScope
  | stop mistake => raise mistake

def Tree.Heading.emit : Heading → Compiler SymbolId
  | named name => name.declare
  | unnamed mistake => raise mistake
  | unended name mistake => do
    discard name.declare
    raise mistake

/-- Everything between a procedure's heading and its end, given how to do what
stands between. -/
def Compiler.within (id : SymbolId) (inside : Compiler Unit) : Compiler Unit := do
  tell (.enter (.procedure (← symbol id).name))
  beginProcedure id
  enterScope
  inside
  unless ← build (Build.isTerminated (← currentBlock)) do
    build Build.ret
  leaveScope
  endProcedure
  tell .leave

def Tree.Decls.emit : Decls → Compiler Unit
  | nil => return
  | plain declaration rest => do
    declaration.emit
    rest.emit
  | nested heading locals body rest => do
    let id ← heading.emit
    within id do
      locals.emit
      body.emit
    rest.emit
  | stop mistake => raise mistake

def Tree.Program.emit (program : Program) : Compiler Unit := do
  program.decls.emit
  if let some place := program.reached then locate place

end BlockLang
