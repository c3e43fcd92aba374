import BlockLang.Code.Module

/-! A module under construction and the block that takes the next instruction. -/

namespace BlockLang.Code

structure Builder where
  code : Module
  cursor : Option BlockRef := none
  deriving Repr, DecidableEq, Inhabited

/-- What was done before a failure stays done. -/
abbrev Build := EStateM Failure Builder

/-- The value a `bits`-bit word stands for, read with a sign. -/
def signedValue (bits : Nat) (value : Int) : Int :=
  if 64 ≤ bits then value else (BitVec.ofInt bits value).toInt

/-- The value a `bits`-bit word stands for, read without a sign. -/
def unsignedValue (bits : Nat) (value : Int) : Int :=
  if 64 ≤ bits then value else (BitVec.ofInt bits value).toNat

/-- A constant of `source` bits as one of `target` bits. Narrowed constants are read
with a sign. -/
def foldCast (source target : Nat) (signed : Bool) (value : Int64) : Except Fault Int64 :=
  if target < source then
    if target = 0 then .error .zeroWidth else .ok (.ofInt (signedValue target value.toInt))
  else if signed then
    if source = 0 then .error .zeroWidth else .ok (.ofInt (signedValue source value.toInt))
  else .ok (.ofInt (unsignedValue source value.toInt))

/-- The cast between two different widths. -/
def CastOp.between (source target : Nat) (signed : Bool) : CastOp :=
  if source < target then if signed then sext else zext else trunc

namespace Build

/-- Runs a change of the module that can be refused. -/
def change {α : Type} (action : Module → Except Fault (α × Module)) : Build α := do
  let builder ← get
  match action builder.code with
  | .ok (result, code) =>
    set { builder with code }
    return result
  | .error fault => throw (.fault fault)

def view {α : Type} (look : Module → Except Fault α) : Build α :=
  change fun code => return (← look code, code)

def createFunction (name : String) (internal : Bool) : Build FunctionId :=
  change fun code => .ok (code.addFunction name internal)

def createGlobal (name : String) (type : Ty) : Build GlobalId :=
  change fun code => .ok (code.addGlobal name type)

def appendBlock (function : FunctionId) (label : String) : Build BlockRef :=
  change fun code => code.appendBlock function label

/-- Later instructions go to the end of `block`. -/
def moveTo (block : BlockRef) : Build Unit :=
  modify fun builder => { builder with cursor := some block }

def isTerminated (block : BlockRef) : Build Bool :=
  view fun code => return (← code.block block).isTerminated

/-- The block under the cursor. -/
def here : Build BlockRef := do
  match (← get).cursor with
  | some block => return block
  | none => throw (.error (.internal "instruction emitted with no insertion point"))

def emit (instr : Instr) : Build Unit := do
  let block ← here
  change fun code => return ((), ← code.push block instr)

def freshRegister (type : Ty) : Build Value := do
  let block ← here
  change fun code => code.freshRegister block.function type

def load (source : GlobalId) : Build Value := do
  let global ← view fun code => code.global source
  let dest ← freshRegister global.type
  emit (.load dest source)
  return dest

def store (value : Value) (target : GlobalId) : Build Unit :=
  emit (.store value target)

def binary (op : BinOp) (left right : Value) : Build Value := do
  let dest ← freshRegister left.type
  emit (.binary dest op left right)
  return dest

def compare (predicate : Predicate) (left right : Value) : Build Value := do
  let dest ← freshRegister (.int 1)
  emit (.compare dest predicate left right)
  return dest

/-- Brings `value` to the width of `type`. A constant needs no instruction, and a
value of that width stays as it is. -/
def intCast (value : Value) (type : Ty) (signed : Bool) : Build Value := do
  if value.type.bits = type.bits then
    return value
  else
    match value with
    | .const source constant =>
      match foldCast source.bits type.bits signed constant with
      | .ok folded => return .const type folded
      | .error fault => throw (.fault fault)
    | .register source _ =>
      let dest ← freshRegister type
      emit (.cast dest (.between source.bits type.bits signed) value)
      return dest

def call (callee : FunctionId) : Build Unit :=
  emit (.call callee)

def jump (target : BlockRef) : Build Unit :=
  emit (.jump target.block)

def fork (condition : Value) (thenBlock elseBlock : BlockRef) : Build Unit :=
  emit (.fork condition thenBlock.block elseBlock.block)

def ret : Build Unit :=
  emit .ret

end Build

end BlockLang.Code
