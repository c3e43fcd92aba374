import BlockLang.Code.Module

/-! The text of a module. Each line ends in a line feed; a reference to something
that does not exist has no text. -/

namespace BlockLang.Code

def Ty.text : Ty → String
  | void => "void"
  | int bits => "i" ++ toString bits
  | ptr => "ptr"

def Value.text : Value → String
  | const _ value => toString value.toInt
  | register _ id => "%t" ++ toString id

def BinOp.mnemonic : BinOp → String
  | add => "add"
  | sub => "sub"
  | mul => "mul"
  | sdiv => "sdiv"
  | udiv => "udiv"
  | srem => "srem"
  | urem => "urem"

def Predicate.mnemonic : Predicate → String
  | eq => "eq"
  | ne => "ne"
  | slt => "slt"
  | sle => "sle"
  | sgt => "sgt"
  | sge => "sge"
  | ult => "ult"
  | ule => "ule"
  | ugt => "ugt"
  | uge => "uge"

def CastOp.mnemonic : CastOp → String
  | sext => "sext"
  | zext => "zext"
  | trunc => "trunc"

def Instr.text (code : Module) (function : Function) : Instr → Except Fault String
  | load dest source => do
    return dest.text ++ " = load " ++ dest.type.text ++ ", ptr @" ++ (← code.global source).name
  | store value target => do
    return "store " ++ value.type.text ++ " " ++ value.text ++ ", ptr @" ++ (← code.global target).name
  | binary dest op left right =>
    return dest.text ++ " = " ++ op.mnemonic ++ " " ++ left.type.text ++ " " ++ left.text ++ ", " ++
      right.text
  | compare dest predicate left right =>
    return dest.text ++ " = icmp " ++ predicate.mnemonic ++ " " ++ left.type.text ++ " " ++
      left.text ++ ", " ++ right.text
  | cast dest op value =>
    return dest.text ++ " = " ++ op.mnemonic ++ " " ++ value.type.text ++ " " ++ value.text ++
      " to " ++ dest.type.text
  | call callee => do
    return "call void @" ++ (← code.function callee).name ++ "()"
  | jump target => do
    return "br label %" ++ (← fetch function.blocks target).label
  | fork condition thenBlock elseBlock => do
    return "br i1 " ++ condition.text ++ ", label %" ++ (← fetch function.blocks thenBlock).label ++
      ", label %" ++ (← fetch function.blocks elseBlock).label
  | ret => return "ret void"

def Global.line (global : Global) : String :=
  "@" ++ global.name ++ " = global " ++ global.type.text ++ " 0"

def Block.lines (code : Module) (function : Function) (block : Block) :
    Except Fault (List String) := do
  let instrs ← block.instrs.mapM (Instr.text code function)
  return (block.label ++ ":") :: instrs.map ("  " ++ ·)

/-- An empty line sets functions apart, and blocks within a function. -/
def Function.lines (code : Module) (function : Function) : Except Fault (List String) := do
  let blocks ← function.blocks.mapM (Block.lines code function)
  let linkage := if function.internal then "internal " else ""
  return ["", "define " ++ linkage ++ "void @" ++ function.name ++ "() \x7b"] ++
    List.intercalate [""] blocks ++ ["\x7d"]

def Module.header (code : Module) : List String :=
  ["; ModuleID = '" ++ code.name ++ "'", "source_filename = \"" ++ code.name ++ "\""]

def Module.lines (code : Module) : Except Fault (List String) := do
  let globals := if code.globals.isEmpty then [] else "" :: code.globals.map Global.line
  let functions ← code.functions.mapM (Function.lines code)
  return code.header ++ globals ++ functions.flatten

def Module.listing (code : Module) : Except Fault String := do
  return String.join ((← code.lines).map (· ++ "\n"))

end BlockLang.Code
