import BlockLang.Code.Listing

/-! The structural check of emitted code: every block ends in its only terminator,
what instructions refer to exists, and their types fit. -/

namespace BlockLang.Code

/-- What an instruction can get wrong. -/
inductive Misuse where
  | unknownBlock (id : BlockId)
  | unknownGlobal (id : GlobalId)
  | unknownFunction (id : FunctionId)
  | typeMismatch (operation : String) (expected found : Ty)
  | badCast (source target : Nat)
  deriving Repr, DecidableEq

def Misuse.message : Misuse → String
  | unknownBlock id => "branch to unknown block #" ++ toString id
  | unknownGlobal id => "reference to unknown global #" ++ toString id
  | unknownFunction id => "call to unknown function #" ++ toString id
  | typeMismatch operation expected found =>
    operation ++ ": type mismatch (" ++ expected.text ++ " vs " ++ found.text ++ ")"
  | badCast source target => "invalid cast from i" ++ toString source ++ " to i" ++ toString target

inductive Flaw where
  | noBlocks
  | emptyBlock (label : String)
  | unfinishedBlock (label : String)
  | earlyTerminator (label : String)
  | misuse (label : String) (cause : Misuse)
  deriving Repr, DecidableEq

def Flaw.message : Flaw → String
  | noBlocks => "function has no blocks"
  | emptyBlock label => "block '" ++ label ++ "' is empty"
  | unfinishedBlock label => "block '" ++ label ++ "' does not end with a terminator"
  | earlyTerminator label => "block '" ++ label ++ "' has a terminator before its end"
  | misuse label cause => "in block '" ++ label ++ "': " ++ cause.message

def requireType (operation : String) (expected found : Ty) : Except Misuse Unit :=
  if expected = found then .ok () else .error (.typeMismatch operation expected found)

def requireBlock (function : Function) (id : BlockId) : Except Misuse Unit :=
  if id < function.blocks.length then .ok () else .error (.unknownBlock id)

def globalType (code : Module) (id : GlobalId) : Except Misuse Ty :=
  match code.globals[id]? with
  | some global => .ok global.type
  | none => .error (.unknownGlobal id)

/-- Widening makes a value longer, truncation makes it shorter. -/
def CastOp.fits (op : CastOp) (source target : Nat) : Bool :=
  match op with
  | sext | zext => source < target
  | trunc => target < source

def Instr.check (code : Module) (function : Function) : Instr → Except Misuse Unit
  | load dest source => do requireType "load" (← globalType code source) dest.type
  | store value target => do requireType "store" (← globalType code target) value.type
  | binary dest op left right => do
    requireType op.mnemonic left.type right.type
    requireType op.mnemonic left.type dest.type
  | compare dest _ left right => do
    requireType "icmp" left.type right.type
    requireType "icmp" dest.type (.int 1)
  | cast dest op value =>
    if op.fits value.type.bits dest.type.bits then .ok ()
    else .error (.badCast value.type.bits dest.type.bits)
  | call callee =>
    if callee < code.functions.length then .ok () else .error (.unknownFunction callee)
  | jump target => requireBlock function target
  | fork condition thenBlock elseBlock => do
    requireType "br" condition.type (.int 1)
    requireBlock function thenBlock
    requireBlock function elseBlock
  | ret => .ok ()

def Block.check (code : Module) (function : Function) (block : Block) : Except Flaw Unit :=
  if block.instrs.isEmpty then .error (.emptyBlock block.label)
  else if !block.isTerminated then .error (.unfinishedBlock block.label)
  else if block.instrs.dropLast.any Instr.isTerminator then .error (.earlyTerminator block.label)
  else block.instrs.forM fun instr =>
    (instr.check code function).mapError (Flaw.misuse block.label)

def Function.check (code : Module) (function : Function) : Except Flaw Unit :=
  if function.blocks.isEmpty then .error .noBlocks
  else function.blocks.forM (Block.check code function)

namespace Module

def checkFunction (code : Module) (id : FunctionId) : Except Error Unit :=
  match code.functions[id]? with
  | none => .error (.rejected ("#" ++ toString id) "no such function")
  | some function =>
    (function.check code).mapError fun flaw => .rejected function.name flaw.message

def check (code : Module) : Except Error Unit :=
  (List.range code.functions.length).forM code.checkFunction

end Module

end BlockLang.Code
