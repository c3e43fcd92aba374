/-! Instructions of the emitted code. Globals, functions and blocks are named by
their place in the store that owns them. -/

namespace BlockLang.Code

inductive Ty where
  | void
  | int (bits : Nat)
  | ptr
  deriving Repr, DecidableEq, Inhabited

def Ty.bits : Ty → Nat
  | void => 0
  | int bits => bits
  | ptr => 64

abbrev GlobalId := Nat
abbrev FunctionId := Nat
abbrev BlockId := Nat

/-- A block and the function that owns it. -/
structure BlockRef where
  function : FunctionId
  block : BlockId
  deriving Repr, DecidableEq, Inhabited

inductive Value where
  | const (type : Ty) (value : Int64)
  | register (type : Ty) (id : Nat)
  deriving Repr, DecidableEq, Inhabited

def Value.type : Value → Ty
  | const type _ => type
  | register type _ => type

inductive BinOp where
  | add | sub | mul | sdiv | udiv | srem | urem
  deriving Repr, DecidableEq, Inhabited

inductive Predicate where
  | eq | ne | slt | sle | sgt | sge | ult | ule | ugt | uge
  deriving Repr, DecidableEq, Inhabited

inductive CastOp where
  | sext | zext | trunc
  deriving Repr, DecidableEq, Inhabited

inductive Instr where
  | load (dest : Value) (source : GlobalId)
  | store (value : Value) (target : GlobalId)
  | binary (dest : Value) (op : BinOp) (left right : Value)
  | compare (dest : Value) (predicate : Predicate) (left right : Value)
  | cast (dest : Value) (op : CastOp) (value : Value)
  | call (callee : FunctionId)
  | jump (target : BlockId)
  | fork (condition : Value) (thenBlock elseBlock : BlockId)
  | ret
  deriving Repr, DecidableEq, Inhabited

/-- Whether control leaves the block here. -/
def Instr.isTerminator : Instr → Bool
  | jump _ | fork _ _ _ | ret => true
  | _ => false

end BlockLang.Code
