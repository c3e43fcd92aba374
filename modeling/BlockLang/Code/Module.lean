import BlockLang.Code.Fresh
import BlockLang.Code.Instr
import BlockLang.Failure

/-! The store of emitted code. Entries are only ever added, so what names them
stays good. Globals and functions share their names; block labels are kept apart
per function. -/

namespace BlockLang.Code

structure Global where
  name : String
  type : Ty
  deriving Repr, DecidableEq, Inhabited

structure Block where
  label : String
  /-- The newest instruction first, so that adding one is cheap. -/
  newest : List Instr := []
  deriving Repr, DecidableEq, Inhabited

namespace Block

def instrs (block : Block) : List Instr :=
  block.newest.reverse

def push (block : Block) (instr : Instr) : Block :=
  { block with newest := instr :: block.newest }

/-- A block is finished once its last instruction leaves it. -/
def isTerminated (block : Block) : Bool :=
  block.instrs.getLast?.any Instr.isTerminator

@[simp] theorem instrs_mk_nil (label : String) : instrs { label } = [] := rfl

@[simp] theorem instrs_push (block : Block) (instr : Instr) :
    (block.push instr).instrs = block.instrs ++ [instr] := by
  simp [instrs, push]

@[simp] theorem label_push (block : Block) (instr : Instr) :
    (block.push instr).label = block.label := rfl

@[ext] theorem ext_instrs {block other : Block} (label : block.label = other.label)
    (instrs : block.instrs = other.instrs) : block = other := by
  cases block
  cases other
  simp_all [Block.instrs]

end Block

/-- Numbers that are given out one after another, as long as there are any. -/
class Counter (ρ : Type) where
  first : ρ
  number : ρ → Nat
  next? : ρ → Option ρ
  number_first : number first = 0
  number_next : ∀ {count later : ρ}, next? count = some later → number later = number count + 1

instance : Counter Nat where
  first := 0
  number count := count
  next? count := some (count + 1)
  number_first := rfl
  number_next h := (Option.some.inj h).symm

/-- After the last number of 32 bits there is none. -/
instance : Counter UInt32 where
  first := 0
  number := UInt32.toNat
  next? count := if count.toNat + 1 < UInt32.size then some (count + 1) else none
  number_first := rfl
  number_next {count later} h := by
    split at h
    next hlt =>
      rw [← Option.some.inj h, UInt32.toNat_add]
      exact Nat.mod_eq_of_lt hlt
    next => cases h

/-- A function counts its registers in `ρ`. The compiler counts them without end. -/
structure Function (ρ : Type := Nat) where
  name : String
  /-- Whether the function is seen in its own module only. -/
  internal : Bool
  blocks : List Block := []
  nextRegister : ρ
  /-- The labels that must not be given again. -/
  taken : NameSet := ∅
  deriving Repr, DecidableEq, Inhabited

variable {ρ : Type}

namespace Function

def labels (function : Function ρ) : List String :=
  function.blocks.map Block.label

/-- A function that holds nothing yet. -/
def bare [Counter ρ] (name : String) (internal : Bool) : Function ρ where
  name := name
  internal := internal
  nextRegister := Counter.first

def addBlock (function : Function ρ) (label : String) : Function ρ :=
  { function with
    blocks := function.blocks ++ [{ label }]
    taken := function.taken.insert label }

def push (function : Function ρ) (id : BlockId) (instr : Instr) : Function ρ :=
  { function with blocks := function.blocks.modify id fun block => block.push instr }

end Function

structure Module (ρ : Type := Nat) where
  name : String
  globals : List Global := []
  functions : List (Function ρ) := []
  /-- The names that must not be given again. -/
  taken : NameSet := ∅
  deriving Repr, DecidableEq, Inhabited

namespace Module

def names (code : Module ρ) : List String :=
  code.globals.map Global.name ++ code.functions.map Function.name

def global (code : Module ρ) (id : GlobalId) : Except Fault Global :=
  fetch code.globals id

def function (code : Module ρ) (id : FunctionId) : Except Fault (Function ρ) :=
  fetch code.functions id

def block (code : Module ρ) (place : BlockRef) : Except Fault Block := do
  fetch (← code.function place.function).blocks place.block

def functionNamed? (code : Module ρ) (name : String) : Option FunctionId :=
  code.functions.findIdx? fun function => function.name == name

def addGlobal (code : Module ρ) (base : String) (type : Ty) : GlobalId × Module ρ :=
  let name := fresh code.taken base
  (code.globals.length,
    { code with globals := code.globals ++ [⟨name, type⟩], taken := code.taken.insert name })

def addFunction [Counter ρ] (code : Module ρ) (base : String) (internal : Bool) :
    FunctionId × Module ρ :=
  let name := fresh code.taken base
  (code.functions.length,
    { code with
      functions := code.functions ++ [.bare name internal]
      taken := code.taken.insert name })

def modifyFunction (code : Module ρ) (id : FunctionId) (change : Function ρ → Function ρ) :
    Module ρ :=
  { code with functions := code.functions.modify id change }

def appendBlock (code : Module ρ) (id : FunctionId) (base : String) :
    Except Fault (BlockRef × Module ρ) := do
  let function ← code.function id
  let label := fresh function.taken base
  return (⟨id, function.blocks.length⟩,
    code.modifyFunction id fun function => function.addBlock label)

def freshRegister [Counter ρ] (code : Module ρ) (id : FunctionId) (type : Ty) :
    Except Fault (Value × Module ρ) := do
  let function ← code.function id
  match Counter.next? function.nextRegister with
  | none => throw .registersSpent
  | some nextRegister =>
    return (.register type (Counter.number function.nextRegister),
      code.modifyFunction id fun function => { function with nextRegister })

def push (code : Module ρ) (place : BlockRef) (instr : Instr) : Except Fault (Module ρ) := do
  discard <| code.block place
  return code.modifyFunction place.function fun function => function.push place.block instr

end Module

end BlockLang.Code
