import BlockLang.Emit

/-! How emitted code runs. Numbers are two's complement words, every call has registers of
its own, and the globals are shared. A step that has no defined result is not taken. -/

namespace BlockLang.Code

structure Word where
  width : Nat
  bits : BitVec width
  deriving DecidableEq

/-- The bits of a word that has to be of the given width. -/
def Word.at? (word : Word) (width : Nat) : Option (BitVec width) :=
  if h : word.width = width then some (word.bits.cast h) else none

@[simp] theorem Word.at?_self {width : Nat} (bits : BitVec width) :
    (Word.mk width bits).at? width = some bits := by
  simp [Word.at?]

abbrev Registers := Nat → Option Word

/-- The bits of a value that has to be an integer of the given width. -/
def Value.read? (registers : Registers) (value : Value) (width : Nat) : Option (BitVec width) :=
  match value with
  | const (.int bits) number => if bits = width then some (.ofInt width number.toInt) else none
  | register (.int bits) id => if bits = width then registers id >>= (·.at? width) else none
  | _ => none

/-- The registers once a word has been put into the one that `dest` names. -/
def Value.define? (registers : Registers) (dest : Value) (word : Word) : Option Registers :=
  match dest with
  | register (.int bits) id =>
    if word.width = bits then some fun other => if other = id then some word else registers other
    else none
  | _ => none

/-- Nothing is divided by zero, and no signed quotient may be too large. -/
def BinOp.result? {width : Nat} (first second : BitVec width) : BinOp → Option (BitVec width)
  | add => some (first + second)
  | sub => some (first - second)
  | mul => some (first * second)
  | udiv => if second = 0 then none else some (first / second)
  | urem => if second = 0 then none else some (first % second)
  | sdiv =>
    if second = 0 ∨ (first = .intMin width ∧ second = -1) then none else some (first.sdiv second)
  | srem =>
    if second = 0 ∨ (first = .intMin width ∧ second = -1) then none else some (first.srem second)

def Predicate.holds {width : Nat} (first second : BitVec width) : Predicate → Bool
  | eq => first == second
  | ne => first != second
  | slt => first.slt second
  | sle => first.sle second
  | sgt => second.slt first
  | sge => second.sle first
  | ult => first.ult second
  | ule => first.ule second
  | ugt => second.ult first
  | uge => second.ule first

def CastOp.apply {source : Nat} (bits : BitVec source) (target : Nat) : CastOp → BitVec target
  | sext => bits.signExtend target
  | zext => bits.setWidth target
  | trunc => bits.setWidth target

/-- The registers once an instruction has defined one of them. -/
def Instr.compute? (memory : List Word) (registers : Registers) : Instr → Option Registers
  | load dest source => do
    let word ← memory[source]?
    dest.define? registers word
  | binary dest op left right => do
    let first ← left.read? registers left.type.bits
    let second ← right.read? registers left.type.bits
    let result ← op.result? first second
    dest.define? registers ⟨_, result⟩
  | compare dest predicate left right => do
    let first ← left.read? registers left.type.bits
    let second ← right.read? registers left.type.bits
    dest.define? registers ⟨1, .ofBool (predicate.holds first second)⟩
  | cast dest op value => do
    let bits ← value.read? registers value.type.bits
    dest.define? registers ⟨_, op.apply bits dest.type.bits⟩
  | _ => none

/-- A call under way: its function, what is left of the block it is in, and its registers. -/
structure Frame where
  function : FunctionId
  rest : List Instr
  registers : Registers

structure Machine where
  memory : List Word
  /-- The calls under way, the innermost first. -/
  frames : List Frame

namespace Module

def instrsAt? (code : Module) (function : FunctionId) (block : BlockId) : Option (List Instr) := do
  let function ← code.functions[function]?
  let block ← function.blocks[block]?
  return block.instrs

/-- One step, if there is one. A machine with no call under way has stopped. -/
def step (code : Module) (machine : Machine) : Option Machine :=
  match machine.frames with
  | [] => none
  | ⟨_, [], _⟩ :: _ => none
  | ⟨function, instr :: rest, registers⟩ :: outer =>
    match instr with
    | .store value target => do
      let old ← machine.memory[target]?
      let bits ← value.read? registers old.width
      return ⟨machine.memory.set target ⟨_, bits⟩, ⟨function, rest, registers⟩ :: outer⟩
    | .call callee => do
      let entry ← code.instrsAt? callee 0
      return ⟨machine.memory, ⟨callee, entry, fun _ => none⟩ :: ⟨function, rest, registers⟩ :: outer⟩
    | .jump target => do
      let next ← code.instrsAt? function target
      return ⟨machine.memory, ⟨function, next, registers⟩ :: outer⟩
    | .fork condition yes no => do
      let bit ← condition.read? registers 1
      let next ← code.instrsAt? function (if bit = 1 then yes else no)
      return ⟨machine.memory, ⟨function, next, registers⟩ :: outer⟩
    | .ret => some ⟨machine.memory, outer⟩
    | _ => do
      let registers ← instr.compute? machine.memory registers
      return ⟨machine.memory, ⟨function, rest, registers⟩ :: outer⟩

/-- The machine after so many steps. -/
def run (code : Module) : Nat → Machine → Option Machine
  | 0, machine => some machine
  | steps + 1, machine => do
    let next ← code.step machine
    code.run steps next

/-- The machine at the start of a function, with all globals 0. -/
def boot? (code : Module) (function : FunctionId) : Option Machine := do
  let entry ← code.instrsAt? function 0
  return ⟨code.globals.map fun global => ⟨global.type.bits, 0⟩, [⟨function, entry, fun _ => none⟩]⟩

/-- Run from the start of a function, the code stops with the given words in the globals. -/
def Stops (code : Module) (function : FunctionId) (memory : List Word) : Prop :=
  ∃ machine steps, code.boot? function = some machine ∧ code.run steps machine = some ⟨memory, []⟩

end Module

end BlockLang.Code
