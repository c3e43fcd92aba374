import BlockLang.Emit

/-! Straight-line code as a value of its own. Every instruction of it defines one
register, so the code is fixed by the number of the first register it may use. -/

namespace BlockLang.Code

/-- Instructions that leave a value, given the number of the next free register. -/
def Straight (α : Type) : Type := Nat → List Instr × α

namespace Straight

variable {α β : Type}

def instrs (code : Straight α) (next : Nat) : List Instr := (code next).1

def value (code : Straight α) (next : Nat) : α := (code next).2

/-- The register that is free once the code is written. -/
def after (code : Straight α) (next : Nat) : Nat := next + (code.instrs next).length

instance : Monad Straight where
  pure value := fun _ => ([], value)
  bind code rest := fun next =>
    (code.instrs next ++ (rest (code.value next)).instrs (code.after next),
      (rest (code.value next)).value (code.after next))

@[simp] theorem instrs_pure (value : α) (next : Nat) :
    (pure value : Straight α).instrs next = [] := rfl

@[simp] theorem value_pure (value : α) (next : Nat) :
    (pure value : Straight α).value next = value := rfl

@[simp] theorem after_pure (value : α) (next : Nat) :
    (pure value : Straight α).after next = next := rfl

@[simp] theorem instrs_bind (code : Straight α) (rest : α → Straight β) (next : Nat) :
    (code >>= rest).instrs next =
      code.instrs next ++ (rest (code.value next)).instrs (code.after next) := rfl

@[simp] theorem value_bind (code : Straight α) (rest : α → Straight β) (next : Nat) :
    (code >>= rest).value next = (rest (code.value next)).value (code.after next) := rfl

@[simp] theorem after_bind (code : Straight α) (rest : α → Straight β) (next : Nat) :
    (code >>= rest).after next = (rest (code.value next)).after (code.after next) := by
  simp only [after, instrs_bind, List.length_append, Nat.add_assoc]

/-- One instruction, made from the register it defines. -/
def define (type : Ty) (instr : Value → Instr) : Straight Value := fun next =>
  ([instr (.register type next)], .register type next)

@[simp] theorem instrs_define (type : Ty) (instr : Value → Instr) (next : Nat) :
    (define type instr).instrs next = [instr (.register type next)] := rfl

@[simp] theorem value_define (type : Ty) (instr : Value → Instr) (next : Nat) :
    (define type instr).value next = .register type next := rfl

@[simp] theorem after_define (type : Ty) (instr : Value → Instr) (next : Nat) :
    (define type instr).after next = next + 1 := rfl

def load (source : GlobalId) (type : Ty) : Straight Value :=
  define type fun dest => .load dest source

def binary (op : BinOp) (left right : Value) : Straight Value :=
  define left.type fun dest => .binary dest op left right

def compare (predicate : Predicate) (left right : Value) : Straight Value :=
  define (.int 1) fun dest => .compare dest predicate left right

/-- A constant at another width; the width of no type is 0. -/
def castConstant (source target : Nat) (signed : Bool) (constant : Int64) : Int64 :=
  match foldCast source target signed constant with
  | .ok folded => folded
  | .error _ => constant

theorem foldCast_eq {source target : Nat} (hsource : 0 < source) (htarget : 0 < target)
    (signed : Bool) (constant : Int64) :
    foldCast source target signed constant = .ok (castConstant source target signed constant) := by
  unfold castConstant
  have hok : ∃ folded, foldCast source target signed constant = .ok folded := by
    unfold foldCast
    simp only [Nat.pos_iff_ne_zero.1 hsource, Nat.pos_iff_ne_zero.1 htarget, if_false]
    split
    · exact ⟨_, rfl⟩
    · split <;> exact ⟨_, rfl⟩
  obtain ⟨folded, hfolded⟩ := hok
  rw [hfolded]

def intCast (value : Value) (type : Ty) (signed : Bool) : Straight Value :=
  if value.type.bits = type.bits then pure value
  else
    match value with
    | .const source constant =>
      pure (.const type (castConstant source.bits type.bits signed constant))
    | .register source _ =>
      define type fun dest => .cast dest (.between source.bits type.bits signed) value

/-- Both operands at their common type. -/
def unify (left right : Operand) : Straight (Value × Value × IntType) := do
  let type := left.type.join right.type
  let first ← intCast left.value type.backend left.type.signed
  let second ← intCast right.value type.backend right.type.signed
  return (first, second, type)

def combine (op : Tree.Operator) (left right : Operand) : Straight Operand := do
  let (first, second, type) ← unify left right
  return ⟨← binary (op.binOp type.signed) first second, type⟩

def negate (operand : Operand) : Straight Operand := do
  match operand.value with
  | .const _ value => return .constant (-value)
  | .register _ _ =>
    return ⟨← binary .sub (.const operand.type.backend 0) operand.value, operand.type⟩

def compareOperands (op : Tree.Comparison) (left right : Operand) : Straight Value := do
  let (first, second, type) ← unify left right
  compare (op.predicate type.signed) first second

end Straight

end BlockLang.Code
