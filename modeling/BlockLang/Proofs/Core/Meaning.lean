import Mathlib.Algebra.Group.Int.Defs
import Mathlib.Algebra.Group.Nat.Defs
import BlockLang.Proofs.Core.Program

/-! What resolved programs mean, in terms of integers. A variable holds a number of its
type. Operands are brought to their common type, and results wrap around in it. A program
that divides by zero, or whose quotient is no number of the type, has no meaning. -/

namespace BlockLang

namespace IntType

/-- The number of the type that differs from `value` by a multiple of `2 ^ width`. -/
def wrap (type : IntType) (value : Int) : Int :=
  if type.signed then value.bmod (2 ^ type.width) else value % 2 ^ type.width

def Contains (type : IntType) (value : Int) : Prop :=
  if type.signed then -2 ^ (type.width - 1) ≤ value ∧ value < 2 ^ (type.width - 1)
  else 0 ≤ value ∧ value < 2 ^ type.width

instance (type : IntType) (value : Int) : Decidable (type.Contains value) :=
  inferInstanceAs (Decidable
    (if type.signed then -2 ^ (type.width - 1) ≤ value ∧ value < 2 ^ (type.width - 1)
      else 0 ≤ value ∧ value < 2 ^ type.width))

end IntType

namespace Tree

/-- The result of an operator on two numbers of the type. Quotients are cut off towards
zero, and a remainder has the sign of the first operand. -/
def Operator.result? (type : IntType) (first second : Int) : Operator → Option Int
  | add => some (type.wrap (first + second))
  | sub => some (type.wrap (first - second))
  | mul => some (type.wrap (first * second))
  | div =>
    if second ≠ 0 ∧ type.Contains (first.tdiv second) then some (first.tdiv second) else none
  | rem =>
    if second ≠ 0 ∧ type.Contains (first.tdiv second) then some (first.tmod second) else none

def Comparison.holds (first second : Int) : Comparison → Bool
  | equal => first = second
  | notEqual => first ≠ second
  | less => first < second
  | lessEqual => first ≤ second
  | greater => second < first
  | greaterEqual => second ≤ first

end Tree

namespace Core

/-- The numbers in the cells. -/
abbrev Store := Nat → Int

def Store.set (store : Store) (id : Nat) (value : Int) : Store := fun other =>
  if other = id then value else store other

namespace Expr

/-- The value of a number under any number of minus signs. It is a literal in its own right,
and wraps around at 64 bits. -/
def constant? : Expr → Option Int64
  | number value => some value
  | negate operand => operand.constant?.map fun value => -value
  | _ => none

/-- The type of an expression. A constant is as narrow as it can be, but not below 32 bits. -/
def type : Expr → IntType
  | number value => .ofConstant value
  | cell _ type => type
  | negate operand =>
    match operand.constant? with
    | some value => .ofConstant (-value)
    | none => operand.type
  | binary _ left right => left.type.join right.type

def eval (store : Store) : Expr → Option Int
  | number value => some value.toInt
  | cell id _ => some (store id)
  | negate operand =>
    match operand.constant? with
    | some value => some (-value).toInt
    | none => do
      let value ← operand.eval store
      return operand.type.wrap (-value)
  | binary op left right => do
    let first ← left.eval store
    let second ← right.eval store
    let type := left.type.join right.type
    op.result? type (type.wrap first) (type.wrap second)

end Expr

def Cond.eval (store : Store) (cond : Cond) : Option Bool := do
  let first ← cond.left.eval store
  let second ← cond.right.eval store
  let type := cond.left.type.join cond.right.type
  return cond.op.holds (type.wrap first) (type.wrap second)

/-- How a statement ends: what follows goes on, or the procedure is left. -/
inductive Exit where
  | finished
  | returned
  deriving Repr, DecidableEq

/-- The statement, run from the first store, ends in the second. -/
inductive Stmt.Runs (procedures : List Stmt) : Stmt → Store → Exit → Store → Prop
  | skip {store : Store} : Runs procedures .skip store .finished store
  | seq {first second : Stmt} {store middle last : Store} {exit : Exit}
    (hfirst : Runs procedures first store .finished middle)
    (hsecond : Runs procedures second middle exit last) :
    Runs procedures (.seq first second) store exit last
  | seqReturned {first second : Stmt} {store last : Store}
    (hfirst : Runs procedures first store .returned last) :
    Runs procedures (.seq first second) store .returned last
  | assign {target : Nat} {type : IntType} {source : Expr} {store : Store} {value : Int}
    (hvalue : source.eval store = some value) :
    Runs procedures (.assign target type source) store .finished
      (store.set target (type.wrap value))
  | call {callee : Nat} {body : Stmt} {store last : Store} {exit : Exit}
    (hcallee : procedures[callee]? = some body) (hbody : Runs procedures body store exit last) :
    Runs procedures (.call callee) store .finished last
  | branch {condition : Cond} {yes no : Stmt} {store last : Store} {exit : Exit} {holds : Bool}
    (hcondition : condition.eval store = some holds)
    (hchosen : Runs procedures (if holds then yes else no) store exit last) :
    Runs procedures (.branch condition yes no) store exit last
  | loopDone {condition : Cond} {body : Stmt} {store : Store}
    (hcondition : condition.eval store = some false) :
    Runs procedures (.loop condition body) store .finished store
  | loopAgain {condition : Cond} {body : Stmt} {store middle last : Store} {exit : Exit}
    (hcondition : condition.eval store = some true)
    (hbody : Runs procedures body store .finished middle)
    (hrest : Runs procedures (.loop condition body) middle exit last) :
    Runs procedures (.loop condition body) store exit last
  | loopReturned {condition : Cond} {body : Stmt} {store last : Store}
    (hcondition : condition.eval store = some true)
    (hbody : Runs procedures body store .returned last) :
    Runs procedures (.loop condition body) store .returned last
  | ret {store : Store} : Runs procedures .ret store .returned store

/-- The program's outermost procedure, run with 0 in every cell, ends with `store`. -/
def Program.Ends (program : Program) (store : Store) : Prop :=
  ∃ body exit, program.procedures[0]? = some body ∧
    body.Runs program.procedures (fun _ => 0) exit store

end Core

end BlockLang
