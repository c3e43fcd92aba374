import BlockLang.Proofs.Code.Draft
import BlockLang.Proofs.Core.Program

/-! The code of a resolved program, as a function of the program alone: an expression is
straight-line code, and a statement turns one draft of its function into the next. -/

namespace BlockLang

open Code

namespace Core

def Expr.code : Expr → Straight Operand
  | number value => pure (.constant value)
  | cell id type => do
    let value ← Straight.load id type.backend
    return ⟨value, type⟩
  | negate operand => do
    let value ← operand.code
    Straight.negate value
  | binary op left right => do
    let first ← left.code
    let second ← right.code
    Straight.combine op first second

def Cond.code (cond : Cond) : Straight Value := do
  let first ← cond.left.code
  let second ← cond.right.code
  Straight.compareOperands cond.op first second

/-- An expression at the width of the cell it is assigned to. -/
def Expr.codeAs (expr : Expr) (type : IntType) : Straight Value := do
  let operand ← expr.code
  Straight.intCast operand.value type.backend operand.type.signed

/-- The draft once a statement has been written to it. -/
def Stmt.build : Stmt → Draft → Draft
  | skip, draft => draft
  | seq first second, draft => second.build (first.build draft)
  | assign target type value, draft => draft.say (value.codeAs type) (.store · target)
  | call callee, draft => draft.push (.call callee)
  | branch condition yes no, draft =>
    let next := draft.blocks.length
    let opened := draft.openAll ["then", "else", "endif"]
    let forked := opened.say condition.code (.fork · next (next + 1))
    let chosen := yes.build (forked.moveTo next)
    let other := no.build ((chosen.push (.jump (next + 2))).moveTo (next + 1))
    (other.push (.jump (next + 2))).moveTo (next + 2)
  | loop condition body, draft =>
    let next := draft.blocks.length
    let opened := draft.openAll ["while.cond", "while.body", "while.end"]
    let testing := (opened.push (.jump next)).moveTo next
    let forked := testing.say condition.code (.fork · (next + 1) (next + 2))
    let done := body.build (forked.moveTo (next + 1))
    (done.push (.jump next)).moveTo (next + 2)
  | ret, draft =>
    ((draft.openAll ["after.return"]).push .ret).moveTo draft.blocks.length

/-- The draft once control parts ways in it: three blocks have been made for that, and the first
two of them are where it goes. -/
def Cond.forked (condition : Cond) (draft : Draft) : Draft :=
  (draft.openAll ["then", "else", "endif"]).say condition.code
    (.fork · draft.blocks.length (draft.blocks.length + 1))

/-- The draft once control has come to a loop: three blocks have been made for it, and the first
one waits for the test. -/
def Cond.looped (draft : Draft) : Draft :=
  ((draft.openAll ["while.cond", "while.body", "while.end"]).push
    (.jump draft.blocks.length)).moveTo draft.blocks.length

/-- The draft once the test of a loop has been written, which goes on to its body or behind it. -/
def Cond.tested (condition : Cond) (draft : Draft) : Draft :=
  (looped draft).say condition.code (.fork · (draft.blocks.length + 1) (draft.blocks.length + 2))

/-- A part of a statement has been written to the block `id`, which is left for `last`. -/
def Stmt.aside (part : Stmt) (stage : Draft) (id last : Nat) : Draft :=
  (part.build (stage.moveTo id)).push (.jump last)

namespace Cond

theorem length_forked (condition : Cond) (draft : Draft) :
    (condition.forked draft).blocks.length = draft.blocks.length + 3 := by
  simp [forked, Draft.say]

theorem length_looped (draft : Draft) : (looped draft).blocks.length = draft.blocks.length + 3 := by
  simp [looped]

theorem inside_looped (draft : Draft) : (looped draft).cursor < (looped draft).blocks.length := by
  rw [length_looped]
  exact Nat.lt_add_of_pos_right (Nat.zero_lt_succ 2)

theorem length_tested (condition : Cond) (draft : Draft) :
    (condition.tested draft).blocks.length = draft.blocks.length + 3 := by
  rw [tested, Draft.say, Draft.length_push, Draft.length_write, length_looped]

end Cond

theorem Stmt.build_branch (condition : Cond) (yes no : Stmt) (draft : Draft) :
    let next := draft.blocks.length
    (branch condition yes no).build draft =
      (no.aside (yes.aside (condition.forked draft) next (next + 2)) (next + 1) (next + 2)).moveTo
        (next + 2) := rfl

theorem Stmt.build_loop (condition : Cond) (body : Stmt) (draft : Draft) :
    let next := draft.blocks.length
    (loop condition body).build draft =
      (body.aside (condition.tested draft) (next + 1) next).moveTo (next + 2) := rfl

namespace Stmt

private theorem le_aside {part : Stmt}
    (h : ∀ draft, draft.blocks.length ≤ (part.build draft).blocks.length) (stage : Draft)
    (id last : Nat) : stage.blocks.length ≤ (part.aside stage id last).blocks.length := by
  rw [aside, Draft.length_push]
  exact h (stage.moveTo id)

/-- No block is ever taken away. -/
theorem length_le_build (stmt : Stmt) (draft : Draft) :
    draft.blocks.length ≤ (stmt.build draft).blocks.length := by
  induction stmt generalizing draft with
  | skip => exact Nat.le_refl _
  | seq first second ihfirst ihsecond =>
    exact Nat.le_trans (ihfirst draft) (ihsecond (first.build draft))
  | assign | call | ret => simp [build, Draft.say]
  | branch condition yes no ihyes ihno =>
    rw [build_branch, Draft.blocks_moveTo]
    calc draft.blocks.length
      _ ≤ (condition.forked draft).blocks.length := by
        rw [condition.length_forked]
        exact Nat.le_add_right _ _
      _ ≤ _ := le_aside ihyes _ _ _
      _ ≤ _ := le_aside ihno _ _ _
  | loop condition body ih =>
    rw [build_loop, Draft.blocks_moveTo]
    calc draft.blocks.length
      _ ≤ (condition.tested draft).blocks.length := by
        rw [condition.length_tested]
        exact Nat.le_add_right _ _
      _ ≤ _ := le_aside ih _ _ _

theorem length_le_aside (part : Stmt) (stage : Draft) (id last : Nat) :
    stage.blocks.length ≤ (part.aside stage id last).blocks.length :=
  le_aside part.length_le_build stage id last

theorem lt_forked (condition : Cond) (draft : Draft) :
    draft.blocks.length < (condition.forked draft).blocks.length := by
  rw [condition.length_forked]
  omega

/-- The second way and where both meet are there, whatever the first one has made. -/
theorem lt_chosen (condition : Cond) (yes : Stmt) (draft : Draft) :
    draft.blocks.length + 2 < (yes.aside (condition.forked draft) draft.blocks.length
      (draft.blocks.length + 2)).blocks.length := by
  have hforked := condition.length_forked draft
  have hle := yes.length_le_aside (condition.forked draft) draft.blocks.length
    (draft.blocks.length + 2)
  omega

theorem lt_tested (condition : Cond) (draft : Draft) :
    draft.blocks.length + 2 < (condition.tested draft).blocks.length := by
  rw [condition.length_tested]
  omega

end Stmt

/-- The function of a procedure with the given body. -/
def Stmt.draft (body : Stmt) : Draft :=
  (body.build Draft.entry).push .ret

def Stmt.sketch (body : Stmt) : Sketch := body.draft.sketch

end Core

/-- The code is that of the program: a global for each cell, and a function for each
procedure. -/
structure Code.Module.Implements (code : Module) (program : Core.Program) : Prop where
  globals : code.globals.map Global.type = program.cells.map IntType.backend
  functions : code.functions.map Function.sketch = program.procedures.map Core.Stmt.sketch

namespace Code.Module

variable {code : Module} {program : Core.Program}

/-- Every function of the code is that of a procedure of the program. -/
theorem Implements.function (h : code.Implements program) {id : FunctionId} {function : Function}
    (hfunction : code.functions[id]? = some function) :
    ∃ body, program.procedures[id]? = some body ∧ function.sketch = body.sketch := by
  have hsketch : (code.functions.map Function.sketch)[id]? = some function.sketch := by
    rw [List.getElem?_map, hfunction]
    rfl
  rw [h.functions, List.getElem?_map] at hsketch
  obtain ⟨body, hbody, hsame⟩ := Option.map_eq_some_iff.1 hsketch
  exact ⟨body, hbody, hsame.symm⟩

theorem Implements.length (h : code.Implements program) :
    code.functions.length = program.procedures.length := by
  simpa using congrArg List.length h.functions

end Code.Module

end BlockLang
