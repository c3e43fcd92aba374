import BlockLang.Proofs.Code.Steps
import BlockLang.Proofs.Core.Build

/-! Which globals and functions the code of a program names. Its loads, stores and calls are
those that the program asks for, though not in the order of the source. -/

namespace BlockLang

namespace Code

/-- What an instruction does with a global or a function. -/
inductive Access where
  | load (source : GlobalId)
  | store (target : GlobalId)
  | call (callee : FunctionId)
  deriving Repr, DecidableEq

def Instr.accesses : Instr → List Access
  | load _ source => [.load source]
  | store _ target => [.store target]
  | call callee => [.call callee]
  | binary .. | compare .. | cast .. | jump _ | fork .. | ret => []

def accesses (instrs : List Instr) : List Access := instrs.flatMap Instr.accesses

@[simp] theorem accesses_nil : accesses [] = [] := rfl

@[simp] theorem accesses_append (first second : List Instr) :
    accesses (first ++ second) = accesses first ++ accesses second :=
  List.flatMap_append

@[simp] theorem accesses_singleton (instr : Instr) : accesses [instr] = instr.accesses :=
  List.flatMap_singleton _ _

def Function.accesses (function : Function) : List Access :=
  Code.accesses (function.blocks.flatMap Block.instrs)

namespace Draft

def accesses (draft : Draft) : List Access :=
  Code.accesses (draft.blocks.flatMap Block.instrs)

/-- The draft goes on to one that makes `more` accesses. -/
structure Gains (draft later : Draft) (more : List Access) : Prop where
  length : draft.blocks.length ≤ later.blocks.length
  inside : later.cursor < later.blocks.length
  perm : later.accesses.Perm (draft.accesses ++ more)

namespace Gains

variable {draft later last : Draft} {more others : List Access}

theorem refl (hinside : draft.cursor < draft.blocks.length) : draft.Gains draft [] :=
  ⟨Nat.le_refl _, hinside, by rw [List.append_nil]⟩

theorem trans (h : draft.Gains later more) (h' : later.Gains last others) :
    draft.Gains last (more ++ others) := by
  refine ⟨Nat.le_trans h.length h'.length, h'.inside, h'.perm.trans ?_⟩
  rw [← List.append_assoc]
  exact h.perm.append_right others

theorem moveTo (h : draft.Gains later more) {block : BlockId}
    (hblock : block < later.blocks.length) : draft.Gains (later.moveTo block) more :=
  ⟨h.length, hblock, h.perm⟩

theorem openAll (hinside : draft.cursor < draft.blocks.length) (labels : List String) :
    draft.Gains (draft.openAll labels) [] := by
  refine ⟨by simp, ?_, ?_⟩
  · rw [cursor_openAll, length_openAll]
    exact Nat.lt_add_right _ hinside
  obtain ⟨blocks, taken, hopened, -, hempty⟩ := draft.openAll_eq labels
  have hblank : blocks.flatMap Block.instrs = [] := by
    rw [List.flatMap_eq_nil_iff]
    exact hempty
  simp [accesses, hopened, hblank]

theorem say {α : Type} (hinside : draft.cursor < draft.blocks.length) (code : Straight α)
    (last : α → Instr) : draft.Gains (draft.say code last)
      (Code.accesses (code.instrs draft.nextRegister) ++
        (last (code.value draft.nextRegister)).accesses) := by
  have hsaid := extend_push draft (code.instrs draft.nextRegister)
    (last (code.value draft.nextRegister))
  unfold Draft.say write
  rw [hsaid]
  refine ⟨by simp, by simpa using hinside, ?_⟩
  rw [← accesses_singleton, ← accesses_append]
  unfold accesses
  rw [← accesses_append]
  exact (perm_flatMap_modify hinside _).flatMap_right _

theorem push (hinside : draft.cursor < draft.blocks.length) (instr : Instr) :
    draft.Gains (draft.push instr) instr.accesses := by
  have hsaid := say hinside (pure () : Straight Unit) fun _ => instr
  unfold Draft.say at hsaid
  rw [write_pure] at hsaid
  exact hsaid

/-- The last instruction of a block names no global and no function. -/
theorem leave (h : draft.Gains later more) (instr : Instr) (hinstr : instr.accesses = []) :
    draft.Gains (later.push instr) more := by
  have hpushed := h.trans (push h.inside instr)
  rwa [hinstr, List.append_nil] at hpushed

end Gains

end Draft

namespace Straight

/-- Casts and operators only work on registers. -/
theorem accesses_intCast (value : Value) (type : Ty) (signed : Bool) (next : Nat) :
    accesses ((intCast value type signed).instrs next) = [] := by
  unfold intCast
  split
  · rfl
  · cases value <;> rfl

theorem accesses_unify (left right : Operand) (next : Nat) :
    accesses ((unify left right).instrs next) = [] := by
  simp [unify, accesses_intCast]

theorem accesses_combine (op : Tree.Operator) (left right : Operand) (next : Nat) :
    accesses ((combine op left right).instrs next) = [] := by
  simp [combine, accesses_unify, binary, Instr.accesses]

theorem accesses_negate (operand : Operand) (next : Nat) :
    accesses ((negate operand).instrs next) = [] := by
  unfold negate
  split
  · rfl
  · rfl

theorem accesses_compareOperands (op : Tree.Comparison) (left right : Operand) (next : Nat) :
    accesses ((compareOperands op left right).instrs next) = [] := by
  simp [compareOperands, accesses_unify, compare, Instr.accesses]

end Straight

end Code

namespace Core

open Code

def Expr.accesses : Expr → List Access
  | number _ => []
  | cell id _ => [.load id]
  | negate operand => operand.accesses
  | binary _ left right => left.accesses ++ right.accesses

def Cond.accesses (cond : Cond) : List Access := cond.left.accesses ++ cond.right.accesses

def Stmt.accesses : Stmt → List Access
  | skip => []
  | seq first second => first.accesses ++ second.accesses
  | assign target _ value => .store target :: value.accesses
  | call callee => [.call callee]
  | branch condition yes no => condition.accesses ++ yes.accesses ++ no.accesses
  | loop condition body => condition.accesses ++ body.accesses
  | ret => []

theorem Expr.accesses_code (expr : Expr) (next : Nat) :
    Code.accesses (expr.code.instrs next) = expr.accesses := by
  induction expr generalizing next with
  | number value => rfl
  | cell id type => rfl
  | negate operand ih => simp [code, Expr.accesses, ih, Straight.accesses_negate]
  | binary op left right ihleft ihright =>
    simp [code, Expr.accesses, ihleft, ihright, Straight.accesses_combine]

theorem Expr.accesses_codeAs (expr : Expr) (type : IntType) (next : Nat) :
    Code.accesses ((expr.codeAs type).instrs next) = expr.accesses := by
  simp [codeAs, accesses_code, Straight.accesses_intCast]

theorem Cond.accesses_code (cond : Cond) (next : Nat) :
    Code.accesses (cond.code.instrs next) = cond.accesses := by
  simp [code, Cond.accesses, Expr.accesses_code, Straight.accesses_compareOperands]

open Draft (Gains)

private theorem gains_fork {draft : Draft} (hinside : draft.cursor < draft.blocks.length)
    (condition : Cond) (yes no : BlockId) :
    draft.Gains (draft.say condition.code (.fork · yes no)) condition.accesses := by
  have hsaid := Gains.say hinside condition.code (.fork · yes no)
  rw [Cond.accesses_code, Instr.accesses, List.append_nil] at hsaid
  exact hsaid

theorem Cond.gains_forked {draft : Draft} (hinside : draft.cursor < draft.blocks.length)
    (condition : Cond) : draft.Gains (condition.forked draft) condition.accesses := by
  have hopened : draft.Gains (draft.openAll ["then", "else", "endif"]) [] := .openAll hinside _
  exact hopened.trans (gains_fork hopened.inside condition _ _)

theorem Cond.gains_tested {draft : Draft} (hinside : draft.cursor < draft.blocks.length)
    (condition : Cond) : draft.Gains (condition.tested draft) condition.accesses := by
  have hopened : draft.Gains (draft.openAll ["while.cond", "while.body", "while.end"]) [] :=
    .openAll hinside _
  have hlooped : draft.Gains (looped draft) [] :=
    (hopened.leave (.jump draft.blocks.length) rfl).moveTo (inside_looped draft)
  exact hlooped.trans (gains_fork (inside_looped draft) condition _ _)

/-- A part of a statement that gets a block of its own. -/
private theorem gains_aside {draft stage : Draft} {more : List Access} {part : Stmt} {id : Nat}
    (hstage : draft.Gains stage more) (hid : id < stage.blocks.length) (last : Nat)
    (hpart : (stage.moveTo id).Gains (part.build (stage.moveTo id)) part.accesses) :
    draft.Gains (part.aside stage id last) (more ++ part.accesses) :=
  (hstage.moveTo hid).trans (hpart.leave _ rfl)

/-- Writing a statement to a draft makes the accesses of the statement. -/
theorem Stmt.gains_build (stmt : Stmt) {draft : Draft}
    (hinside : draft.cursor < draft.blocks.length) :
    draft.Gains (stmt.build draft) stmt.accesses := by
  induction stmt generalizing draft with
  | skip => exact .refl hinside
  | seq first second ihfirst ihsecond =>
    have hfirst := ihfirst hinside
    exact hfirst.trans (ihsecond hfirst.inside)
  | assign target type value =>
    have hsaid := Gains.say hinside (value.codeAs type) (.store · target)
    rw [Expr.accesses_codeAs] at hsaid
    exact ⟨hsaid.length, hsaid.inside,
      hsaid.perm.trans (List.Perm.append_left _ List.perm_append_comm)⟩
  | call callee => exact .push hinside _
  | branch condition yes no ihyes ihno =>
    have hthen := lt_forked condition draft
    have hend := lt_chosen condition yes draft
    have helse := Nat.lt_of_succ_lt hend
    have hyes := gains_aside (condition.gains_forked hinside) hthen (draft.blocks.length + 2)
      (ihyes hthen)
    have hno := gains_aside hyes helse (draft.blocks.length + 2) (ihno helse)
    exact hno.moveTo (Nat.lt_of_lt_of_le hend (no.length_le_aside _ _ _))
  | loop condition body ih =>
    have hend := lt_tested condition draft
    have hbody := Nat.lt_of_succ_lt hend
    have hdone := gains_aside (condition.gains_tested hinside) hbody draft.blocks.length (ih hbody)
    exact hdone.moveTo (Nat.lt_of_lt_of_le hend (body.length_le_aside _ _ _))
  | ret =>
    have hopened : draft.Gains (draft.openAll ["after.return"]) [] := .openAll hinside _
    refine (hopened.trans (.push hopened.inside .ret)).moveTo ?_
    simp

theorem Stmt.accesses_draft (body : Stmt) : body.draft.accesses.Perm body.accesses := by
  have hentry : Draft.entry.cursor < Draft.entry.blocks.length := by decide
  have hbuilt := (body.gains_build hentry).leave .ret rfl
  exact hbuilt.perm

end Core

/-- A function that is the code of a statement makes the accesses of the statement. -/
theorem Code.Function.perm_accesses {function : Function} {body : Core.Stmt}
    (h : function.sketch = body.sketch) : function.accesses.Perm body.accesses := by
  have hblocks : function.blocks = body.draft.blocks := congrArg Prod.fst h
  unfold Function.accesses
  rw [hblocks]
  exact body.accesses_draft

end BlockLang
