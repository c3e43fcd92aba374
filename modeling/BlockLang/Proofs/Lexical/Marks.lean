import BlockLang.Proofs.Core.Access
import BlockLang.Proofs.Core.Agreement
import BlockLang.Proofs.Tree.Grammar

/-! What scoping sees of a program: where scopes begin and end, what is declared and what is
used, in the order of the source. Resolving a tree is going through its marks one by one. -/

namespace BlockLang

open Code BlockLang.Core

namespace Lexical

inductive Mark where
  /-- A block begins. -/
  | block
  /-- A procedure is declared, and begins. -/
  | procedure (name : String)
  /-- The innermost block or procedure ends. -/
  | leave
  | constant (name : String) (value : Tree.ConstValue)
  | cell (name : String) (type : IntType)
  | operand (name : String)
  | target (name : String)
  | callee (name : String)
  deriving Repr, DecidableEq

end Lexical

open Lexical

namespace Tree

def Expr.marks : Expr → List Mark
  | number _ => []
  | name ident => [.operand ident.name]
  | negate operand => operand.marks
  | binary _ left right => left.marks ++ right.marks
  | missing _ => []
  | unclosed inner _ => inner.marks

def Cond.marks : Cond → List Mark
  | compare _ left right => left.marks ++ right.marks
  | half left _ => left.marks
  | unfollowed _ left right _ => left.marks ++ right.marks

def Declaration.marks : Declaration → List Mark
  | const name value => [.constant name.name value]
  | vars names type => names.map fun name => .cell name.name type
  | stop _ => []
  | unendedCopy _ _ => []

def Stmt.marks : Stmt → List Mark
  | skip => []
  | seq first second => first.marks ++ second.marks
  | assign target value => .target target.name :: value.marks
  | call callee => [.callee callee.name]
  | branch condition yes no => condition.marks ++ yes.marks ++ no.marks
  | loop condition body => condition.marks ++ body.marks
  | ret => []
  | block locals body => .block :: (locals.flatMap Declaration.marks ++ body.marks ++ [.leave])
  | stop _ => []

def Decls.marks : Decls → List Mark
  | nil => []
  | plain declaration rest => declaration.marks ++ rest.marks
  | nested heading locals body rest =>
    .procedure (heading.name?.getD "") :: (locals.marks ++ body.marks ++ .leave :: rest.marks)
  | stop _ => []

end Tree

namespace Lexical

/-- What is known once some marks have been passed. -/
structure State where
  env : Env := [[]]
  cells : List IntType := []
  /-- The procedure that each scope in sight belongs to, the innermost first. -/
  owners : List (Option Nat) := [none]
  /-- What each procedure has accessed so far. -/
  code : List (List Access) := []

namespace State

/-- The innermost procedure accesses something. -/
def touch (state : State) (accesses : List Access) : State :=
  { state with
    code := (state.owners.headD none).elim state.code fun id =>
      state.code.modify id (· ++ accesses) }

def step (state : State) : Mark → Option State
  | .block =>
    some { state with
      env := [] :: state.env
      owners := state.owners.headD none :: state.owners }
  | .procedure name => do
    let declared ← state.env.declare? name (.procedure state.code.length)
    return { state with
      env := [] :: declared
      owners := some state.code.length :: state.owners
      code := state.code ++ [[]] }
  | .leave => some { state with env := state.env.tail, owners := state.owners.tail }
  | .constant name value => do
    let text ← value.resolve state.env
    let declared ← state.env.declare? name (.literal text)
    return { state with env := declared }
  | .cell name type => do
    let declared ← state.env.declare? name (.cell state.cells.length type)
    return { state with env := declared, cells := state.cells ++ [type] }
  | .operand name => do
    let value ← state.env.value? name
    return state.touch value.accesses
  | .target name => do
    let (id, _) ← state.env.cell? name
    return state.touch [.store id]
  | .callee name => do
    let id ← state.env.procedure? name
    return state.touch [.call id]

def run (state : State) (marks : List Mark) : Option State := marks.foldlM step state

variable {state : State}

@[simp] theorem run_nil (state : State) : state.run [] = some state := rfl

@[simp] theorem run_cons (state : State) (mark : Mark) (marks : List Mark) :
    state.run (mark :: marks) = (state.step mark).bind fun next => next.run marks := rfl

@[simp] theorem run_append (state : State) (first second : List Mark) :
    state.run (first ++ second) = (state.run first).bind fun next => next.run second :=
  List.foldlM_append

@[simp] theorem env_touch (state : State) (accesses : List Access) :
    (state.touch accesses).env = state.env := rfl

@[simp] theorem cells_touch (state : State) (accesses : List Access) :
    (state.touch accesses).cells = state.cells := rfl

@[simp] theorem touch_nil (state : State) : state.touch [] = state := by
  have hsame : (fun accesses : List Access => accesses ++ []) = id := by
    funext accesses
    exact List.append_nil accesses
  unfold touch
  cases state.owners.headD none with
  | none => rfl
  | some id => simp only [Option.elim, hsame, List.modify_id]

@[simp] theorem touch_touch (state : State) (first second : List Access) :
    (state.touch first).touch second = state.touch (first ++ second) := by
  have hsame : (fun accesses : List Access => accesses ++ second) ∘
      (fun accesses => accesses ++ first) = fun accesses => accesses ++ (first ++ second) := by
    funext accesses
    exact List.append_assoc accesses first second
  unfold touch
  dsimp only
  cases state.owners.headD none with
  | none => rfl
  | some id => simp only [Option.elim, List.modify_modify_eq, hsame]

end State

end Lexical

open State

namespace Tree

variable {state : State}

theorem Expr.run_marks {expr : Expr} (h : expr.Whole) (state : State) :
    state.run expr.marks = (expr.resolve state.env).map fun found => state.touch found.accesses := by
  induction expr generalizing state with
  | number value => simp [marks, resolve, Core.Expr.accesses]
  | name ident =>
    rw [marks, resolve, run_cons, State.step]
    cases state.env.value? ident.name <;> rfl
  | negate operand ih =>
    rw [marks, resolve, ih h]
    cases operand.resolve state.env <;> rfl
  | binary op left right ihleft ihright =>
    rw [marks, resolve, run_append, ihleft h.1]
    cases left.resolve state.env with
    | none => rfl
    | some first =>
      rw [Option.map_some, Option.bind_some, ihright h.2, env_touch]
      cases right.resolve state.env with
      | none => rfl
      | some second =>
        rw [Option.map_some, touch_touch]
        rfl
  | missing mistake => exact h.elim
  | unclosed inner mistake => exact h.elim

theorem Cond.run_marks {cond : Cond} (h : cond.Whole) (state : State) :
    state.run cond.marks = (cond.resolve state.env).map fun found => state.touch found.accesses := by
  cases cond with
  | compare op left right =>
    rw [marks, resolve, run_append, Expr.run_marks h.1]
    cases left.resolve state.env with
    | none => rfl
    | some first =>
      rw [Option.map_some, Option.bind_some, Expr.run_marks h.2, env_touch]
      cases right.resolve state.env with
      | none => rfl
      | some second =>
        rw [Option.map_some, touch_touch]
        rfl
  | half left mistake => exact h.elim
  | unfollowed op left right mistake => exact h.elim

theorem run_names (type : IntType) (names : List Ident) (state : State) :
    state.run (names.map fun name => .cell name.name type) =
      (resolveNames type names state.env state.cells).map fun found =>
        { state with env := found.1, cells := found.2 } := by
  induction names generalizing state with
  | nil => rfl
  | cons name rest ih =>
    rw [List.map_cons, run_cons, State.step, resolveNames]
    cases state.env.declare? name.name (.cell state.cells.length type) with
    | none => rfl
    | some declared => exact ih _

theorem Declaration.run_marks {declaration : Declaration} (h : declaration.Whole) (state : State) :
    state.run declaration.marks = (declaration.resolve state.env state.cells).map fun found =>
      { state with env := found.1, cells := found.2 } := by
  cases declaration with
  | const name value =>
    rw [marks, resolve, run_cons, State.step]
    cases value.resolve state.env with
    | none => rfl
    | some text => cases hdeclared : state.env.declare? name.name (.literal text) <;> simp [hdeclared]
  | vars names type => exact run_names type names state
  | stop mistake => exact h.elim
  | unendedCopy source mistake => exact h.elim

theorem run_locals {locals : List Declaration} (h : ∀ declaration ∈ locals, declaration.Whole)
    (state : State) : state.run (locals.flatMap Declaration.marks) =
      (resolveLocals locals state.env state.cells).map fun found =>
        { state with env := found.1, cells := found.2 } := by
  induction locals generalizing state with
  | nil => rfl
  | cons declaration rest ih =>
    rw [List.flatMap_cons, run_append, Declaration.run_marks (h declaration List.mem_cons_self),
      resolveLocals]
    cases declaration.resolve state.env state.cells with
    | none => rfl
    | some found => exact ih (fun other hother => h other (List.mem_cons_of_mem _ hother)) _

theorem Stmt.run_marks {stmt : Stmt} (h : stmt.Whole) (hdeclarable : stmt.Declarable)
    (state : State) : state.run stmt.marks = (stmt.resolve state.env state.cells).map fun found =>
      State.touch { state with cells := found.2 } found.1.accesses := by
  induction stmt generalizing state with
  | skip => simp [marks, resolve, Core.Stmt.accesses]
  | seq first second ihfirst ihsecond =>
    rw [marks, resolve, run_append, ihfirst h.1 hdeclarable.1]
    cases first.resolve state.env state.cells with
    | none => rfl
    | some before =>
      rw [Option.map_some, Option.bind_some, ihsecond h.2 hdeclarable.2]
      simp only [env_touch, cells_touch, Option.bind_eq_bind, Option.bind_some]
      cases second.resolve state.env before.2 with
      | none => rfl
      | some after => exact congrArg some (touch_touch { state with cells := after.2 } _ _)
  | assign target value =>
    rw [marks, resolve, run_cons, State.step]
    cases state.env.cell? target.name with
    | none => rfl
    | some cell =>
      simp only [Option.bind_eq_bind, Option.bind_some, Option.pure_def]
      rw [Expr.run_marks h, env_touch]
      cases value.resolve state.env with
      | none => rfl
      | some source => exact congrArg some (touch_touch state _ _)
  | call callee =>
    rw [marks, resolve, run_cons, State.step]
    cases state.env.procedure? callee.name <;> rfl
  | branch condition yes no ihyes ihno =>
    rw [marks, resolve, run_append, run_append, Cond.run_marks h.1]
    cases condition.resolve state.env with
    | none => rfl
    | some test =>
      rw [Option.map_some, Option.bind_some, ihyes h.2.1 hdeclarable.1]
      simp only [env_touch, cells_touch, Option.bind_eq_bind, Option.bind_some]
      cases yes.resolve state.env state.cells with
      | none => rfl
      | some first =>
        rw [Option.map_some, Option.bind_some, ihno h.2.2 hdeclarable.2]
        simp only [env_touch, cells_touch, Option.bind_some]
        cases no.resolve state.env first.2 with
        | none => rfl
        | some second =>
          refine congrArg some ?_
          exact (congrArg (State.touch · _) (touch_touch { state with cells := second.2 } _ _)).trans
            (touch_touch _ _ _)
  | loop condition body ih =>
    rw [marks, resolve, run_append, Cond.run_marks h.1]
    cases condition.resolve state.env with
    | none => rfl
    | some test =>
      rw [Option.map_some, Option.bind_some, ih h.2 hdeclarable]
      simp only [env_touch, cells_touch, Option.bind_eq_bind, Option.bind_some]
      cases body.resolve state.env state.cells with
      | none => rfl
      | some inside => exact congrArg some (touch_touch { state with cells := inside.2 } _ _)
  | ret => simp [marks, resolve, Core.Stmt.accesses]
  | block locals body ih =>
    let inner : State := { state with
      env := [] :: state.env
      owners := state.owners.headD none :: state.owners }
    have hinner : state.step .block = some inner := rfl
    rw [marks, resolve, run_cons, hinner, Option.bind_some, run_append, run_append,
      run_locals h.1]
    cases hlocals : resolveLocals locals inner.env inner.cells with
    | none => rfl
    | some found =>
      have htail : found.1.tail = state.env := (extends_resolveLocals hdeclarable.1 hlocals).tail
      rw [Option.map_some, Option.bind_some, ih h.2 hdeclarable.2]
      simp only [Option.bind_eq_bind, Option.bind_some]
      cases body.resolve found.1 found.2 with
      | none => rfl
      | some code =>
        rw [Option.map_some, Option.bind_some, run_cons, State.step, env_touch, htail]
        rfl
  | stop mistake => exact h.elim

/-- What runs inside a procedure, up to its end. -/
private theorem run_inside {locals : Decls} {body : Stmt} (hlocals : locals.Declarable)
    (hbody : body.Whole) (hdeclarable : body.Declarable)
    (hrun : ∀ state : State, state.run locals.marks =
      (locals.resolve state.env state.cells state.code.length).map fun found =>
        { state with
          env := found.1
          cells := found.2.1
          code := state.code ++ found.2.2.map Core.Stmt.accesses })
    (state : State) (declared : Env) :
    State.run ⟨[] :: declared, state.cells, some state.code.length :: state.owners,
        state.code ++ [[]]⟩ (locals.marks ++ body.marks ++ [.leave]) =
      (resolveInside locals body ([] :: declared) state.cells (state.code.length + 1)).map
        fun found =>
          { state with
            env := declared
            cells := found.2.1
            code := state.code ++ (found.1 :: found.2.2).map Core.Stmt.accesses } := by
  have hlength : (state.code ++ [[]]).length = state.code.length + 1 := by simp
  rw [run_append, run_append, hrun, hlength, resolveInside]
  cases hfound : locals.resolve ([] :: declared) state.cells (state.code.length + 1) with
  | none => rfl
  | some found =>
    have htail : found.1.tail = declared := (Decls.extends_resolve hlocals hfound).2.1
    rw [Option.map_some, Option.bind_some, Stmt.run_marks hbody hdeclarable, Option.bind_eq_bind,
      Option.bind_some]
    dsimp only
    cases body.resolve found.1 found.2.1 with
    | none => rfl
    | some code =>
      -- The accesses of the body belong to the procedure, whose place is before its locals.
      have hcode : (state.code ++ [[]] ++ found.2.2.map Core.Stmt.accesses).modify
          state.code.length (· ++ code.1.accesses) =
          state.code ++ code.1.accesses :: found.2.2.map Core.Stmt.accesses := by
        rw [List.append_assoc, List.singleton_append, modify_middle, List.nil_append]
      change some (State.mk found.1.tail code.2 state.owners _) = some (State.mk declared code.2 _ _)
      rw [htail]
      exact congrArg (fun all => some (State.mk declared code.2 state.owners all)) hcode

theorem Decls.run_marks {decls : Decls} (h : decls.Whole) (hdeclarable : decls.Declarable)
    (state : State) : state.run decls.marks =
      (decls.resolve state.env state.cells state.code.length).map fun found =>
        { state with
          env := found.1
          cells := found.2.1
          code := state.code ++ found.2.2.map Core.Stmt.accesses } := by
  induction decls generalizing state with
  | nil => simp [marks, resolve]
  | plain declaration rest ih =>
    rw [marks, resolve, run_append, Declaration.run_marks h.1]
    cases declaration.resolve state.env state.cells with
    | none => rfl
    | some found =>
      rw [Option.map_some, Option.bind_some, ih h.2 hdeclarable.2]
      rfl
  | nested heading locals body rest ihlocals ihrest =>
    obtain ⟨hheading, hlocals, hbody, hrest⟩ := h
    obtain ⟨hlocals', hbody', hrest'⟩ := hdeclarable
    cases heading with
    | named ident =>
      have hmarks : (nested (.named ident) locals body rest).marks =
          .procedure ident.name :: (locals.marks ++ body.marks ++ [.leave] ++ rest.marks) := by
        simp [marks, Heading.name?]
      rw [hmarks, Decls.resolve_nested, run_cons, State.step]
      cases state.env.declare? ident.name (.procedure state.code.length) with
      | none => rfl
      | some declared =>
        rw [Option.bind_eq_bind, Option.bind_some, Option.pure_def, Option.bind_some, run_append,
          run_inside hlocals' hbody hbody' (ihlocals hlocals hlocals'), Option.bind_eq_bind,
          Option.bind_some]
        cases resolveInside locals body ([] :: declared) state.cells (state.code.length + 1) with
        | none => rfl
        | some found =>
          rw [Option.map_some, Option.bind_some, ihrest hrest hrest', Option.bind_eq_bind,
            Option.bind_some, List.length_append, List.length_map]
          cases rest.resolve declared found.2.1 (state.code.length + (found.1 :: found.2.2).length) with
          | none => rfl
          | some last => simp
    | unnamed mistake => exact hheading.elim
    | unended name mistake => exact hheading.elim
  | stop mistake => exact h.elim

end Tree

end BlockLang
