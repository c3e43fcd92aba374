import BlockLang.Proofs.Lexical.Tracking
import BlockLang.Proofs.Tree.Whole

/-! The marks of a program once more, with the names as they stand in the source. A tree that
breaks off has spots as well, up to where it does. -/

namespace BlockLang

open Code BlockLang.Core Names

namespace Lexical

inductive Spot where
  | block
  | procedure (name : Tree.Ident)
  | leave
  | constant (name : Tree.Ident) (value : Tree.ConstValue)
  /-- The constant that a declaration copies which is not ended. -/
  | copied (source : Tree.Ident)
  | cell (name : Tree.Ident) (type : IntType)
  | operand (name : Tree.Ident)
  | target (name : Tree.Ident)
  | callee (name : Tree.Ident)
  deriving Repr, DecidableEq

/-- A name that is used, and what it may stand for there. -/
structure Use where
  name : Tree.Ident
  kinds : List Kind
  /-- How messages speak of these kinds. -/
  wanted : String
  deriving Repr, DecidableEq

/-- A name that has to stand for one kind of thing. -/
def Use.of (kind : Kind) (name : Tree.Ident) : Use := ⟨name, [kind], kind.describe⟩

namespace Spot

def mark : Spot → Mark
  | block => .block
  | procedure name => .procedure name.name
  | leave => .leave
  | constant name value => .constant name.name value
  | copied source => .operand source.name
  | cell name type => .cell name.name type
  | operand name => .operand name.name
  | target name => .target name.name
  | callee name => .callee name.name

/-- The name that is declared. -/
def declared? : Spot → Option Tree.Ident
  | procedure name | constant name _ | cell name _ => some name
  | block | leave | copied _ | operand _ | target _ | callee _ => none

/-- The name that is used. A constant that copies another one uses its name. -/
def use? : Spot → Option Use
  | constant _ (.copy source) | copied source => some (.of .literal source)
  | operand name => some ⟨name, [.literal, .cell], "value"⟩
  | target name => some (.of .cell name)
  | callee name => some (.of .procedure name)
  | block | leave | procedure _ | constant _ (.text _) | cell _ _ => none

theorem declared?_mark {spot : Spot} {name : Tree.Ident} (h : spot.declared? = some name) :
    spot.mark.declared? = some name.name := by
  cases spot <;> cases h <;> rfl

end Spot

end Lexical

open Lexical

namespace Tree

def Expr.spots : Expr → List Spot
  | number _ => []
  | name ident => [.operand ident]
  | negate operand => operand.spots
  | binary _ left right => left.spots ++ right.spots
  | missing _ => []
  | unclosed inner _ => inner.spots

def Cond.spots : Cond → List Spot
  | compare _ left right => left.spots ++ right.spots
  | half left _ => left.spots
  | unfollowed _ left right _ => left.spots ++ right.spots

def Declaration.spots : Declaration → List Spot
  | const name value => [.constant name value]
  | vars names type => names.map fun name => .cell name type
  | stop _ => []
  | unendedCopy source _ => [.copied source]

def Stmt.spots : Stmt → List Spot
  | skip => []
  | seq first second => first.spots ++ second.spots
  | assign target value => .target target :: value.spots
  | call callee => [.callee callee]
  | branch condition yes no => condition.spots ++ yes.spots ++ no.spots
  | loop condition body => condition.spots ++ body.spots
  | ret => []
  | block locals body => .block :: (locals.flatMap Declaration.spots ++ body.spots ++ [.leave])
  | stop _ => []

/-- The name is declared even where nothing ends the heading. -/
def Heading.spots : Heading → List Spot
  | named name | unended name _ => [.procedure name]
  | unnamed _ => []

def Decls.spots : Decls → List Spot
  | nil => []
  | plain declaration rest => declaration.spots ++ rest.spots
  | nested heading locals body rest =>
    heading.spots ++ (locals.spots ++ body.spots ++ [.leave]) ++ rest.spots
  | stop _ => []

theorem Expr.map_spots (expr : Expr) : expr.spots.map Spot.mark = expr.marks := by
  induction expr with
  | number value => rfl
  | name ident => rfl
  | negate operand ih => exact ih
  | binary op left right ihleft ihright => rw [spots, List.map_append, ihleft, ihright, marks]
  | missing mistake => rfl
  | unclosed inner mistake ih => exact ih

theorem Cond.map_spots (cond : Cond) : cond.spots.map Spot.mark = cond.marks := by
  cases cond with
  | compare op left right => rw [spots, List.map_append, left.map_spots, right.map_spots, marks]
  | half left mistake => exact left.map_spots
  | unfollowed op left right mistake =>
    rw [spots, List.map_append, left.map_spots, right.map_spots, marks]

theorem Declaration.map_spots {declaration : Declaration} (h : declaration.Whole) :
    declaration.spots.map Spot.mark = declaration.marks := by
  cases declaration with
  | const name value => rfl
  | vars names type => exact List.map_map
  | stop mistake => exact h.elim
  | unendedCopy source mistake => exact h.elim

theorem map_spots_locals {locals : List Declaration} (h : ∀ declaration ∈ locals, declaration.Whole) :
    (locals.flatMap Declaration.spots).map Spot.mark = locals.flatMap Declaration.marks := by
  induction locals with
  | nil => rfl
  | cons declaration rest ih =>
    rw [List.flatMap_cons, List.map_append, List.flatMap_cons,
      Declaration.map_spots (h declaration List.mem_cons_self),
      ih fun other hother => h other (List.mem_cons_of_mem _ hother)]

theorem Stmt.map_spots {stmt : Stmt} (h : stmt.Whole) : stmt.spots.map Spot.mark = stmt.marks := by
  induction stmt with
  | skip => rfl
  | seq first second ihfirst ihsecond =>
    rw [spots, List.map_append, ihfirst h.1, ihsecond h.2, marks]
  | assign target value =>
    rw [spots, List.map_cons, value.map_spots, marks]
    rfl
  | call callee => rfl
  | branch condition yes no ihyes ihno =>
    rw [spots, List.map_append, List.map_append, condition.map_spots, ihyes h.2.1, ihno h.2.2, marks]
  | loop condition body ih => rw [spots, List.map_append, condition.map_spots, ih h.2, marks]
  | ret => rfl
  | block locals body ih =>
    rw [spots, List.map_cons, List.map_append, List.map_append, map_spots_locals h.1, ih h.2, marks]
    rfl
  | stop mistake => exact h.elim

theorem Decls.map_spots {decls : Decls} (h : decls.Whole) :
    decls.spots.map Spot.mark = decls.marks := by
  induction decls with
  | nil => rfl
  | plain declaration rest ih =>
    rw [spots, List.map_append, Declaration.map_spots h.1, ih h.2, marks]
  | nested heading locals body rest ihlocals ihrest =>
    obtain ⟨hheading, hlocals, hbody, hrest⟩ := h
    cases heading with
    | named name =>
      simp [spots, marks, Heading.spots, Heading.name?, Spot.mark, ihlocals hlocals,
        Stmt.map_spots hbody, ihrest hrest]
    | unnamed mistake => exact hheading.elim
    | unended name mistake => exact hheading.elim
  | stop mistake => exact h.elim

end Tree

theorem Lexical.State.length_touch (state : State) (accesses : List Access) :
    (state.touch accesses).code.length = state.code.length := by
  unfold State.touch
  cases state.owners.headD none with
  | none => rfl
  | some id => exact List.length_modify _ _ _

namespace Tree

variable {state : State}

theorem Expr.run_spots {expr : Expr} {found : Core.Expr} (h : expr.resolve state.env = some found) :
    state.run (expr.spots.map Spot.mark) = some (state.touch found.accesses) := by
  rw [expr.map_spots, Expr.run_marks (Expr.whole_of_resolve h), h]
  rfl

theorem Cond.run_spots {cond : Cond} {found : Core.Cond} (h : cond.resolve state.env = some found) :
    state.run (cond.spots.map Spot.mark) = some (state.touch found.accesses) := by
  rw [cond.map_spots, Cond.run_marks (Cond.whole_of_resolve h), h]
  rfl

theorem Declaration.run_spots {declaration : Declaration} {found : Env × List IntType}
    (h : declaration.resolve state.env state.cells = some found) :
    state.run (declaration.spots.map Spot.mark) =
      some { state with env := found.1, cells := found.2 } := by
  have hwhole := Declaration.whole_of_resolve h
  rw [Declaration.map_spots hwhole, Declaration.run_marks hwhole, h]
  rfl

theorem run_spots_locals {locals : List Declaration} {found : Env × List IntType}
    (h : resolveLocals locals state.env state.cells = some found) :
    state.run ((locals.flatMap Declaration.spots).map Spot.mark) =
      some { state with env := found.1, cells := found.2 } := by
  have hwhole := whole_of_resolveLocals h
  rw [map_spots_locals hwhole, run_locals hwhole, h]
  rfl

theorem Stmt.run_spots {stmt : Stmt} (hdeclarable : stmt.Declarable)
    {found : Core.Stmt × List IntType} (h : stmt.resolve state.env state.cells = some found) :
    state.run (stmt.spots.map Spot.mark) =
      some (State.touch { state with cells := found.2 } found.1.accesses) := by
  have hwhole := Stmt.whole_of_resolve h
  rw [Stmt.map_spots hwhole, Stmt.run_marks hwhole hdeclarable, h]
  rfl

theorem Decls.run_spots {decls : Decls} (hdeclarable : decls.Declarable)
    {found : Env × List IntType × List Core.Stmt}
    (h : decls.resolve state.env state.cells state.code.length = some found) :
    state.run (decls.spots.map Spot.mark) = some { state with
      env := found.1
      cells := found.2.1
      code := state.code ++ found.2.2.map Core.Stmt.accesses } := by
  have hwhole := Decls.whole_of_resolve h
  rw [Decls.map_spots hwhole, Decls.run_marks hwhole hdeclarable, h]
  rfl

end Tree

end BlockLang
