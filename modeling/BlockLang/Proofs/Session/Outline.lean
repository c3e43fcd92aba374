import BlockLang.Proofs.Core.Program
import BlockLang.Proofs.Session.Runs

/-! What carrying out a tree declares. The outline of a session has its scopes, its open
procedures and the names in its code, but not what the code does; it changes as the
declarations of the tree say, whatever else the tree holds. -/

namespace BlockLang

open Code Names BlockLang.Tree

namespace Code

/-- Globals, and functions without what they do. -/
structure Heads where
  globals : List Global
  /-- The names of the functions, and whether they are internal. -/
  functions : List (String × Bool)
  /-- The names that must not be given again. -/
  taken : NameSet
  deriving Repr, DecidableEq

namespace Heads

def names (heads : Heads) : List String :=
  heads.globals.map Global.name ++ heads.functions.map Prod.fst

def addGlobal (heads : Heads) (base : String) (type : Ty) : Heads :=
  let name := fresh heads.taken base
  { heads with globals := heads.globals ++ [⟨name, type⟩], taken := heads.taken.insert name }

def addFunction (heads : Heads) (base : String) (internal : Bool) : Heads :=
  let name := fresh heads.taken base
  { heads with
    functions := heads.functions ++ [(name, internal)]
    taken := heads.taken.insert name }

end Heads

def Module.heads (code : Module) : Heads where
  globals := code.globals
  functions := code.functions.map fun function => (function.name, function.internal)
  taken := code.taken

namespace Module

variable {code next : Module}

theorem names_heads (code : Module) : code.heads.names = code.names := by
  simp [heads, Heads.names, names, Function.comp_def]

theorem heads_addGlobal (code : Module) (base : String) (type : Ty) :
    (code.addGlobal base type).2.heads = code.heads.addGlobal base type := by
  simp [heads, addGlobal, Heads.addGlobal]

theorem heads_addFunction (code : Module) (base : String) (internal : Bool) :
    (code.addFunction base internal).2.heads = code.heads.addFunction base internal := by
  simp [heads, addFunction, Heads.addFunction, Function.bare]

theorem heads_modifyFunction {change : Function → Function} (id : FunctionId)
    (hname : ∀ function, (change function).name = function.name)
    (hinternal : ∀ function, (change function).internal = function.internal) :
    (code.modifyFunction id change).heads = code.heads := by
  unfold heads modifyFunction
  rw [map_modify_of_eq fun function => Prod.ext (hname function) (hinternal function)]

end Module

end Code

/-- The forest with nothing told of what its symbols stand for. -/
def Names.Forest.untold (forest : Forest) : Forest :=
  { forest with symbols := forest.symbols.map fun symbol => { name := symbol.name } }

theorem Names.Forest.untold_added (forest : Forest) (scope : ScopeId) (name : String) :
    (forest.added scope name).untold = forest.untold.added scope name := by
  simp [untold, added]

theorem Names.Forest.untold_withSymbol {forest : Forest} {id : SymbolId} {found changed : Symbol}
    (h : forest.symbols[id]? = some found) (hname : changed.name = found.name) :
    (forest.withSymbol id changed).untold = forest.untold := by
  unfold untold withSymbol
  congr 1
  apply List.ext_getElem?
  intro other
  rw [List.getElem?_map, List.getElem?_map, List.getElem?_set]
  obtain ⟨hlt, hfound⟩ := List.getElem?_eq_some_iff.1 h
  by_cases hother : id = other
  · simp [← hother, hlt, hname, hfound]
  · simp [hother]

theorem Names.Forest.symbol_eq_ok {forest : Forest} {id : SymbolId} {found : Symbol} :
    forest.symbol id = .ok found ↔ forest.symbols[id]? = some found := by
  unfold Forest.symbol fetch
  cases forest.symbols[id]? <;> simp

structure Outline where
  forest : Forest
  scope : ScopeId
  procedures : List SymbolId
  heads : Heads
  deriving Repr, DecidableEq

def Session.outline (session : Session) : Outline where
  forest := session.forest.untold
  scope := session.scope
  procedures := session.procedures
  heads := session.builder.code.heads

namespace Outline

/-- The names of the open procedures, outermost first. -/
def outer (outline : Outline) : List String :=
  (outline.procedures.map fun id =>
    (outline.forest.symbols[id]?.map Symbol.name).getD "").reverse

def path (outline : Outline) (name : String) : String :=
  ".".intercalate (outline.outer ++ [name])

def added (outline : Outline) (name : String) : Outline :=
  { outline with forest := outline.forest.added outline.scope name }

/-- Declares a name in the current scope, unless it is declared there. -/
def add? (outline : Outline) (name : String) : Option Outline :=
  if (outline.forest.declared? outline.scope name).isSome then none else some (outline.added name)

def cell? (outline : Outline) (name : String) (type : IntType) : Option Outline := do
  let next ← outline.add? name
  return { next with heads := next.heads.addGlobal (next.path name) (.int type.width) }

def entered (outline : Outline) : Outline :=
  { outline with
    forest := (outline.forest.openScope (some outline.scope)).2
    scope := outline.forest.scopes.length }

def left? (outline : Outline) : Option Outline := do
  return { outline with scope := ← outline.forest.parent? outline.scope }

/-- Inside the procedure `id`, which is called `name`. -/
def begun (outline : Outline) (id : SymbolId) (name : String) : Outline :=
  { outline with
    procedures := id :: outline.procedures
    heads := outline.heads.addFunction (outline.path name) !outline.procedures.isEmpty }

def begin? (outline : Outline) (name : String) : Option Outline := do
  return (← outline.add? name).begun outline.forest.symbols.length name

/-- The innermost procedure is closed, unless it is the outermost one. -/
def ended (outline : Outline) : Outline :=
  match outline.procedures with
  | _ :: outer :: rest => { outline with procedures := outer :: rest }
  | _ => outline

end Outline

namespace Tree

def Declaration.lay (outline : Outline) : Declaration → Option Outline
  | const name _ => outline.add? name.name
  | vars names type => names.foldlM (fun before name => before.cell? name.name type) outline
  | stop _ | unendedCopy _ _ => none

/-- What the declarations of a statement make of an outline. -/
def Stmt.lay (outline : Outline) : Stmt → Option Outline
  | skip | assign _ _ | call _ | ret => some outline
  | seq first second => do second.lay (← first.lay outline)
  | branch _ yes no => do no.lay (← yes.lay outline)
  | loop _ body => body.lay outline
  | block locals body => do
    let declared ← locals.foldlM Declaration.lay outline.entered
    (← body.lay declared).left?
  | stop _ => none

def Decls.lay (outline : Outline) : Decls → Option Outline
  | nil => some outline
  | plain declaration rest => do rest.lay (← declaration.lay outline)
  | nested heading locals body rest => do
    let begun ← outline.begin? (← heading.name?)
    let declared ← locals.lay begun.entered
    let worked ← body.lay declared
    rest.lay (← worked.left?).ended
  | stop _ => none

end Tree

end BlockLang
