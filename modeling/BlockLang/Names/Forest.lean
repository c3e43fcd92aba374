import BlockLang.Names.Symbol

/-! Nested scopes. A scope knows the scopes around it, so a name is looked up along
that chain; scopes and symbols are never removed. -/

namespace BlockLang.Names

abbrev SymbolId := Nat
abbrev ScopeId := Nat

structure Scope where
  /-- The scope itself and those around it, innermost first. -/
  chain : List ScopeId
  entries : List (String × SymbolId) := []
  deriving Repr, DecidableEq, Inhabited

structure Forest where
  scopes : List Scope := []
  symbols : List Symbol := []
  deriving Repr, DecidableEq, Inhabited

namespace Forest

def chain (forest : Forest) (scope : ScopeId) : List ScopeId :=
  (forest.scopes[scope]?.map Scope.chain).getD []

def openScope (forest : Forest) (parent? : Option ScopeId) : ScopeId × Forest :=
  let id := forest.scopes.length
  (id, { forest with
    scopes := forest.scopes ++ [{ chain := id :: (parent?.map forest.chain).getD [] }] })

/-- The number of scopes around `scope`. -/
def depth (forest : Forest) (scope : ScopeId) : Nat :=
  (forest.chain scope).length - 1

def parent? (forest : Forest) (scope : ScopeId) : Option ScopeId :=
  (forest.chain scope)[1]?

/-- What `scope` itself declares `name` to be. -/
def declared? (forest : Forest) (scope : ScopeId) (name : String) : Option SymbolId :=
  forest.scopes[scope]?.bind fun found => found.entries.lookup name

/-- What `name` stands for as seen from `scope`: the nearest declaration. -/
def find? (forest : Forest) (scope : ScopeId) (name : String) : Option SymbolId :=
  (forest.chain scope).findSome? fun id => forest.declared? id name

/-- Declares `name` in `scope`, unless `scope` has it already. -/
def add? (forest : Forest) (scope : ScopeId) (name : String) : Option (SymbolId × Forest) :=
  if (forest.declared? scope name).isSome then none
  else
    let id := forest.symbols.length
    some (id, {
      scopes := forest.scopes.modify scope fun found =>
        { found with entries := found.entries ++ [(name, id)] }
      symbols := forest.symbols ++ [{ name }] })

def symbol (forest : Forest) (id : SymbolId) : Except Fault Symbol :=
  fetch forest.symbols id

/-- Replaces a symbol by what `change` makes of it. -/
def update (forest : Forest) (id : SymbolId) (change : Symbol → Except Fault Symbol) :
    Except Fault Forest := do
  let symbol ← change (← forest.symbol id)
  return { forest with symbols := forest.symbols.set id symbol }

def add (forest : Forest) (scope : ScopeId) (name : String) (location : Location) :
    Except Error (SymbolId × Forest) :=
  match forest.add? scope name with
  | some added => .ok added
  | none => .error (.duplicate location name)

def find (forest : Forest) (scope : ScopeId) (name : String) (location : Location) :
    Except Error SymbolId :=
  match forest.find? scope name with
  | some id => .ok id
  | none => .error (.unresolved location name)

end Forest

end BlockLang.Names
