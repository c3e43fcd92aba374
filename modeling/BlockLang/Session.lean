import BlockLang.Code.Builder
import BlockLang.Log
import BlockLang.Names.Forest

/-! The state of a compilation: where reading stands, the scopes, the procedures
that are open and the code emitted so far. A session can take in one source after
another, and keeps what was done before a failure. -/

namespace BlockLang

open Code Names

structure Session where
  location : Location
  forest : Forest
  scope : ScopeId
  /-- The open procedures, innermost first. The outermost one stays. -/
  procedures : List SymbolId := []
  builder : Builder
  /-- The newest entry first. -/
  log : List Log.Entry := []
  deriving Repr, DecidableEq

def Session.start (file : String) : Session :=
  let (scope, forest) := Forest.openScope {} none
  { location := .top file, forest, scope, builder := { code := { name := file } } }

/-- The name of something declared here: the open procedures' names and its own. -/
def Session.path (session : Session) (name : String) : String :=
  let outer := session.procedures.map fun id => (session.forest.symbols[id]?.map Symbol.name).getD ""
  ".".intercalate (outer.reverse ++ [name])

/-- A step of a compilation. -/
abbrev Compiler := EStateM Failure Session

namespace Compiler

def fail {α : Type} (error : Error) : Compiler α := throw (.error error)

def internal {α : Type} (message : String) : Compiler α := fail (.internal message)

def orFault {α : Type} : Except Fault α → Compiler α
  | .ok value => return value
  | .error fault => throw (.fault fault)

def orFail {α : Type} : Except Error α → Compiler α
  | .ok value => return value
  | .error error => fail error

def tell (entry : Log.Entry) : Compiler Unit :=
  modify fun session => { session with log := entry :: session.log }

def record (event : Log.Event) : Compiler Unit := tell (.event event)

/-- Runs a step of the builder. -/
def build {α : Type} (step : Build α) : Compiler α := fun session =>
  match step session.builder with
  | .ok result builder => .ok result { session with builder }
  | .error failure builder => .error failure { session with builder }

def locate (place : Place) : Compiler Unit :=
  modify fun session => { session with location := session.location.movedTo place }

def enterScope : Compiler Unit := do
  let session ← get
  let (scope, forest) := session.forest.openScope (some session.scope)
  set { session with scope, forest }
  record (.scopeEntered (forest.depth scope))

def leaveScope : Compiler Unit := do
  let session ← get
  match session.forest.parent? session.scope with
  | some scope =>
    set { session with scope }
    record (.scopeLeft (session.forest.depth scope))
  | none => internal "leaving the root scope"

/-- Declares `name` in the current scope. -/
def add (name : String) : Compiler SymbolId := do
  let session ← get
  let (id, forest) ← orFail (session.forest.add session.scope name session.location)
  set { session with forest }
  return id

def find? (name : String) : Compiler (Option SymbolId) := do
  let session ← get
  return session.forest.find? session.scope name

def find (name : String) : Compiler SymbolId := do
  let session ← get
  orFail (session.forest.find session.scope name session.location)

def symbol (id : SymbolId) : Compiler Symbol := do
  orFault ((← get).forest.symbol id)

def update (id : SymbolId) (change : Symbol → Except Fault Symbol) : Compiler Unit := do
  let session ← get
  let forest ← orFault (session.forest.update id change)
  set { session with forest }

def declare (id : SymbolId) (meaning : Meaning) : Compiler Unit :=
  update id fun symbol => symbol.declare meaning

/-- How the log tells of a move to `block`. -/
def moveEvent (code : Module) (block : BlockRef) : Log.Event :=
  match code.function block.function, code.block block with
  | .ok function, .ok target => .cursorMoved function.name target.label
  | _, .error fault | .error fault, _ => .cursorAstray fault

def moveTo (block : BlockRef) : Compiler Unit := do
  record (moveEvent (← get).builder.code block)
  build (Build.moveTo block)

def declareLiteral (id : SymbolId) (text : String) : Compiler Unit := do
  record (.literalDeclared (← symbol id).name text)
  declare id (.literal text)

/-- Gives a variable its place in the emitted code. -/
def declareCell (id : SymbolId) (type : IntType) : Compiler GlobalId := do
  let name := (← symbol id).name
  let global ← build (Build.createGlobal ((← get).path name) (.int type.width))
  let made ← build (Build.view fun code => code.global global)
  record (.cellDeclared name made.name type)
  declare id (.cell global type)
  return global

def currentProcedure : Compiler SymbolId := do
  match (← get).procedures with
  | id :: _ => return id
  | [] => internal "no procedure is open"

def outermostProcedure : Compiler SymbolId := do
  match (← get).procedures.getLast? with
  | some id => return id
  | none => internal "no procedure was declared"

/-- Opens a procedure and moves to its entry block. The procedure around it keeps
the place it had reached. -/
def beginProcedure (id : SymbolId) : Compiler Unit := do
  let name := (← symbol id).name
  let session ← get
  let path := session.path name
  if let (outer :: _, some block) := (session.procedures, session.builder.cursor) then
    update outer fun symbol => symbol.setBlock block
  let function ← build (Build.createFunction path !session.procedures.isEmpty)
  let entry ← build (Build.appendBlock function "entry")
  declare id (.procedure function entry)
  modify fun session => { session with procedures := id :: session.procedures }
  moveTo entry
  record (.procedureBegun path (← get).procedures.length)

/-- Closes the innermost procedure and goes back to where the one around it was.
The outermost procedure is not taken off. -/
def endProcedure : Compiler Unit := do
  match (← get).procedures with
  | [] => internal "end of procedure with none open"
  | [id] => record (.outermostEnded (← symbol id).name)
  | id :: outer :: rest =>
    modify fun session => { session with procedures := outer :: rest }
    record (.procedureEnded (← symbol id).name)
    let (_, block) ← orFault (← symbol outer).procedure
    moveTo block

def currentBlock : Compiler BlockRef := do
  match (← get).builder.cursor with
  | some block => return block
  | none => internal "no insertion point"

/-- Moves to `block`, which the current procedure remembers as well. -/
def setCurrentBlock (block : BlockRef) : Compiler Unit := do
  update (← currentProcedure) fun symbol => symbol.setBlock block
  moveTo block

/-- Appends a block to the current procedure. -/
def appendBlock (label : String) : Compiler BlockRef := do
  let (function, _) ← orFault (← symbol (← currentProcedure)).procedure
  build (Build.appendBlock function label)

end Compiler

end BlockLang
