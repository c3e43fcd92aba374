import BlockLang.Emit

/-! Programs whose names are resolved. A variable is the number of its cell, a procedure
its place in the order of the headings, and a constant is its value. Resolving a tree
follows the scopes of the source; a tree that breaks off has no resolved form. -/

namespace BlockLang

namespace Core

open BlockLang.Tree (Operator Comparison)

inductive Expr where
  | number (value : Int64)
  | cell (id : Nat) (type : IntType)
  | negate (operand : Expr)
  | binary (op : Operator) (left right : Expr)
  deriving Repr, DecidableEq

structure Cond where
  op : Comparison
  left : Expr
  right : Expr
  deriving Repr, DecidableEq

inductive Stmt where
  | skip
  | seq (first second : Stmt)
  | assign (target : Nat) (type : IntType) (value : Expr)
  | call (callee : Nat)
  | branch (condition : Cond) (yes no : Stmt)
  | loop (condition : Cond) (body : Stmt)
  | ret
  deriving Repr, DecidableEq

/-- The cells of all variables and the bodies of all procedures, both in the order in
which the source declares them. -/
structure Program where
  cells : List IntType
  procedures : List Stmt
  deriving Repr, DecidableEq

/-- The cells of the expression are among those given. -/
def Expr.Fits (cells : List IntType) : Expr → Prop
  | number _ => True
  | cell id type => cells[id]? = some type
  | negate operand => operand.Fits cells
  | binary _ left right => left.Fits cells ∧ right.Fits cells

def Cond.Fits (cells : List IntType) (cond : Cond) : Prop :=
  cond.left.Fits cells ∧ cond.right.Fits cells

def Stmt.Fits (cells : List IntType) (procedures : Nat) : Stmt → Prop
  | skip => True
  | seq first second => first.Fits cells procedures ∧ second.Fits cells procedures
  | assign target type value => cells[target]? = some type ∧ value.Fits cells
  | call callee => callee < procedures
  | branch condition yes no =>
    condition.Fits cells ∧ yes.Fits cells procedures ∧ no.Fits cells procedures
  | loop condition body => condition.Fits cells ∧ body.Fits cells procedures
  | ret => True

/-- Everything that a program refers to exists. -/
structure Program.Formed (program : Program) : Prop where
  cells : ∀ type ∈ program.cells, type ∈ IntType.declarable
  bodies : ∀ body ∈ program.procedures, body.Fits program.cells program.procedures.length

/-- What a name stands for. -/
inductive Entity where
  | literal (text : String)
  | procedure (id : Nat)
  | cell (id : Nat) (type : IntType)
  deriving Repr, DecidableEq

def Entity.Fits (cells : List IntType) (procedures : Nat) : Entity → Prop
  | literal _ => True
  | procedure id => id < procedures
  | cell id type => cells[id]? = some type

/-- The declarations in sight, scope by scope, the innermost scope first. -/
abbrev Env := List (List (String × Entity))

namespace Env

/-- The nearest declaration of a name. -/
def find? (env : Env) (name : String) : Option Entity :=
  env.findSome? fun scope => scope.lookup name

/-- Declares a name in the innermost scope, unless that scope has it already. -/
def declare? (env : Env) (name : String) (entity : Entity) : Option Env :=
  match env with
  | [] => none
  | scope :: outer =>
    if (scope.lookup name).isSome then none else some ((scope ++ [(name, entity)]) :: outer)

def Fits (cells : List IntType) (procedures : Nat) (env : Env) : Prop :=
  ∀ scope ∈ env, ∀ entry ∈ scope, entry.2.Fits cells procedures

def literal? (env : Env) (name : String) : Option String :=
  match env.find? name with
  | some (.literal text) => some text
  | _ => none

def procedure? (env : Env) (name : String) : Option Nat :=
  match env.find? name with
  | some (.procedure id) => some id
  | _ => none

def cell? (env : Env) (name : String) : Option (Nat × IntType) :=
  match env.find? name with
  | some (.cell id type) => some (id, type)
  | _ => none

/-- A name used as a value: a variable, or a constant whose text is a numeral. -/
def value? (env : Env) (name : String) : Option Expr :=
  match env.find? name with
  | some (.literal text) => (Numeral.read? text).map .number
  | some (.cell id type) => some (.cell id type)
  | _ => none

theorem declare?_cons (scope : List (String × Entity)) (outer : Env) (name : String)
    (entity : Entity) : declare? (scope :: outer) name entity =
      if (scope.lookup name).isSome then none
      else some ((scope ++ [(name, entity)]) :: outer) := rfl

theorem tail_declare? {env declared : Env} {name : String} {entity : Entity}
    (h : env.declare? name entity = some declared) : declared.tail = env.tail := by
  unfold declare? at h
  split at h
  · cases h
  · split at h
    · cases h
    · cases h
      rfl

end Env

end Core

namespace Tree

open BlockLang.Core (Env Entity)

def Expr.resolve (env : Env) : Expr → Option Core.Expr
  | number value => some (.number value)
  | name ident => env.value? ident.name
  | negate operand => do
    let value ← operand.resolve env
    return .negate value
  | binary op left right => do
    let first ← left.resolve env
    let second ← right.resolve env
    return .binary op first second
  | missing _ => none
  | unclosed _ _ => none

def Cond.resolve (env : Env) : Cond → Option Core.Cond
  | compare op left right => do
    let first ← left.resolve env
    let second ← right.resolve env
    return ⟨op, first, second⟩
  | half _ _ => none
  | unfollowed _ _ _ _ => none

def ConstValue.resolve (env : Env) : ConstValue → Option String
  | text spelling => some spelling
  | copy source => env.literal? source.name

/-- One new cell for each name. -/
def resolveNames (type : IntType) : List Ident → Env → List IntType → Option (Env × List IntType)
  | [], env, cells => some (env, cells)
  | name :: rest, env, cells => do
    let declared ← env.declare? name.name (.cell cells.length type)
    resolveNames type rest declared (cells ++ [type])

/-- The environment and the cells once a declaration has been made. -/
def Declaration.resolve (env : Env) (cells : List IntType) :
    Declaration → Option (Env × List IntType)
  | const name value => do
    let text ← value.resolve env
    let declared ← env.declare? name.name (.literal text)
    return (declared, cells)
  | vars names type => resolveNames type names env cells
  | stop _ => none
  | unendedCopy _ _ => none

def resolveLocals : List Declaration → Env → List IntType → Option (Env × List IntType)
  | [], env, cells => some (env, cells)
  | declaration :: rest, env, cells => do
    let (declared, more) ← declaration.resolve env cells
    resolveLocals rest declared more

/-- A statement, and the cells once its own variables have been added. -/
def Stmt.resolve (env : Env) (cells : List IntType) : Stmt → Option (Core.Stmt × List IntType)
  | skip => some (.skip, cells)
  | seq first second => do
    let (before, more) ← first.resolve env cells
    let (after, all) ← second.resolve env more
    return (.seq before after, all)
  | assign target value => do
    let (id, type) ← env.cell? target.name
    let source ← value.resolve env
    return (.assign id type source, cells)
  | call callee => do
    let id ← env.procedure? callee.name
    return (.call id, cells)
  | branch condition yes no => do
    let test ← condition.resolve env
    let (first, more) ← yes.resolve env cells
    let (second, all) ← no.resolve env more
    return (.branch test first second, all)
  | loop condition body => do
    let test ← condition.resolve env
    let (inside, all) ← body.resolve env cells
    return (.loop test inside, all)
  | ret => some (.ret, cells)
  | block locals body => do
    let (declared, more) ← resolveLocals locals ([] :: env) cells
    body.resolve declared more
  | stop _ => none

def Heading.name? : Heading → Option String
  | named name => some name.name
  | unnamed _ => none
  | unended _ _ => none

/-- The environment and the cells once the declarations have been made, and the bodies
of the procedures among them, of which the first is procedure `next`. -/
def Decls.resolve (env : Env) (cells : List IntType) (next : Nat) :
    Decls → Option (Env × List IntType × List Core.Stmt)
  | nil => some (env, cells, [])
  | plain declaration rest => do
    let (declared, more) ← declaration.resolve env cells
    rest.resolve declared more next
  | nested heading locals body rest => do
    let name ← heading.name?
    let declared ← env.declare? name (.procedure next)
    let (inner, more, procedures) ← locals.resolve ([] :: declared) cells (next + 1)
    let (code, most) ← body.resolve inner more
    let (last, all, others) ← rest.resolve declared most (next + 1 + procedures.length)
    return (last, all, code :: procedures ++ others)
  | stop _ => none

/-- What a procedure's declarations and body resolve to. -/
def resolveInside (locals : Decls) (body : Stmt) (env : Env) (cells : List IntType)
    (next : Nat) : Option (Core.Stmt × List IntType × List Core.Stmt) :=
  locals.resolve env cells next >>= fun found => body.resolve found.1 found.2.1 >>= fun code =>
    some (code.1, code.2, found.2.2)

theorem Decls.resolve_nested (name : Ident) (locals : Decls) (body : Stmt) (rest : Decls)
    (env : Env) (cells : List IntType) (next : Nat) :
    (Decls.nested (.named name) locals body rest).resolve env cells next =
      env.declare? name.name (.procedure next) >>= fun declared =>
        resolveInside locals body ([] :: declared) cells (next + 1) >>= fun found =>
          rest.resolve declared found.2.1 (next + (found.1 :: found.2.2).length) >>= fun last =>
            some (last.1, last.2.1, found.1 :: found.2.2 ++ last.2.2) := by
  change (env.declare? name.name (.procedure next) >>= fun declared =>
    locals.resolve ([] :: declared) cells (next + 1) >>= fun found =>
      body.resolve found.1 found.2.1 >>= fun code =>
        rest.resolve declared code.2 (next + 1 + found.2.2.length) >>= fun last =>
          some (last.1, last.2.1, code.1 :: found.2.2 ++ last.2.2)) = _
  unfold resolveInside
  simp only [Option.bind_eq_bind, Option.bind_some, List.length_cons,
    Nat.add_comm 1, Nat.add_assoc, Option.bind_assoc]

/-- The program a tree stands for. -/
def Program.resolve (program : Program) : Option Core.Program := do
  let (_, cells, procedures) ← program.decls.resolve [[]] [] 0
  return ⟨cells, procedures⟩

end Tree

end BlockLang
