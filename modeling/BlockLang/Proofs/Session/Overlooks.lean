import BlockLang.Proofs.Session.Runs
import BlockLang.Proofs.Tree.Unplaced

/-! What is done with a tree does not depend on the places in it. Once they are forgotten,
every step ends as it did, and with the same state but for the place that it has reached. -/

namespace BlockLang

open Code Names BlockLang.Tree Compiler

/-- Where in its file an error was met is forgotten. -/
def Error.unplaced : Error → Error
  | malformed location message => .malformed (location.movedTo {}) message
  | unreadable location message => .unreadable (location.movedTo {}) message
  | duplicate location name => .duplicate (location.movedTo {}) name
  | unresolved location name => .unresolved (location.movedTo {}) name
  | wrongKind location name expected found =>
    .wrongKind (location.movedTo {}) name expected found
  | notNumeric location name value => .notNumeric (location.movedTo {}) name value
  | rejected function message => .rejected function message
  | internal message => .internal message
  | inaccessible path message => .inaccessible path message

def Failure.unplaced : Failure → Failure
  | error found => .error found.unplaced
  | fault found => .fault found

/-- Where reading stands is forgotten. -/
def Session.unplaced (session : Session) : Session := session.locatedAt {}

namespace Session

variable (session : Session)

@[simp] theorem forest_unplaced : session.unplaced.forest = session.forest := rfl

@[simp] theorem scope_unplaced : session.unplaced.scope = session.scope := rfl

@[simp] theorem procedures_unplaced : session.unplaced.procedures = session.procedures := rfl

@[simp] theorem builder_unplaced : session.unplaced.builder = session.builder := rfl

end Session

section

variable {σ α β : Type} {forget : σ → σ}

def unplacedEnd (forget : σ → σ) : EStateM.Result Failure σ α → EStateM.Result Failure σ α
  | .ok value state => .ok value (forget state)
  | .error failure state => .error failure.unplaced (forget state)

/-- The other step does what the first does, once the places are forgotten. -/
def Overlooks (forget : σ → σ) (step other : EStateM Failure σ α) : Prop :=
  ∀ state, other (forget state) = unplacedEnd forget (step state)

/-- A step that does not know of places. -/
def Placeless (forget : σ → σ) (step : EStateM Failure σ α) : Prop := Overlooks forget step step

theorem placeless_pure (value : α) : Placeless forget (pure value) := fun _ => rfl

theorem overlooks_set (state : σ) :
    Overlooks forget (set state : EStateM Failure σ PUnit) (set (forget state)) := fun _ => rfl

theorem placeless_fault (fault : Fault) :
    Placeless forget (throw (.fault fault) : EStateM Failure σ α) := fun _ => rfl

theorem overlooks_throw (error : Error) :
    Overlooks forget (throw (.error error) : EStateM Failure σ α) (throw (.error error.unplaced)) :=
  fun _ => rfl

/-- What comes next may look at the state, but only at what both states have. -/
theorem overlooks_get_bind {next last : σ → EStateM Failure σ β}
    (h : ∀ state, Overlooks forget (next state) (last (forget state))) :
    Overlooks forget (get >>= next) (get >>= last) :=
  fun state => h state state

theorem Overlooks.bind {step other : EStateM Failure σ α}
    {next last : α → EStateM Failure σ β} (h : Overlooks forget step other)
    (hnext : ∀ value, Overlooks forget (next value) (last value)) :
    Overlooks forget (step >>= next) (other >>= last) := by
  intro state
  have hfirst : (step >>= next) state = EStateM.bind step next state := rfl
  have hsecond : (other >>= last) (forget state) = EStateM.bind other last (forget state) := rfl
  rw [hfirst, hsecond, EStateM.bind, EStateM.bind, h state]
  cases step state with
  | ok value middle => exact hnext value middle
  | error failure middle => rfl

theorem Overlooks.discard {step other : EStateM Failure σ α} (h : Overlooks forget step other) :
    Overlooks forget (discard step) (discard other) :=
  h.bind fun _ => placeless_pure _

theorem Overlooks.forM {unplaced : β → β} {step : β → EStateM Failure σ PUnit} (items : List β)
    (h : ∀ item, Overlooks forget (step item) (step (unplaced item))) :
    Overlooks forget (items.forM step) ((items.map unplaced).forM step) := by
  induction items with
  | nil => exact placeless_pure _
  | cons item rest ih => exact (h item).bind fun _ => ih

end

variable {α : Type}

namespace Code.Build

-- The builder has no places, so nothing is forgotten of it, and none is in its failures.

theorem placeless_change (action : Module → Except Fault (α × Module)) :
    Placeless id (change action) := by
  refine overlooks_get_bind fun builder => ?_
  dsimp only [id]
  split
  · exact fun _ => rfl
  · exact fun _ => rfl

theorem placeless_isTerminated (block : BlockRef) : Placeless id (isTerminated block) := by
  unfold isTerminated view
  exact placeless_change _

theorem placeless_here : Placeless id here := by
  refine overlooks_get_bind fun builder => ?_
  dsimp only [id]
  split
  · exact fun _ => rfl
  · exact fun _ => rfl

theorem placeless_emit (instr : Instr) : Placeless id (emit instr) :=
  placeless_here.bind fun _ => placeless_change _

theorem placeless_freshRegister (type : Ty) : Placeless id (freshRegister type) :=
  placeless_here.bind fun _ => placeless_change _

theorem placeless_load (source : GlobalId) : Placeless id (load source) :=
  (placeless_change _).bind fun global => (placeless_freshRegister global.type).bind fun dest =>
    (placeless_emit _).bind fun _ => placeless_pure dest

theorem placeless_binary (op : BinOp) (left right : Value) : Placeless id (binary op left right) :=
  (placeless_freshRegister _).bind fun dest => (placeless_emit _).bind fun _ => placeless_pure dest

theorem placeless_compare (predicate : Predicate) (left right : Value) :
    Placeless id (compare predicate left right) :=
  (placeless_freshRegister _).bind fun dest => (placeless_emit _).bind fun _ => placeless_pure dest

theorem placeless_intCast (value : Value) (type : Ty) (signed : Bool) :
    Placeless id (intCast value type signed) := by
  unfold intCast
  split
  · exact placeless_pure _
  · cases value with
    | const source constant =>
      dsimp only
      split
      · exact placeless_pure _
      · exact placeless_fault _
    | register source index =>
      exact (placeless_freshRegister _).bind fun dest =>
        (placeless_emit _).bind fun _ => placeless_pure dest

end Code.Build

namespace Compiler

theorem placeless_build {step : Build α} (h : Placeless id step) :
    Placeless Session.unplaced (build step) := by
  intro session
  have hstep : step session.unplaced.builder = unplacedEnd id (step session.builder) :=
    h session.builder
  unfold build
  rw [hstep]
  cases step session.builder <;> rfl

theorem placeless_orFault (result : Except Fault α) :
    Placeless Session.unplaced (orFault result) := by
  cases result with
  | ok value => exact placeless_pure value
  | error fault => exact placeless_fault fault

theorem placeless_internal (message : String) :
    Placeless Session.unplaced (internal message : Compiler α) :=
  overlooks_throw _

theorem placeless_tell (entry : Log.Entry) :
    Placeless Session.unplaced (tell entry) := fun _ => rfl

theorem overlooks_locate (place : Place) :
    Overlooks Session.unplaced (locate place) (locate {}) := fun _ => rfl

theorem placeless_enterScope : Placeless Session.unplaced enterScope := fun _ => rfl

theorem placeless_leaveScope : Placeless Session.unplaced leaveScope := by
  refine overlooks_get_bind fun session => ?_
  rw [Session.forest_unplaced, Session.scope_unplaced]
  cases session.forest.parent? session.scope with
  | some scope => exact fun _ => rfl
  | none => exact placeless_internal _

theorem placeless_add (name : String) : Placeless Session.unplaced (add name) := by
  refine overlooks_get_bind fun session => ?_
  unfold Forest.add
  rw [Session.forest_unplaced, Session.scope_unplaced]
  cases session.forest.add? session.scope name with
  | some added => exact fun _ => rfl
  | none => exact fun _ => rfl

theorem placeless_find (name : String) : Placeless Session.unplaced (find name) := by
  refine overlooks_get_bind fun session => ?_
  unfold Forest.find
  rw [Session.forest_unplaced, Session.scope_unplaced]
  cases session.forest.find? session.scope name with
  | some id => exact fun _ => rfl
  | none => exact fun _ => rfl

theorem placeless_symbol (id : SymbolId) :
    Placeless Session.unplaced (symbol id) :=
  overlooks_get_bind fun session => placeless_orFault (session.forest.symbol id)

theorem placeless_update (id : SymbolId) (change : Symbol → Except Fault Symbol) :
    Placeless Session.unplaced (update id change) :=
  overlooks_get_bind fun session =>
    (placeless_orFault (session.forest.update id change)).bind fun forest =>
      overlooks_set { session with forest }

theorem placeless_moveTo (block : BlockRef) :
    Placeless Session.unplaced (moveTo block) := fun _ => rfl

theorem placeless_declareLiteral (id : SymbolId) (text : String) :
    Placeless Session.unplaced (declareLiteral id text) :=
  (placeless_symbol id).bind fun _ => (placeless_tell _).bind fun _ => placeless_update id _

theorem placeless_declareCell (id : SymbolId) (type : IntType) :
    Placeless Session.unplaced (declareCell id type) := by
  refine (placeless_symbol id).bind fun symbol => overlooks_get_bind fun session => ?_
  refine (placeless_build (Build.placeless_change _)).bind fun global => ?_
  refine (placeless_build (Build.placeless_change _)).bind fun made => ?_
  exact (placeless_tell _).bind fun _ => (placeless_update id _).bind fun _ => placeless_pure global

theorem placeless_currentProcedure :
    Placeless Session.unplaced currentProcedure := by
  refine overlooks_get_bind fun session => ?_
  rw [Session.procedures_unplaced]
  cases session.procedures with
  | cons id rest => exact placeless_pure id
  | nil => exact placeless_internal _

theorem placeless_openProcedure (id : SymbolId) (path : String) (internal : Bool) :
    Placeless Session.unplaced (openProcedure id path internal) := by
  refine (placeless_build (Build.placeless_change _)).bind fun function => ?_
  refine (placeless_build (Build.placeless_change _)).bind fun entry => ?_
  refine (placeless_update id _).bind fun _ => ?_
  refine Overlooks.bind (fun _ => rfl) fun _ => ?_
  exact (placeless_moveTo entry).bind fun _ => overlooks_get_bind fun _ => placeless_tell _

theorem placeless_beginProcedure (id : SymbolId) :
    Placeless Session.unplaced (beginProcedure id) := by
  rw [beginProcedure_eq]
  refine (placeless_symbol id).bind fun found => overlooks_get_bind fun session => ?_
  rw [Session.procedures_unplaced, Session.builder_unplaced]
  split
  · exact (placeless_update _ _).bind fun _ => placeless_openProcedure id _ _
  · exact placeless_openProcedure id _ _

theorem placeless_endProcedure : Placeless Session.unplaced endProcedure := by
  refine overlooks_get_bind fun session => ?_
  rw [Session.procedures_unplaced]
  rcases session.procedures with _ | ⟨id, _ | ⟨outer, rest⟩⟩
  · exact placeless_internal _
  · exact (placeless_symbol id).bind fun _ => placeless_tell _
  · refine Overlooks.bind (fun _ => rfl) fun _ => ?_
    refine (placeless_symbol id).bind fun _ => (placeless_tell _).bind fun _ => ?_
    refine (placeless_symbol outer).bind fun symbol => ?_
    exact (placeless_orFault symbol.procedure).bind fun _ => placeless_moveTo _

theorem placeless_currentBlock : Placeless Session.unplaced currentBlock := by
  refine overlooks_get_bind fun session => ?_
  rw [Session.builder_unplaced]
  cases session.builder.cursor with
  | some block => exact placeless_pure block
  | none => exact placeless_internal _

theorem placeless_setCurrentBlock (block : BlockRef) :
    Placeless Session.unplaced (setCurrentBlock block) :=
  placeless_currentProcedure.bind fun id => (placeless_update id _).bind fun _ =>
    placeless_moveTo block

theorem placeless_appendBlock (label : String) :
    Placeless Session.unplaced (appendBlock label) :=
  placeless_currentProcedure.bind fun id => (placeless_symbol id).bind fun symbol =>
    (placeless_orFault symbol.procedure).bind fun _ => placeless_build (Build.placeless_change _)

theorem overlooks_raise (mistake : Mistake) :
    Overlooks Session.unplaced (raise mistake : Compiler α) (raise mistake.unplaced) := by
  have hfail : Overlooks Session.unplaced
      (do fail (.malformed ((← get).location.movedTo mistake.place) mistake.cause.message) :
        Compiler α)
      (do fail (.malformed ((← get).location.movedTo {}) mistake.cause.message)) :=
    overlooks_get_bind fun _ => overlooks_throw _
  -- The place that was reached is set first, and then overruled by that of the token at fault.
  unfold raise Mistake.unplaced
  cases mistake.reached with
  | none => exact hfail
  | some place => exact (overlooks_locate place).bind fun _ => hfail

theorem overlooks_resolve (name : Ident) :
    Overlooks Session.unplaced (resolve name) (resolve name.unplaced) :=
  (overlooks_locate name.place).bind fun _ => (placeless_find name.name).bind fun id =>
    placeless_symbol id

theorem placeless_mismatch (symbol : Symbol) (expected : String) :
    Placeless Session.unplaced (mismatch symbol expected : Compiler α) :=
  overlooks_get_bind fun _ => overlooks_throw _

theorem overlooks_resolveAs (kind : Kind) (name : Ident) :
    Overlooks Session.unplaced (resolveAs kind name) (resolveAs kind name.unplaced) := by
  refine (overlooks_resolve name).bind fun symbol => ?_
  split
  · exact placeless_pure symbol
  · exact (placeless_tell _).bind fun _ => placeless_mismatch symbol _

theorem overlooks_loadName (name : Ident) :
    Overlooks Session.unplaced (loadName name) (loadName name.unplaced) := by
  refine (overlooks_resolve name).bind fun symbol => ?_
  split
  · split
    · exact placeless_pure _
    · exact overlooks_get_bind fun _ => overlooks_throw _
  · exact (placeless_build (Build.placeless_load _)).bind fun _ => placeless_pure _
  · exact placeless_mismatch symbol _

theorem placeless_unify (left right : Operand) : Placeless Session.unplaced (unify left right) :=
  (placeless_build (Build.placeless_intCast _ _ _)).bind fun _ =>
    (placeless_build (Build.placeless_intCast _ _ _)).bind fun _ => placeless_pure _

theorem placeless_combine (op : Operator) (left right : Operand) :
    Placeless Session.unplaced (combine op left right) :=
  (placeless_unify left right).bind fun _ =>
    (placeless_build (Build.placeless_binary _ _ _)).bind fun _ => placeless_pure _

theorem placeless_negate (operand : Operand) :
    Placeless Session.unplaced (Compiler.negate operand) := by
  unfold Compiler.negate
  split
  · exact placeless_pure _
  · exact (placeless_build (Build.placeless_binary _ _ _)).bind fun _ => placeless_pure _

theorem placeless_compare (op : Comparison) (left right : Operand) :
    Placeless Session.unplaced (Compiler.compare op left right) :=
  (placeless_unify left right).bind fun _ => placeless_build (Build.placeless_compare _ _ _)

theorem placeless_jumpIfOpen (target : BlockRef) :
    Placeless Session.unplaced (jumpIfOpen target) := by
  refine placeless_currentBlock.bind fun block => ?_
  refine (placeless_build (Build.placeless_isTerminated block)).bind fun terminated => ?_
  cases terminated with
  | true => exact placeless_pure _
  | false => exact placeless_build (Build.placeless_emit _)

end Compiler

namespace Tree

theorem Expr.overlooks_emit (expr : Expr) :
    Overlooks Session.unplaced expr.emit expr.unplaced.emit := by
  induction expr with
  | number value => exact placeless_pure _
  | name ident => exact overlooks_loadName ident
  | negate operand ih => exact ih.bind placeless_negate
  | binary op left right ihleft ihright =>
    exact ihleft.bind fun first => ihright.bind fun second => placeless_combine op first second
  | missing mistake => exact overlooks_raise mistake
  | unclosed inner mistake ih => exact ih.discard.bind fun _ => overlooks_raise mistake

theorem Cond.overlooks_emit (cond : Cond) :
    Overlooks Session.unplaced cond.emit cond.unplaced.emit := by
  cases cond with
  | compare op left right =>
    exact left.overlooks_emit.bind fun first => right.overlooks_emit.bind fun second =>
      placeless_compare op first second
  | half left mistake => exact left.overlooks_emit.discard.bind fun _ => overlooks_raise mistake
  | unfollowed op left right mistake =>
    refine left.overlooks_emit.bind fun first => right.overlooks_emit.bind fun second => ?_
    exact (placeless_compare op first second).discard.bind fun _ => overlooks_raise mistake

theorem ConstValue.overlooks_emit (value : ConstValue) :
    Overlooks Session.unplaced value.emit value.unplaced.emit := by
  cases value with
  | text spelling => exact placeless_pure _
  | copy source => exact (overlooks_resolveAs .literal source).bind fun _ => placeless_orFault _

theorem Ident.overlooks_declare (name : Ident) :
    Overlooks Session.unplaced name.declare name.unplaced.declare :=
  (overlooks_locate name.place).bind fun _ => placeless_add name.name

theorem Declaration.overlooks_emit (declaration : Declaration) :
    Overlooks Session.unplaced declaration.emit declaration.unplaced.emit := by
  cases declaration with
  | const name value =>
    exact value.overlooks_emit.bind fun text => name.overlooks_declare.bind fun id =>
      placeless_declareLiteral id text
  | vars names type =>
    refine Overlooks.forM names fun name => ?_
    exact name.overlooks_declare.bind fun id => (placeless_declareCell id type).discard
  | stop mistake => exact overlooks_raise mistake
  | unendedCopy source mistake =>
    exact (ConstValue.overlooks_emit (.copy source)).discard.bind fun _ => overlooks_raise mistake

theorem Stmt.overlooks_emit (stmt : Stmt) :
    Overlooks Session.unplaced stmt.emit stmt.unplaced.emit := by
  induction stmt with
  | skip => exact placeless_pure _
  | seq first second ihfirst ihsecond => exact ihfirst.bind fun _ => ihsecond
  | assign target value =>
    refine (overlooks_resolveAs .cell target).bind fun symbol => ?_
    refine value.overlooks_emit.bind fun operand => ?_
    refine (placeless_orFault symbol.cell).bind fun cell => ?_
    exact (placeless_build (Build.placeless_intCast _ _ _)).bind fun _ =>
      placeless_build (Build.placeless_emit _)
  | call callee =>
    refine (overlooks_resolveAs .procedure callee).bind fun symbol => ?_
    exact (placeless_orFault symbol.procedure).bind fun _ =>
      placeless_build (Build.placeless_emit _)
  | branch condition yes no ihyes ihno =>
    refine condition.overlooks_emit.bind fun value => ?_
    refine (placeless_appendBlock "then").bind fun thenBlock => ?_
    refine (placeless_appendBlock "else").bind fun elseBlock => ?_
    refine (placeless_appendBlock "endif").bind fun merge => ?_
    refine (placeless_build (Build.placeless_emit _)).bind fun _ => ?_
    refine (placeless_setCurrentBlock thenBlock).bind fun _ => ?_
    refine ihyes.bind fun _ => ?_
    refine (placeless_jumpIfOpen merge).bind fun _ => ?_
    refine (placeless_setCurrentBlock elseBlock).bind fun _ => ?_
    refine ihno.bind fun _ => ?_
    exact (placeless_jumpIfOpen merge).bind fun _ => placeless_setCurrentBlock merge
  | loop condition body ih =>
    refine (placeless_appendBlock "while.cond").bind fun test => ?_
    refine (placeless_appendBlock "while.body").bind fun bodyBlock => ?_
    refine (placeless_appendBlock "while.end").bind fun exit => ?_
    refine (placeless_jumpIfOpen test).bind fun _ => ?_
    refine (placeless_setCurrentBlock test).bind fun _ => ?_
    refine condition.overlooks_emit.bind fun value => ?_
    refine (placeless_build (Build.placeless_emit _)).bind fun _ => ?_
    refine (placeless_setCurrentBlock bodyBlock).bind fun _ => ?_
    refine ih.bind fun _ => ?_
    exact (placeless_jumpIfOpen test).bind fun _ => placeless_setCurrentBlock exit
  | ret =>
    refine (placeless_build (Build.placeless_emit _)).bind fun _ => ?_
    exact (placeless_appendBlock "after.return").bind placeless_setCurrentBlock
  | block locals body ih =>
    refine placeless_enterScope.bind fun _ => ?_
    refine (Overlooks.forM locals Declaration.overlooks_emit).bind fun _ => ?_
    exact ih.bind fun _ => placeless_leaveScope
  | stop mistake => exact overlooks_raise mistake

theorem Heading.overlooks_emit (heading : Heading) :
    Overlooks Session.unplaced heading.emit heading.unplaced.emit := by
  cases heading with
  | named name => exact name.overlooks_declare
  | unnamed mistake => exact overlooks_raise mistake
  | unended name mistake => exact name.overlooks_declare.discard.bind fun _ => overlooks_raise mistake

theorem placeless_closeProcedure : Placeless Session.unplaced closeProcedure := by
  have hclose : Placeless Session.unplaced (do leaveScope; endProcedure; tell .leave) :=
    placeless_leaveScope.bind fun _ => placeless_endProcedure.bind fun _ => placeless_tell _
  refine placeless_currentBlock.bind fun block => ?_
  refine (placeless_build (Build.placeless_isTerminated block)).bind fun terminated => ?_
  cases terminated with
  | true => exact hclose
  | false => exact (placeless_build (Build.placeless_emit _)).bind fun _ => hclose

theorem overlooks_within (id : SymbolId) {inside other : Compiler Unit}
    (h : Overlooks Session.unplaced inside other) :
    Overlooks Session.unplaced (within id inside) (within id other) := by
  rw [within_eq, within_eq]
  refine (placeless_symbol id).bind fun symbol => ?_
  refine (placeless_tell _).bind fun _ => ?_
  refine (placeless_beginProcedure id).bind fun _ => ?_
  refine placeless_enterScope.bind fun _ => ?_
  exact h.bind fun _ => placeless_closeProcedure

theorem Decls.overlooks_emit (decls : Decls) :
    Overlooks Session.unplaced decls.emit decls.unplaced.emit := by
  induction decls with
  | nil => exact placeless_pure _
  | plain declaration rest ih => exact declaration.overlooks_emit.bind fun _ => ih
  | nested heading locals body rest ihlocals ihrest =>
    refine heading.overlooks_emit.bind fun id => ?_
    refine (overlooks_within id ?_).bind fun _ => ihrest
    exact ihlocals.bind fun _ => body.overlooks_emit
  | stop mistake => exact overlooks_raise mistake

theorem Program.overlooks_emit (program : Program) :
    Overlooks Session.unplaced program.emit program.unplaced.emit := by
  refine program.decls.overlooks_emit.bind fun _ => ?_
  unfold Program.unplaced
  cases program.reached with
  | none => exact placeless_pure _
  | some place => exact overlooks_locate place

end Tree

end BlockLang
