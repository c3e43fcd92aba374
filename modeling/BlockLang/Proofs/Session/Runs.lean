import BlockLang.Proofs.Code.Draft
import BlockLang.Proofs.Ends

/-! What each step of a session does to it, as an equation: the session after the step
is written out in the terms of the session before it. -/

namespace BlockLang

open Code Names

namespace Names.Forest

/-- What a symbol has been told to stand for. -/
def meaning? (forest : Forest) (id : SymbolId) : Option Meaning :=
  forest.symbols[id]?.bind Symbol.meaning?

def withSymbol (forest : Forest) (id : SymbolId) (symbol : Symbol) : Forest :=
  { forest with symbols := forest.symbols.set id symbol }

/-- The forest once `name` has been added to `scope`. -/
def added (forest : Forest) (scope : ScopeId) (name : String) : Forest where
  scopes := forest.scopes.modify scope fun found =>
    { found with entries := found.entries ++ [(name, forest.symbols.length)] }
  symbols := forest.symbols ++ [{ name }]

theorem add?_eq (forest : Forest) (scope : ScopeId) (name : String) :
    forest.add? scope name =
      if (forest.declared? scope name).isSome then none
      else some (forest.symbols.length, forest.added scope name) := rfl

theorem symbol_of_meaning? {forest : Forest} {id : SymbolId} {meaning : Meaning}
    (h : forest.meaning? id = some meaning) :
    ∃ symbol, forest.symbols[id]? = some symbol ∧ symbol.meaning? = some meaning :=
  Option.bind_eq_some_iff.1 h

theorem lt_of_meaning? {forest : Forest} {id : SymbolId} {meaning : Meaning}
    (h : forest.meaning? id = some meaning) : id < forest.symbols.length := by
  obtain ⟨symbol, hsymbol, -⟩ := symbol_of_meaning? h
  exact (List.getElem?_eq_some_iff.1 hsymbol).1

theorem meaning?_withSymbol {forest : Forest} {id : SymbolId} (h : id < forest.symbols.length)
    (symbol : Symbol) (other : SymbolId) :
    (forest.withSymbol id symbol).meaning? other =
      if id = other then symbol.meaning? else forest.meaning? other := by
  unfold meaning? withSymbol
  rw [List.getElem?_set]
  split
  · simp [*] at *
  · rfl

theorem meaning?_added (forest : Forest) (scope : ScopeId) (name : String) (id : SymbolId) :
    (forest.added scope name).meaning? id = forest.meaning? id := by
  unfold meaning? added
  rw [List.getElem?_append]
  split
  · rfl
  · next hlength =>
    rw [List.getElem?_eq_none (Nat.le_of_not_lt hlength)]
    cases hrest : ([{ name }] : List Symbol)[id - forest.symbols.length]? with
    | none => rfl
    | some symbol =>
      have hsymbol := List.mem_of_getElem? hrest
      rw [List.mem_singleton.1 hsymbol]
      rfl

end Names.Forest

namespace Session

def locatedAt (session : Session) (place : Place) : Session :=
  { session with location := session.location.movedTo place }

def told (session : Session) (entry : Log.Entry) : Session :=
  { session with log := entry :: session.log }

/-- The session in a new scope inside the current one. -/
def entered (session : Session) : Session :=
  let forest := (session.forest.openScope (some session.scope)).2
  let scope := session.forest.scopes.length
  { session with scope, forest }.told (.event (.scopeEntered (forest.depth scope)))

def leftTo (session : Session) (scope : ScopeId) : Session :=
  { session with scope }.told (.event (.scopeLeft (session.forest.depth scope)))

def added (session : Session) (name : String) : Session :=
  { session with forest := session.forest.added session.scope name }

def withSymbol (session : Session) (id : SymbolId) (symbol : Symbol) : Session :=
  { session with forest := session.forest.withSymbol id symbol }

def movedTo (session : Session) (block : BlockRef) : Session :=
  { session.told (.event (Compiler.moveEvent session.builder.code block)) with
    builder := { session.builder with cursor := some block } }

def redraft (session : Session) (id : FunctionId) (draft : Draft) : Session :=
  { session with builder := session.builder.redraft id draft }

def withGlobal (session : Session) (name : String) (type : Ty) : Session :=
  { session with builder.code := (session.builder.code.addGlobal name type).2 }

/-- The session with one more function, which has an empty entry block. -/
def withFunction (session : Session) (name : String) (internal : Bool) : Session :=
  let name := fresh session.builder.code.taken name
  { session with
    builder.code.functions := session.builder.code.functions ++
      [(Function.bare name internal).redraft Draft.entry]
    builder.code.taken := session.builder.code.taken.insert name }

def withProcedures (session : Session) (procedures : List SymbolId) : Session :=
  { session with procedures }

/-- The session in the entry block of a new function, which is what `id` stands for. -/
def begun (session : Session) (id : SymbolId) (symbol : Symbol) (path : String)
    (internal : Bool) : Session :=
  let function := session.builder.code.functions.length
  (((session.withFunction path internal).withSymbol id
    { symbol with meaning? := some (.procedure function ⟨function, 0⟩) }).withProcedures
      (id :: session.procedures)).movedTo ⟨function, 0⟩

@[simp] theorem redraft_redraft (session : Session) (id : FunctionId) (first second : Draft) :
    (session.redraft id first).redraft id second = session.redraft id second := by
  simp [redraft]

end Session

namespace Compiler

variable {α β : Type} {session : Session}

theorem bind_eq_ok {step : Compiler α} {next : α → Compiler β} {value : α} {after : Session}
    (h : step session = .ok value after) : (step >>= next) session = next value after := by
  simp [bind, EStateM.bind, h]

theorem bind_eq_error {step : Compiler α} {next : α → Compiler β} {failure : Failure}
    {after : Session} (h : step session = .error failure after) :
    (step >>= next) session = .error failure after := by
  simp [bind, EStateM.bind, h]

theorem get_bind (next : Session → Compiler β) :
    (get >>= next) session = next session session := rfl

theorem build_eq_ok {step : Build α} {value : α} {builder : Builder}
    (h : step session.builder = .ok value builder) :
    build step session = .ok value { session with builder } := by
  simp [build, h]

theorem orFault_eq_ok {result : Except Fault α} (value : α) (h : result = .ok value) :
    orFault result session = .ok value session := by
  rw [h]
  rfl

/-- Wherever the builder stands, the step writes the code there and does nothing else. -/
def Writes (step : Compiler α) (code : Straight α) : Prop :=
  ∀ (session : Session) (id : FunctionId) (draft : Draft), session.builder.At id draft →
    step session = .ok (code.value draft.nextRegister) (session.redraft id (draft.write code))

theorem writes_pure (value : α) : Writes (pure value) (pure value) := by
  intro session id draft h
  rw [Draft.write_pure]
  unfold Session.redraft
  rw [h.redraft_self]
  rfl

theorem Writes.bind {step : Compiler α} {next : α → Compiler β} {code : Straight α}
    {rest : α → Straight β} (h : Writes step code) (hnext : ∀ value, Writes (next value) (rest value)) :
    Writes (step >>= next) (code >>= rest) := by
  intro session id draft hat
  have hwritten : (session.redraft id (draft.write code)).builder.At id (draft.write code) :=
    hat.redraft (by simpa using hat.inside)
  rw [bind_eq_ok (h _ _ _ hat), hnext _ _ _ _ hwritten, Session.redraft_redraft, ← Draft.write_bind]
  rfl

theorem writes_build {step : Build α} {code : Straight α}
    (h : ∀ (builder : Builder) (id : FunctionId) (draft : Draft), builder.At id draft →
      step builder = .ok (code.value draft.nextRegister) (builder.redraft id (draft.write code))) :
    Writes (build step) code :=
  fun _ _ _ hat => build_eq_ok (h _ _ _ hat)

end Compiler

/-- Neither the declared type nor that of a constant is of no width. -/
def Operand.Sound (operand : Operand) : Prop :=
  0 < operand.type.width ∧
    ∀ source constant, operand.value = .const source constant → 0 < source.bits

theorem Operand.sound_constant (value : Int64) : (Operand.constant value).Sound := by
  have hwidth : 0 < (IntType.ofConstant value).width := by
    unfold IntType.ofConstant
    split <;> decide
  refine ⟨hwidth, ?_⟩
  intro source constant hvalue
  cases hvalue
  exact hwidth

theorem Operand.sound_register {type : IntType} (h : 0 < type.width) (source : Ty) (id : Nat) :
    Operand.Sound ⟨.register source id, type⟩ :=
  ⟨h, fun _ _ hvalue => by cases hvalue⟩

theorem IntType.join_pos {left right : IntType} (hleft : 0 < left.width)
    (hright : 0 < right.width) : 0 < (left.join right).width := by
  unfold IntType.join
  split
  · exact hleft
  · split
    · exact hright
    · exact hleft

namespace Compiler

variable {α β : Type} {session : Session}

theorem writes_intCast {operand : Operand} (h : operand.Sound) {type : IntType}
    (htype : 0 < type.width) (signed : Bool) :
    Writes (build (Build.intCast operand.value type.backend signed))
      (Straight.intCast operand.value type.backend signed) :=
  writes_build fun _ _ _ hat =>
    Build.intCast_eq hat h.2 (show 0 < type.backend.bits from htype) signed

theorem writes_unify {left right : Operand} (hleft : left.Sound) (hright : right.Sound) :
    Writes (unify left right) (Straight.unify left right) := by
  have hwidth := IntType.join_pos hleft.1 hright.1
  refine (writes_intCast hleft hwidth _).bind fun first => ?_
  refine (writes_intCast hright hwidth _).bind fun second => ?_
  exact writes_pure _

theorem writes_combine (op : Tree.Operator) {left right : Operand} (hleft : left.Sound)
    (hright : right.Sound) : Writes (combine op left right) (Straight.combine op left right) := by
  refine (writes_unify hleft hright).bind fun unified => ?_
  refine (writes_build fun _ _ _ hat => Build.binary_eq hat _ _ _).bind fun value => ?_
  exact writes_pure _

theorem writes_negate (operand : Operand) : Writes (negate operand) (Straight.negate operand) := by
  obtain ⟨value, type⟩ := operand
  cases value with
  | const source constant => exact writes_pure _
  | register source id =>
    refine (writes_build fun _ _ _ hat => Build.binary_eq hat _ _ _).bind fun value => ?_
    exact writes_pure _

theorem writes_compare (op : Tree.Comparison) {left right : Operand} (hleft : left.Sound)
    (hright : right.Sound) :
    Writes (compare op left right) (Straight.compareOperands op left right) := by
  refine (writes_unify hleft hright).bind fun unified => ?_
  exact writes_build fun _ _ _ hat => Build.compare_eq hat _ _ _

end Compiler

namespace Code.Straight

theorem sound_combine (op : Tree.Operator) {left right : Operand} (hleft : left.Sound)
    (hright : right.Sound) (next : Nat) : ((combine op left right).value next).Sound :=
  Operand.sound_register (IntType.join_pos hleft.1 hright.1) _ _

theorem sound_negate {operand : Operand} (h : operand.Sound) (next : Nat) :
    ((negate operand).value next).Sound := by
  unfold negate
  split
  · exact Operand.sound_constant _
  · exact Operand.sound_register h.1 _ _

end Code.Straight

namespace Compiler

variable {α β : Type} {session : Session}

theorem locate_eq (place : Place) : locate place session = .ok () (session.locatedAt place) := rfl

theorem tell_eq (entry : Log.Entry) : tell entry session = .ok () (session.told entry) := rfl

theorem record_eq (event : Log.Event) :
    record event session = .ok () (session.told (.event event)) := rfl

theorem enterScope_eq : enterScope session = .ok () session.entered := rfl

theorem leaveScope_eq {scope : ScopeId}
    (h : session.forest.parent? session.scope = some scope) :
    leaveScope session = .ok () (session.leftTo scope) := by
  unfold leaveScope
  rw [get_bind, h]
  rfl

theorem add_eq_ok {name : String} (h : session.forest.declared? session.scope name = none) :
    add name session = .ok session.forest.symbols.length (session.added name) := by
  unfold add Forest.add
  rw [get_bind, Forest.add?_eq, h]
  rfl

theorem add_eq_error {name : String} {id : SymbolId}
    (h : session.forest.declared? session.scope name = some id) :
    add name session = .error (.error (.duplicate session.location name)) session := by
  unfold add Forest.add
  rw [get_bind, Forest.add?_eq, h]
  rfl

theorem find_eq_ok {name : String} {id : SymbolId}
    (h : session.forest.find? session.scope name = some id) :
    find name session = .ok id session := by
  unfold find Forest.find
  rw [get_bind, h]
  rfl

theorem find_eq_error {name : String} (h : session.forest.find? session.scope name = none) :
    find name session = .error (.error (.unresolved session.location name)) session := by
  unfold find Forest.find
  rw [get_bind, h]
  rfl

theorem symbol_eq {id : SymbolId} {found : Symbol}
    (h : session.forest.symbols[id]? = some found) : symbol id session = .ok found session := by
  unfold symbol
  rw [get_bind]
  apply orFault_eq_ok
  simp [Forest.symbol, fetch, h]

theorem update_eq {id : SymbolId} {change : Symbol → Except Fault Symbol} {found changed : Symbol}
    (h : session.forest.symbols[id]? = some found) (hchange : change found = .ok changed) :
    update id change session = .ok () (session.withSymbol id changed) := by
  unfold update Forest.update
  rw [get_bind]
  rw [bind_eq_ok (orFault_eq_ok (session.forest.withSymbol id changed) _)]
  · rfl
  · simp [Forest.symbol, fetch, h, hchange, bind, Except.bind, pure, Except.pure,
      Forest.withSymbol]

theorem declare_eq {id : SymbolId} {found : Symbol}
    (h : session.forest.symbols[id]? = some found) (hfound : found.meaning? = none)
    (meaning : Meaning) : declare id meaning session =
      .ok () (session.withSymbol id { found with meaning? := some meaning }) := by
  unfold declare
  apply update_eq h
  simp [Symbol.declare, hfound]

theorem declareLiteral_eq {id : SymbolId} {found : Symbol}
    (h : session.forest.symbols[id]? = some found) (hfound : found.meaning? = none)
    (text : String) : declareLiteral id text session =
      .ok () ((session.told (.event (.literalDeclared found.name text))).withSymbol id
        { found with meaning? := some (.literal text) }) := by
  have htold : (session.told (.event (.literalDeclared found.name text))).forest.symbols[id]? =
      some found := h
  unfold declareLiteral
  rw [bind_eq_ok (symbol_eq h), bind_eq_ok (record_eq _)]
  exact declare_eq htold hfound _

theorem declareCell_eq {id : SymbolId} {found : Symbol}
    (h : session.forest.symbols[id]? = some found) (hfound : found.meaning? = none)
    (type : IntType) : ∃ event, declareCell id type session =
      .ok session.builder.code.globals.length
        (((session.withGlobal (session.path found.name) (.int type.width)).told
          (.event (.cellDeclared found.name event type))).withSymbol id
            { found with meaning? := some (.cell session.builder.code.globals.length type) }) := by
  let path := session.path found.name
  let ty : Ty := .int type.width
  have hmade : Module.global (session.builder.code.addGlobal path ty).2
      session.builder.code.globals.length = .ok ⟨fresh session.builder.code.taken path, ty⟩ := by
    simp [Module.global, fetch, Module.addGlobal]
  have hglobal : build (Build.createGlobal path ty) session =
      .ok session.builder.code.globals.length (session.withGlobal path ty) :=
    build_eq_ok (Build.change_eq_ok _ _ rfl)
  have hview : build (Build.view fun code => code.global session.builder.code.globals.length)
      (session.withGlobal path ty) = .ok ⟨fresh session.builder.code.taken path, ty⟩
        (session.withGlobal path ty) :=
    build_eq_ok (Build.view_eq_ok _ hmade)
  refine ⟨fresh session.builder.code.taken path, ?_⟩
  unfold declareCell
  rw [bind_eq_ok (symbol_eq h), get_bind, bind_eq_ok hglobal, bind_eq_ok hview,
    bind_eq_ok (record_eq _)]
  rw [bind_eq_ok (declare_eq (show ((session.withGlobal path ty).told _).forest.symbols[id]? =
    some found from h) hfound _)]
  rfl

theorem setBlock_eq {found : Symbol} {function : FunctionId} {before : BlockRef}
    (h : found.meaning? = some (.procedure function before)) (block : BlockRef) :
    found.setBlock block = .ok { found with meaning? := some (.procedure function block) } := by
  simp [Symbol.setBlock, Symbol.procedure, h, bind, Except.bind, pure, Except.pure]

theorem procedure_eq {found : Symbol} {function : FunctionId} {block : BlockRef}
    (h : found.meaning? = some (.procedure function block)) :
    found.procedure = .ok (function, block) := by
  simp [Symbol.procedure, h]

theorem currentProcedure_eq {id : SymbolId} {rest : List SymbolId}
    (h : session.procedures = id :: rest) : currentProcedure session = .ok id session := by
  unfold currentProcedure
  rw [get_bind, h]
  rfl

theorem currentBlock_eq {block : BlockRef} (h : session.builder.cursor = some block) :
    currentBlock session = .ok block session := by
  unfold currentBlock
  rw [get_bind, h]
  rfl

theorem setCurrentBlock_eq {id : SymbolId} {rest : List SymbolId} {found : Symbol}
    {function : FunctionId} {before : BlockRef} (hprocedures : session.procedures = id :: rest)
    (h : session.forest.symbols[id]? = some found)
    (hfound : found.meaning? = some (.procedure function before)) (block : BlockRef) :
    setCurrentBlock block session =
      .ok () ((session.withSymbol id
        { found with meaning? := some (.procedure function block) }).movedTo block) := by
  unfold setCurrentBlock
  rw [bind_eq_ok (currentProcedure_eq hprocedures)]
  rw [bind_eq_ok (update_eq h (setBlock_eq hfound block))]
  rfl

theorem appendBlock_eq {id : SymbolId} {rest : List SymbolId} {found : Symbol}
    {function : FunctionId} {before : BlockRef} {draft : Draft}
    (hprocedures : session.procedures = id :: rest)
    (h : session.forest.symbols[id]? = some found)
    (hfound : found.meaning? = some (.procedure function before))
    (hat : session.builder.At function draft) (label : String) :
    appendBlock label session = .ok ⟨function, draft.blocks.length⟩
      (session.redraft function (draft.openBlock label)) := by
  unfold appendBlock
  rw [bind_eq_ok (currentProcedure_eq hprocedures), bind_eq_ok (symbol_eq h)]
  rw [bind_eq_ok (orFault_eq_ok _ (procedure_eq hfound))]
  exact build_eq_ok (Build.appendBlock_eq hat label)

/-- What is left of beginning a procedure once the one around it has noted where it stands. -/
def openProcedure (id : SymbolId) (path : String) (internal : Bool) : Compiler Unit := do
  let function ← build (Build.createFunction path internal)
  let entry ← build (Build.appendBlock function "entry")
  declare id (.procedure function entry)
  modify fun session => { session with procedures := id :: session.procedures }
  moveTo entry
  record (.procedureBegun path (← get).procedures.length)

theorem beginProcedure_eq (id : SymbolId) :
    beginProcedure id = (do
      let found ← symbol id
      let session ← get
      if let (outer :: _, some block) := (session.procedures, session.builder.cursor) then
        update outer fun symbol => symbol.setBlock block
      openProcedure id (session.path found.name) !session.procedures.isEmpty) := rfl

/-- What is left of a procedure once all that stands inside it is dealt with. -/
def closeProcedure : Compiler Unit := do
  unless ← build (Build.isTerminated (← currentBlock)) do
    build Build.ret
  leaveScope
  endProcedure
  tell .leave

theorem within_eq (id : SymbolId) (inside : Compiler Unit) :
    within id inside = (do
      tell (.enter (.procedure (← symbol id).name))
      beginProcedure id
      enterScope
      inside
      closeProcedure) := rfl

theorem openProcedure_eq {id : SymbolId} {found : Symbol}
    (h : session.forest.symbols[id]? = some found) (hfound : found.meaning? = none)
    (path : String) (internal : Bool) (procedures : List SymbolId)
    (hprocedures : session.procedures = procedures) :
    openProcedure id path internal session =
      .ok () ((session.begun id found path internal).told
        (.event (.procedureBegun path (procedures.length + 1)))) := by
  let function := session.builder.code.functions.length
  let bare : Session := { session with
    builder.code := (session.builder.code.addFunction path internal).2 }
  have hcreate : build (Build.createFunction path internal) session = .ok function bare :=
    build_eq_ok (Build.change_eq_ok _ _ rfl)
  have hblocks : Module.appendBlock (session.builder.code.addFunction path internal).2 function
      "entry" = .ok (⟨function, 0⟩, (session.withFunction path internal).builder.code) := by
    have hfunction : (session.builder.code.addFunction path internal).2.functions[function]? =
        some (.bare (fresh session.builder.code.taken path) internal) := by
      simp [Module.addFunction, function]
    rw [Module.appendBlock_eq hfunction]
    simp only [Session.withFunction, Module.modifyFunction, Module.addFunction, function,
      modify_middle]
    rfl
  have happend : build (Build.appendBlock function "entry") bare =
      .ok ⟨function, 0⟩ (session.withFunction path internal) :=
    build_eq_ok (Build.change_eq_ok _ _ hblocks)
  have hdeclared : (session.withFunction path internal).forest.symbols[id]? = some found := h
  unfold openProcedure
  rw [bind_eq_ok hcreate, bind_eq_ok happend, bind_eq_ok (declare_eq hdeclared hfound _)]
  subst hprocedures
  rfl

theorem beginProcedure_outermost {id : SymbolId} {found : Symbol}
    (h : session.forest.symbols[id]? = some found) (hfound : found.meaning? = none)
    (hprocedures : session.procedures = []) : beginProcedure id session =
      .ok () ((session.begun id found (session.path found.name) false).told
        (.event (.procedureBegun (session.path found.name) 1))) := by
  rw [beginProcedure_eq, bind_eq_ok (symbol_eq h), get_bind]
  simp only [hprocedures]
  exact openProcedure_eq h hfound _ _ _ hprocedures

theorem beginProcedure_nested {id outer : SymbolId} {rest : List SymbolId} {found around : Symbol}
    {function : FunctionId} {before block : BlockRef}
    (h : session.forest.symbols[id]? = some found) (hfound : found.meaning? = none)
    (hprocedures : session.procedures = outer :: rest)
    (houter : session.forest.symbols[outer]? = some around)
    (haround : around.meaning? = some (.procedure function before))
    (hcursor : session.builder.cursor = some block) : beginProcedure id session =
      .ok () (((session.withSymbol outer
        { around with meaning? := some (.procedure function block) }).begun id found
          (session.path found.name) true).told
            (.event (.procedureBegun (session.path found.name) (rest.length + 2)))) := by
  have hne : outer ≠ id := by
    rintro rfl
    rw [houter] at h
    cases h
    rw [haround] at hfound
    cases hfound
  have hparked : (session.withSymbol outer
      { around with meaning? := some (.procedure function block) }).forest.symbols[id]? =
        some found := by
    simp [Session.withSymbol, Forest.withSymbol, hne, h]
  rw [beginProcedure_eq, bind_eq_ok (symbol_eq h), get_bind]
  simp only [hprocedures, hcursor]
  rw [bind_eq_ok (update_eq houter (setBlock_eq haround block))]
  exact openProcedure_eq hparked hfound _ _ _ hprocedures

theorem endProcedure_outermost {id : SymbolId} {found : Symbol}
    (hprocedures : session.procedures = [id]) (h : session.forest.symbols[id]? = some found) :
    endProcedure session = .ok () (session.told (.event (.outermostEnded found.name))) := by
  unfold endProcedure
  rw [get_bind, hprocedures]
  exact bind_eq_ok (symbol_eq h)

theorem endProcedure_nested {id outer : SymbolId} {rest : List SymbolId} {found around : Symbol}
    {function : FunctionId} {block : BlockRef}
    (hprocedures : session.procedures = id :: outer :: rest)
    (h : session.forest.symbols[id]? = some found)
    (houter : session.forest.symbols[outer]? = some around)
    (haround : around.meaning? = some (.procedure function block)) :
    endProcedure session = .ok () (((session.withProcedures (outer :: rest)).told
      (.event (.procedureEnded found.name))).movedTo block) := by
  have hfound : (session.withProcedures (outer :: rest)).forest.symbols[id]? = some found := h
  have hrest : ((session.withProcedures (outer :: rest)).told
      (.event (.procedureEnded found.name))).forest.symbols[outer]? = some around := houter
  have hmodify : (modify fun session : Session => { session with procedures := outer :: rest } :
      Compiler Unit) session = .ok () (session.withProcedures (outer :: rest)) := rfl
  unfold endProcedure
  rw [get_bind, hprocedures]
  dsimp only
  rw [bind_eq_ok hmodify, bind_eq_ok (symbol_eq hfound), bind_eq_ok (record_eq _),
    bind_eq_ok (symbol_eq hrest), bind_eq_ok (orFault_eq_ok _ (procedure_eq haround))]
  rfl

end Compiler

end BlockLang
