import Mathlib.Order.Defs.Unbundled
import BlockLang.Proofs.Intake
import BlockLang.Proofs.Session.Laying

/-! The sessions that can be met in the course of a compilation. Whatever is done there is done in
a few kinds of steps, so what each of these keeps is kept throughout, also when work breaks off. -/

namespace BlockLang

open Code Names BlockLang.Tree

/-- The session that a step leaves, also where it fails. -/
def Session.after {α : Type} (session : Session) (step : Compiler α) : Session :=
  match step session with
  | .ok _ next => next
  | .error _ next => next

namespace Compiler

/-- The steps that all work on a session is made of. -/
inductive Primitive : {α : Type} → Compiler α → Prop
  | locate (place : Place) : Primitive (locate place)
  | tell (entry : Log.Entry) : Primitive (tell entry)
  | enterScope : Primitive enterScope
  | leaveScope : Primitive leaveScope
  | add (name : String) : Primitive (add name)
  | declareLiteral (id : SymbolId) (text : String) : Primitive (declareLiteral id text)
  | declareCell (id : SymbolId) {type : IntType} (htype : type ∈ IntType.declarable) :
    Primitive (declareCell id type)
  | beginProcedure (id : SymbolId) : Primitive (beginProcedure id)
  | endProcedure : Primitive endProcedure
  | setCurrentBlock (block : BlockRef) : Primitive (setCurrentBlock block)
  | appendBlock (label : String) : Primitive (appendBlock label)
  | freshRegister (type : Ty) : Primitive (build (Build.freshRegister type))
  | emit (instr : Instr) : Primitive (build (Build.emit instr))

end Compiler

/-- The session can come about from a new one, by steps in any order that may fail as well. -/
inductive Session.Reached (file : String) : Session → Prop
  | start : Reached file (.start file)
  | step {α : Type} {session : Session} {step : Compiler α} (h : Reached file session)
    (hstep : Compiler.Primitive step) : Reached file (session.after step)

namespace Compiler

section

variable {α β : Type} {leads : Session → Session → Prop}

/-- However the step ends, it leads from one session to the other. -/
def Moves (leads : Session → Session → Prop) (step : Compiler α) : Prop :=
  ∀ session : Session, leads session (session.after step)

variable [IsPreorder Session leads]

/-- A step that only looks at the session. -/
theorem moves_of_still {step : Compiler α} (h : ∀ session : Session, session.after step = session) :
    Moves leads step := by
  intro session
  rw [h session]
  exact refl_of leads session

@[grind ←] theorem moves_pure (value : α) : Moves leads (pure value) :=
  moves_of_still fun _ => rfl

@[grind ←] theorem moves_get : Moves leads get :=
  moves_of_still fun _ => rfl

@[grind ←] theorem moves_throw (failure : Failure) : Moves leads (throw failure : Compiler α) :=
  moves_of_still fun _ => rfl

@[grind ←] theorem moves_fail (error : Error) : Moves leads (fail error : Compiler α) :=
  moves_throw _

@[grind ←] theorem moves_orFault (result : Except Fault α) : Moves leads (orFault result) := by
  cases result <;> exact moves_of_still fun _ => rfl

@[grind ←] theorem moves_orFail (result : Except Error α) : Moves leads (orFail result) := by
  cases result <;> exact moves_of_still fun _ => rfl

@[grind ←] theorem Moves.bind {step : Compiler α} {next : α → Compiler β} (h : Moves leads step)
    (hnext : ∀ value, Moves leads (next value)) : Moves leads (step >>= next) := by
  intro session
  have hfirst := h session
  unfold Session.after at hfirst ⊢
  have hrun : (step >>= next) session = EStateM.bind step next session := rfl
  rw [hrun, EStateM.bind]
  cases hstep : step session with
  | ok value middle =>
    rw [hstep] at hfirst
    exact trans_of leads hfirst (hnext value middle)
  | error failure _ =>
    rw [hstep] at hfirst
    exact hfirst

theorem Moves.discard {step : Compiler α} (h : Moves leads step) : Moves leads (discard step) :=
  h.bind fun _ => moves_pure _

theorem Moves.forM {step : α → Compiler PUnit} (items : List α)
    (h : ∀ item ∈ items, Moves leads (step item)) : Moves leads (items.forM step) := by
  induction items with
  | nil => exact moves_pure _
  | cons item rest ih =>
    exact (h item List.mem_cons_self).bind fun _ =>
      ih fun other hother => h other (List.mem_cons_of_mem _ hother)

@[grind ←] theorem moves_find (name : String) : Moves leads (find name) := by
  grind [find]

@[grind ←] theorem moves_symbol (id : SymbolId) : Moves leads (symbol id) := by
  grind [Compiler.symbol]

@[grind ←] theorem moves_currentProcedure : Moves leads currentProcedure := by
  grind [currentProcedure, internal]

@[grind ←] theorem moves_currentBlock : Moves leads currentBlock := by
  grind [currentBlock, internal]

theorem build_bind (step : Build α) (next : α → Build β) :
    build (step >>= next) = build step >>= fun value => build (next value) := by
  funext session
  have hrun (builder : Builder) : (step >>= next) builder = EStateM.bind step next builder := rfl
  have hrun' : (build step >>= fun value => build (next value)) session =
      EStateM.bind (build step) (fun value => build (next value)) session := rfl
  rw [hrun', EStateM.bind]
  unfold build
  rw [hrun, EStateM.bind]
  cases step session.builder <;> rfl

@[grind ←] theorem moves_build_bind {step : Build α} {next : α → Build β}
    (h : Moves leads (build step)) (hnext : ∀ value, Moves leads (build (next value))) :
    Moves leads (build (step >>= next)) := by
  rw [build_bind]
  exact h.bind hnext

@[grind ←] theorem moves_build_pure (value : α) : Moves leads (build (pure value)) :=
  moves_of_still fun _ => rfl

@[grind ←] theorem moves_build_get : Moves leads (build get) :=
  moves_of_still fun _ => rfl

@[grind ←] theorem moves_build_throw (failure : Failure) :
    Moves leads (build (throw failure : Build α)) :=
  moves_of_still fun _ => rfl

theorem after_build_change_ok {action : Module → Except Fault (α × Module)} {session : Session}
    {value : α} {code : Module} (h : action session.builder.code = .ok (value, code)) :
    session.after (build (Build.change action)) = { session with builder.code := code } := by
  unfold Session.after build
  rw [Build.change_eq_ok value code h]

theorem after_build_change_error {action : Module → Except Fault (α × Module)} {session : Session}
    {fault : Fault} (h : action session.builder.code = .error fault) :
    session.after (build (Build.change action)) = session := by
  unfold Session.after build
  rw [Build.change_eq_error h]

@[grind ←] theorem moves_build_view (look : Module → Except Fault α) :
    Moves leads (build (Build.view look)) := by
  apply moves_of_still
  intro session
  cases hlook : look session.builder.code with
  | ok value =>
    have hchange : (do return (← look session.builder.code, session.builder.code)) =
        Except.ok (value, session.builder.code) := by
      rw [hlook]
      rfl
    exact after_build_change_ok hchange
  | error fault =>
    have hchange : (do return (← look session.builder.code, session.builder.code)) =
        Except.error fault := by
      rw [hlook]
      rfl
    exact after_build_change_error hchange

@[grind ←] theorem moves_build_isTerminated (block : BlockRef) :
    Moves leads (build (Build.isTerminated block)) :=
  moves_build_view _

end

end Compiler

/-- Where the first session can be met, the second can. -/
def Session.Onto (file : String) (first second : Session) : Prop :=
  first.Reached file → second.Reached file

instance (file : String) : IsPreorder Session (Session.Onto file) where
  refl _ h := h
  trans _ _ _ h h' hfirst := h' (h hfirst)

namespace Compiler

variable {α : Type} {file : String}

theorem Primitive.moves {step : Compiler α} (h : Primitive step) :
    Moves (Session.Onto file) step :=
  fun _ hreached => hreached.step h

@[grind ←] theorem stays_locate (place : Place) : Moves (Session.Onto file) (locate place) :=
  (Primitive.locate place).moves

@[grind ←] theorem stays_tell (entry : Log.Entry) : Moves (Session.Onto file) (tell entry) :=
  (Primitive.tell entry).moves

@[grind ←] theorem stays_record (event : Log.Event) : Moves (Session.Onto file) (record event) :=
  stays_tell _

@[grind ←] theorem stays_setCurrentBlock (block : BlockRef) :
    Moves (Session.Onto file) (setCurrentBlock block) :=
  (Primitive.setCurrentBlock block).moves

@[grind ←] theorem stays_appendBlock (label : String) :
    Moves (Session.Onto file) (appendBlock label) :=
  (Primitive.appendBlock label).moves

@[grind ←] theorem stays_freshRegister (type : Ty) :
    Moves (Session.Onto file) (build (Build.freshRegister type)) :=
  (Primitive.freshRegister type).moves

@[grind ←] theorem stays_emitInstr (instr : Instr) :
    Moves (Session.Onto file) (build (Build.emit instr)) :=
  (Primitive.emit instr).moves

@[grind ←] theorem stays_load (source : GlobalId) :
    Moves (Session.Onto file) (build (Build.load source)) := by
  grind [Build.load]

@[grind ←] theorem stays_binary (op : BinOp) (left right : Value) :
    Moves (Session.Onto file) (build (Build.binary op left right)) := by
  grind [Build.binary]

@[grind ←] theorem stays_compareValues (predicate : Predicate) (left right : Value) :
    Moves (Session.Onto file) (build (Build.compare predicate left right)) := by
  grind [Build.compare]

@[grind ←] theorem stays_intCast (value : Value) (type : Ty) (signed : Bool) :
    Moves (Session.Onto file) (build (Build.intCast value type signed)) := by
  cases value <;> grind [Build.intCast]

@[grind ←] theorem stays_raise (mistake : Mistake) :
    Moves (Session.Onto file) (raise mistake : Compiler α) := by
  unfold raise
  split <;> grind

@[grind ←] theorem stays_resolve (name : Ident) : Moves (Session.Onto file) (resolve name) := by
  grind [resolve]

@[grind ←] theorem stays_mismatch (symbol : Symbol) (expected : String) :
    Moves (Session.Onto file) (mismatch symbol expected : Compiler α) := by
  grind [mismatch]

@[grind ←] theorem stays_resolveAs (kind : Kind) (name : Ident) :
    Moves (Session.Onto file) (resolveAs kind name) := by
  grind [resolveAs]

@[grind ←] theorem stays_loadName (name : Ident) : Moves (Session.Onto file) (loadName name) := by
  refine (stays_resolve name).bind fun symbol => ?_
  split
  · split <;> grind
  · grind
  · grind

@[grind ←] theorem stays_unify (left right : Operand) :
    Moves (Session.Onto file) (unify left right) := by
  grind [unify]

@[grind ←] theorem stays_combine (op : Operator) (left right : Operand) :
    Moves (Session.Onto file) (combine op left right) := by
  grind [combine]

@[grind ←] theorem stays_negate (operand : Operand) :
    Moves (Session.Onto file) (negate operand) := by
  grind [Compiler.negate]

@[grind ←] theorem stays_compare (op : Comparison) (left right : Operand) :
    Moves (Session.Onto file) (Compiler.compare op left right) := by
  grind [Compiler.compare]

@[grind ←] theorem stays_jumpIfOpen (target : BlockRef) :
    Moves (Session.Onto file) (jumpIfOpen target) := by
  grind [jumpIfOpen, Build.jump]

end Compiler

open Compiler

namespace Tree

variable {file : String}

theorem Expr.stays_emit (expr : Expr) : Moves (Session.Onto file) expr.emit := by
  induction expr with
  | number value => exact moves_pure _
  | name ident => exact stays_loadName ident
  | negate operand ih => exact ih.bind fun value => stays_negate value
  | binary op left right ihleft ihright =>
    exact ihleft.bind fun first => ihright.bind fun second => stays_combine op first second
  | missing mistake => exact stays_raise mistake
  | unclosed inner mistake ih => exact ih.discard.bind fun _ => stays_raise mistake

theorem Cond.stays_emit (cond : Cond) : Moves (Session.Onto file) cond.emit := by
  cases cond with
  | compare op left right =>
    exact left.stays_emit.bind fun first => right.stays_emit.bind fun second =>
      stays_compare op first second
  | half left mistake => exact left.stays_emit.discard.bind fun _ => stays_raise mistake
  | unfollowed op left right mistake =>
    refine left.stays_emit.bind fun first => right.stays_emit.bind fun second => ?_
    exact (stays_compare op first second).discard.bind fun _ => stays_raise mistake

theorem ConstValue.stays_emit (value : ConstValue) : Moves (Session.Onto file) value.emit := by
  cases value with
  | text spelling => exact moves_pure _
  | copy source => exact (stays_resolveAs .literal source).bind fun _ => moves_orFault _

theorem Ident.stays_declare (name : Ident) : Moves (Session.Onto file) name.declare :=
  (stays_locate name.place).bind fun _ => (Primitive.add name.name).moves

theorem Declaration.stays_emit {declaration : Declaration} (h : declaration.Declarable) :
    Moves (Session.Onto file) declaration.emit := by
  cases declaration with
  | const name value =>
    exact value.stays_emit.bind fun text => name.stays_declare.bind fun id =>
      (Primitive.declareLiteral id text).moves
  | vars names type =>
    refine Moves.forM names fun name _ => ?_
    exact name.stays_declare.bind fun id => (Primitive.declareCell id h).moves.discard
  | stop mistake => exact stays_raise mistake
  | unendedCopy source mistake =>
    exact (ConstValue.stays_emit (.copy source)).discard.bind fun _ => stays_raise mistake

theorem Stmt.stays_emit {stmt : Stmt} (h : stmt.Declarable) :
    Moves (Session.Onto file) stmt.emit := by
  induction stmt with
  | skip => exact moves_pure _
  | seq first second ihfirst ihsecond => exact (ihfirst h.1).bind fun _ => ihsecond h.2
  | assign target value =>
    refine (stays_resolveAs .cell target).bind fun symbol => ?_
    refine value.stays_emit.bind fun operand => ?_
    grind [Build.store]
  | call callee =>
    refine (stays_resolveAs .procedure callee).bind fun symbol => ?_
    grind [Build.call]
  | branch condition yes no ihyes ihno =>
    refine condition.stays_emit.bind fun value => ?_
    refine (stays_appendBlock "then").bind fun thenBlock => ?_
    refine (stays_appendBlock "else").bind fun elseBlock => ?_
    refine (stays_appendBlock "endif").bind fun merge => ?_
    refine (stays_emitInstr _).bind fun _ => ?_
    refine (stays_setCurrentBlock thenBlock).bind fun _ => ?_
    refine (ihyes h.1).bind fun _ => ?_
    refine (stays_jumpIfOpen merge).bind fun _ => ?_
    refine (stays_setCurrentBlock elseBlock).bind fun _ => ?_
    refine (ihno h.2).bind fun _ => ?_
    exact (stays_jumpIfOpen merge).bind fun _ => stays_setCurrentBlock merge
  | loop condition body ih =>
    refine (stays_appendBlock "while.cond").bind fun test => ?_
    refine (stays_appendBlock "while.body").bind fun bodyBlock => ?_
    refine (stays_appendBlock "while.end").bind fun exit => ?_
    refine (stays_jumpIfOpen test).bind fun _ => ?_
    refine (stays_setCurrentBlock test).bind fun _ => ?_
    refine condition.stays_emit.bind fun value => ?_
    refine (stays_emitInstr _).bind fun _ => ?_
    refine (stays_setCurrentBlock bodyBlock).bind fun _ => ?_
    refine (ih h).bind fun _ => ?_
    exact (stays_jumpIfOpen test).bind fun _ => stays_setCurrentBlock exit
  | ret =>
    refine (stays_emitInstr _).bind fun _ => ?_
    exact (stays_appendBlock "after.return").bind fun block => stays_setCurrentBlock block
  | block locals body ih =>
    refine Primitive.enterScope.moves.bind fun _ => ?_
    refine (Moves.forM locals fun declaration hmem =>
      Declaration.stays_emit (h.1 declaration hmem)).bind fun _ => ?_
    exact (ih h.2).bind fun _ => Primitive.leaveScope.moves
  | stop mistake => exact stays_raise mistake

theorem Heading.stays_emit (heading : Heading) : Moves (Session.Onto file) heading.emit := by
  cases heading with
  | named name => exact name.stays_declare
  | unnamed mistake => exact stays_raise mistake
  | unended name mistake => exact name.stays_declare.discard.bind fun _ => stays_raise mistake

theorem stays_closeProcedure : Moves (Session.Onto file) closeProcedure := by
  have hclose : Moves (Session.Onto file) (do leaveScope; endProcedure; tell .leave) :=
    Primitive.leaveScope.moves.bind fun _ => Primitive.endProcedure.moves.bind fun _ => stays_tell _
  refine moves_currentBlock.bind fun block => ?_
  refine (moves_build_isTerminated block).bind fun terminated => ?_
  dsimp only
  split
  · exact hclose
  · exact (stays_emitInstr _).bind fun _ => hclose

theorem stays_within (id : SymbolId) {inside : Compiler Unit}
    (h : Moves (Session.Onto file) inside) : Moves (Session.Onto file) (within id inside) := by
  rw [within_eq]
  refine (moves_symbol id).bind fun symbol => ?_
  refine (stays_tell _).bind fun _ => ?_
  refine (Primitive.beginProcedure id).moves.bind fun _ => ?_
  refine Primitive.enterScope.moves.bind fun _ => ?_
  exact h.bind fun _ => stays_closeProcedure

theorem Decls.stays_emit {decls : Decls} (h : decls.Declarable) :
    Moves (Session.Onto file) decls.emit := by
  induction decls with
  | nil => exact moves_pure _
  | plain declaration rest ih => exact (Declaration.stays_emit h.1).bind fun _ => ih h.2
  | nested heading locals body rest ihlocals ihrest =>
    obtain ⟨hlocals, hbody, hrest⟩ := h
    refine heading.stays_emit.bind fun id => ?_
    refine (stays_within id ?_).bind fun _ => ihrest hrest
    exact (ihlocals hlocals).bind fun _ => Stmt.stays_emit hbody
  | stop mistake => exact stays_raise mistake

theorem Program.stays_emit {program : Program} (h : program.decls.Declarable) :
    Moves (Session.Onto file) program.emit := by
  refine (Decls.stays_emit h).bind fun _ => ?_
  split
  · exact stays_locate _
  · exact moves_pure _

end Tree

/-- Whatever a new session is given, it comes to sessions that can be met. -/
theorem Session.reached_fed (file : String) (inputs : List Input) :
    ((Session.start file).fed inputs).Reached file := by
  have htokens : ∀ tokens, Moves (Session.Onto file) (takeTokens tokens) :=
    fun tokens => Program.stays_emit (Program.declarable_ofTokens tokens)
  have htake : ∀ input : Input, Moves (Session.Onto file) input.take := by
    intro input
    cases input with
    | tokens tokens => exact htokens tokens
    | source text =>
      exact moves_get.bind fun session => (moves_orFail _).bind fun tokens => htokens tokens
  unfold fed
  have hstart : (Session.start file).Reached file := .start
  generalize Session.start file = session at hstart
  induction inputs generalizing session with
  | nil => exact hstart
  | cons input rest ih =>
    have hgiven : session.given input = session.after input.take := by
      unfold Session.given Session.after
      cases input.take session <;> rfl
    exact ih (session.given input) (hgiven ▸ htake input session hstart)

namespace Session

/-- The globals are those of the cells, and what a variable stands for is one of these. -/
structure Typed (session : Session) (cells : List IntType) : Prop where
  declarable : ∀ type ∈ cells, type ∈ IntType.declarable
  globals : session.builder.code.globals.map Global.type = cells.map IntType.backend
  meanings : ∀ id global type, session.forest.meaning? id = some (.cell global type) →
    cells[global]? = some type

/-- No global is made, and no symbol becomes a variable but for those of `extra`. -/
structure Declares (extra : GlobalId → IntType → Prop) (before after : Session) : Prop where
  globals : after.builder.code.globals = before.builder.code.globals
  meanings : ∀ id global type, after.forest.meaning? id = some (.cell global type) →
    before.forest.meaning? id = some (.cell global type) ∨ extra global type

variable {extra : GlobalId → IntType → Prop} {before after : Session} {cells : List IntType}

instance : IsPreorder Session (Declares extra) where
  refl _ := ⟨rfl, fun _ _ _ h => .inl h⟩
  trans _ _ _ h h' := by
    refine ⟨h'.globals.trans h.globals, fun id global type hlast => ?_⟩
    rcases h'.meanings id global type hlast with hmiddle | hextra
    · exact h.meanings id global type hmiddle
    · exact .inr hextra

theorem Typed.declares (h : before.Typed cells) (hdeclares : Declares extra before after)
    (hextra : ∀ global type, extra global type → cells[global]? = some type) :
    after.Typed cells := by
  refine ⟨h.declarable, by rw [hdeclares.globals, h.globals], fun id global type hmeaning => ?_⟩
  rcases hdeclares.meanings id global type hmeaning with hbefore | hnew
  · exact h.meanings id global type hbefore
  · exact hextra global type hnew

/-- Symbols and globals stay. -/
theorem declares_of_same (hforest : ∀ id, after.forest.meaning? id = before.forest.meaning? id)
    (hcode : after.builder.code.globals = before.builder.code.globals) :
    Declares extra before after :=
  ⟨hcode, fun id _ _ h => .inl ((hforest id).symm.trans h)⟩

end Session

namespace Compiler

variable {α : Type} {extra : GlobalId → IntType → Prop}

theorem declares_modify {change : Session → Session}
    (h : ∀ session, Session.Declares extra session (change session)) :
    Moves (Session.Declares extra) (modify change) := h

@[grind ←] theorem declares_locate (place : Place) :
    Moves (Session.Declares extra) (locate place) :=
  declares_modify fun _ => Session.declares_of_same (fun _ => rfl) rfl

@[grind ←] theorem declares_tell (entry : Log.Entry) :
    Moves (Session.Declares extra) (tell entry) :=
  declares_modify fun _ => Session.declares_of_same (fun _ => rfl) rfl

@[grind ←] theorem declares_record (event : Log.Event) :
    Moves (Session.Declares extra) (record event) :=
  declares_tell _

theorem declares_enterScope : Moves (Session.Declares extra) enterScope :=
  fun _ => Session.declares_of_same (fun _ => rfl) rfl

theorem declares_leaveScope : Moves (Session.Declares extra) leaveScope := by
  intro session
  unfold Session.after
  cases hparent : session.forest.parent? session.scope with
  | some scope =>
    rw [leaveScope_eq hparent]
    exact Session.declares_of_same (fun _ => rfl) rfl
  | none =>
    unfold leaveScope
    rw [get_bind, hparent]
    exact Session.declares_of_same (fun _ => rfl) rfl

theorem declares_add (name : String) : Moves (Session.Declares extra) (add name) := by
  intro session
  unfold Session.after
  cases hname : session.forest.declared? session.scope name with
  | some id =>
    rw [add_eq_error hname]
    exact refl_of (Session.Declares extra) session
  | none =>
    rw [add_eq_ok hname]
    exact Session.declares_of_same (fun id => Forest.meaning?_added _ _ _ id) rfl

/-- A symbol is changed, and does not become a variable but for those of `extra`. -/
theorem declares_update {id : SymbolId} {change : Symbol → Except Fault Symbol}
    (h : ∀ symbol changed global type, change symbol = .ok changed →
      changed.meaning? = some (.cell global type) → extra global type) :
    Moves (Session.Declares extra) (update id change) := by
  intro session
  cases hupdate : session.forest.update id change with
  | error fault =>
    unfold Session.after update
    rw [get_bind, hupdate]
    exact refl_of (Session.Declares extra) session
  | ok forest =>
    obtain ⟨symbol, hsymbol, hrest⟩ := Except.exists_of_bind_eq_ok hupdate
    obtain ⟨changed, hchange, -⟩ := Except.exists_of_bind_eq_ok hrest
    have hfound := fetch_eq_ok.1 hsymbol
    unfold Session.after
    rw [update_eq hfound hchange]
    refine ⟨rfl, fun other global type hmeaning => ?_⟩
    change (session.forest.withSymbol id changed).meaning? other = _ at hmeaning
    rw [Forest.meaning?_withSymbol (List.getElem?_eq_some_iff.1 hfound).1] at hmeaning
    split at hmeaning
    · exact .inr (h symbol changed global type hchange hmeaning)
    · exact .inl hmeaning

/-- A change of the code that makes no global. -/
theorem declares_change {action : Module → Except Fault (α × Module)}
    (h : ∀ code value next, action code = .ok (value, next) → next.globals = code.globals) :
    Moves (Session.Declares extra) (build (Build.change action)) := by
  intro session
  cases haction : action session.builder.code with
  | error fault =>
    rw [after_build_change_error haction]
    exact refl_of (Session.Declares extra) session
  | ok result =>
    obtain ⟨value, next⟩ := result
    rw [after_build_change_ok haction]
    exact Session.declares_of_same (fun _ => rfl) (h _ _ _ haction)

theorem declares_freshRegister (type : Ty) :
    Moves (Session.Declares extra) (build (Build.freshRegister type)) := by
  refine moves_build_bind ?_ fun block => declares_change ?_
  · grind [Build.here]
  · intro code value next h
    obtain ⟨_, -, hnext⟩ := Except.exists_of_bind_eq_ok h
    cases hnext
    rfl

theorem declares_emit (instr : Instr) :
    Moves (Session.Declares extra) (build (Build.emit instr)) := by
  refine moves_build_bind ?_ fun block => declares_change ?_
  · grind [Build.here]
  · intro code value next h
    obtain ⟨pushed, hpush, hnext⟩ := Except.exists_of_bind_eq_ok h
    obtain ⟨_, -, hpushed⟩ := Except.exists_of_bind_eq_ok hpush
    cases hnext
    cases hpushed
    rfl

theorem declares_build_appendBlock (function : FunctionId) (label : String) :
    Moves (Session.Declares extra) (build (Build.appendBlock function label)) := by
  apply declares_change
  intro code value next h
  obtain ⟨_, -, hnext⟩ := Except.exists_of_bind_eq_ok h
  cases hnext
  rfl

theorem declares_createFunction (name : String) (internal : Bool) :
    Moves (Session.Declares extra) (build (Build.createFunction name internal)) := by
  apply declares_change
  rintro code value next ⟨⟩
  rfl

@[grind ←] theorem declares_moveTo (block : BlockRef) :
    Moves (Session.Declares extra) (moveTo block) :=
  fun _ => Session.declares_of_same (fun _ => rfl) rfl

@[grind ←] theorem declares_declare (id : SymbolId) {meaning : Meaning}
    (h : ∀ global type, meaning = .cell global type → extra global type) :
    Moves (Session.Declares extra) (declare id meaning) := by
  apply declares_update
  intro symbol changed global type hchanged hmeaning
  unfold Symbol.declare at hchanged
  split at hchanged
  · cases hchanged
    exact h global type (Option.some.inj hmeaning)
  · cases hchanged

theorem declares_setBlock (id : SymbolId) (block : BlockRef) :
    Moves (Session.Declares extra) (update id fun symbol => symbol.setBlock block) := by
  apply declares_update
  intro symbol changed global type hchanged hmeaning
  obtain ⟨_, -, hset⟩ := Except.exists_of_bind_eq_ok hchanged
  cases hset
  cases hmeaning

theorem declares_openProcedure (id : SymbolId) (path : String) (internal : Bool) :
    Moves (Session.Declares extra) (openProcedure id path internal) := by
  refine (declares_createFunction path internal).bind fun function => ?_
  refine (declares_build_appendBlock function "entry").bind fun entry => ?_
  refine (declares_declare id nofun).bind fun _ => ?_
  refine Moves.bind (declares_modify fun session => ?_) fun _ => ?_
  · exact Session.declares_of_same (fun _ => rfl) rfl
  · grind

theorem declares_beginProcedure (id : SymbolId) :
    Moves (Session.Declares extra) (beginProcedure id) := by
  rw [beginProcedure_eq]
  refine (moves_symbol id).bind fun found => moves_get.bind fun session => ?_
  split
  · exact (declares_setBlock _ _).bind fun _ => declares_openProcedure id _ _
  · exact declares_openProcedure id _ _

theorem declares_endProcedure : Moves (Session.Declares extra) endProcedure := by
  refine moves_get.bind fun session => ?_
  split
  · exact moves_fail _
  · grind
  · refine Moves.bind (declares_modify fun session => ?_) fun _ => ?_
    · exact Session.declares_of_same (fun _ => rfl) rfl
    · grind

theorem declares_declareLiteral (id : SymbolId) (text : String) :
    Moves (Session.Declares extra) (declareLiteral id text) := by
  refine (moves_symbol id).bind fun symbol => ?_
  exact (declares_record _).bind fun _ => declares_declare id nofun

theorem declares_setCurrentBlock (block : BlockRef) :
    Moves (Session.Declares extra) (setCurrentBlock block) := by
  refine moves_currentProcedure.bind fun id => ?_
  exact (declares_setBlock id block).bind fun _ => declares_moveTo block

theorem declares_appendBlock (label : String) :
    Moves (Session.Declares extra) (appendBlock label) := by
  refine moves_currentProcedure.bind fun id => (moves_symbol id).bind fun symbol => ?_
  exact (moves_orFault _).bind fun place => declares_build_appendBlock place.1 label

variable {β : Type} {session : Session} {cells : List IntType}

theorem after_bind_ok {step : Compiler α} {next : α → Compiler β} {value : α} {middle : Session}
    (h : step session = .ok value middle) :
    session.after (step >>= next) = middle.after (next value) := by
  unfold Session.after
  rw [bind_eq_ok h]

/-- The new variable is of the type it was declared with. -/
theorem typed_declareCell (id : SymbolId) {type : IntType} (htype : type ∈ IntType.declarable)
    (h : session.Typed cells) : ∃ more, (session.after (declareCell id type)).Typed more := by
  cases hsymbol : session.forest.symbols[id]? with
  | none =>
    have hfault : symbol id session =
        .error (.fault (.outOfBounds session.forest.symbols.length id)) session := by
      unfold symbol
      rw [get_bind, Forest.symbol, fetch, hsymbol]
      rfl
    have hsame : session.after (declareCell id type) = session := by
      unfold Session.after declareCell
      rw [bind_eq_error hfault]
    rw [hsame]
    exact ⟨cells, h⟩
  | some found =>
    -- The global is made first, and only then does the symbol refer to it.
    let grown := session.withGlobal (session.path found.name) (.int type.width)
    let new := session.builder.code.globals.length
    have hglobal : build (Build.createGlobal (session.path found.name) (.int type.width)) session =
        .ok new grown := build_eq_ok (Build.change_eq_ok _ _ rfl)
    have hlength : new = cells.length := by
      simpa using congrArg List.length h.globals
    have hgrown : grown.Typed (cells ++ [type]) := by
      refine ⟨?_, ?_, ?_⟩
      · simpa [or_imp, forall_and] using ⟨h.declarable, htype⟩
      · simp [grown, Session.withGlobal, Module.addGlobal, h.globals, IntType.backend]
      · intro other global kind hmeaning
        have hcell := h.meanings other global kind hmeaning
        rw [List.getElem?_append_left (List.getElem?_eq_some_iff.1 hcell).1]
        exact hcell
    have hrest : Moves (Session.Declares fun global kind => global = new ∧ kind = type) (do
        let made ← build (Build.view fun code => code.global new)
        record (.cellDeclared found.name made.name type)
        declare id (.cell new type)
        return new) := by
      refine (moves_build_view _).bind fun made => (declares_record _).bind fun _ => ?_
      refine (declares_declare id ?_).bind fun _ => moves_pure _
      rintro _ _ ⟨⟩
      exact ⟨rfl, rfl⟩
    unfold declareCell
    rw [after_bind_ok (symbol_eq hsymbol)]
    dsimp only
    have hget : (get : Compiler Session) session = .ok session session := rfl
    rw [after_bind_ok hget, after_bind_ok hglobal]
    refine ⟨_, hgrown.declares (hrest grown) ?_⟩
    rintro _ _ ⟨rfl, rfl⟩
    rw [hlength, List.getElem?_concat_length]

theorem Primitive.typed {step : Compiler α} (h : Primitive step) (htyped : session.Typed cells) :
    ∃ more, (session.after step).Typed more := by
  have hkept {β : Type} {step : Compiler β}
      (hmoves : Moves (Session.Declares fun _ _ => False) step) :
      ∃ more, (session.after step).Typed more :=
    ⟨cells, htyped.declares (hmoves session) nofun⟩
  cases h with
  | locate place => exact hkept (declares_locate place)
  | tell entry => exact hkept (declares_tell entry)
  | enterScope => exact hkept declares_enterScope
  | leaveScope => exact hkept declares_leaveScope
  | add name => exact hkept (declares_add name)
  | declareLiteral id text => exact hkept (declares_declareLiteral id text)
  | declareCell id htype => exact typed_declareCell id htype htyped
  | beginProcedure id => exact hkept (declares_beginProcedure id)
  | endProcedure => exact hkept declares_endProcedure
  | setCurrentBlock block => exact hkept (declares_setCurrentBlock block)
  | appendBlock label => exact hkept (declares_appendBlock label)
  | freshRegister type => exact hkept (declares_freshRegister type)
  | emit instr => exact hkept (declares_emit instr)

end Compiler

/-- In a session that can be met, every variable has a global of its type. -/
theorem Session.Reached.typed {file : String} {session : Session} (h : session.Reached file) :
    ∃ cells, session.Typed cells := by
  induction h with
  | start =>
    refine ⟨[], by simp, rfl, ?_⟩
    intro id global type hmeaning
    cases hmeaning
  | step _ hstep ih =>
    obtain ⟨cells, htyped⟩ := ih
    exact hstep.typed htyped

end BlockLang
