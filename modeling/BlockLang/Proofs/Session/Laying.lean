import BlockLang.Proofs.Fallible
import BlockLang.Proofs.Session.Outline
import BlockLang.Proofs.Tree.Grammar

/-! Where carrying out a tree ends well, the tree has no mistake in it, and the outline is as
its declarations say. Expressions, and code of any other kind, leave the outline alone. -/

namespace BlockLang

open Code Names BlockLang.Tree

section

variable {σ τ α β : Type} {view : σ → τ}

/-- Where the step ends well, what is seen of the state is as before. -/
def Keeps (view : σ → τ) (step : EStateM Failure σ α) : Prop :=
  ∀ state value next, step state = .ok value next → view next = view state

theorem exists_of_bind_eq_ok {step : EStateM Failure σ α} {next : α → EStateM Failure σ β}
    {state last : σ} {value : β} (h : (step >>= next) state = .ok value last) :
    ∃ first middle, step state = .ok first middle ∧ next first middle = .ok value last := by
  have hrun : (step >>= next) state = EStateM.bind step next state := rfl
  rw [hrun, EStateM.bind] at h
  cases hstep : step state with
  | ok first middle =>
    rw [hstep] at h
    exact ⟨first, middle, rfl, h⟩
  | error failure _ =>
    rw [hstep] at h
    cases h

theorem of_bind_eq_error {step : EStateM Failure σ α} {next : α → EStateM Failure σ β}
    {state last : σ} {failure : Failure} (h : (step >>= next) state = .error failure last) :
    step state = .error failure last ∨
      ∃ value middle, step state = .ok value middle ∧ next value middle = .error failure last := by
  have hrun : (step >>= next) state = EStateM.bind step next state := rfl
  rw [hrun, EStateM.bind] at h
  cases hstep : step state with
  | ok value middle =>
    rw [hstep] at h
    exact .inr ⟨value, middle, rfl, h⟩
  | error other middle =>
    rw [hstep] at h
    cases h
    exact .inl rfl

@[grind ←] theorem keeps_pure (value : α) : Keeps view (pure value) := by
  rintro _ _ _ ⟨⟩
  rfl

@[grind ←] theorem keeps_get : Keeps view get := by
  rintro _ _ _ ⟨⟩
  rfl

@[grind ←] theorem keeps_throw (failure : Failure) :
    Keeps view (throw failure : EStateM Failure σ α) := nofun

@[grind ←] theorem Keeps.bind {step : EStateM Failure σ α} {next : α → EStateM Failure σ β}
    (h : Keeps view step) (hnext : ∀ value, Keeps view (next value)) :
    Keeps view (step >>= next) := by
  intro state value last hlast
  obtain ⟨first, middle, hfirst, hrest⟩ := exists_of_bind_eq_ok hlast
  rw [hnext first middle value last hrest, h state first middle hfirst]

end

namespace Code.Build

variable {α : Type}

/-- What the code declares so far. -/
def headsOf (builder : Builder) : Heads := builder.code.heads

theorem change_eq_error {action : Module → Except Fault (α × Module)} {builder : Builder}
    {fault : Fault} (h : action builder.code = .error fault) :
    change action builder = .error (.fault fault) builder := by
  change (change action).run builder = _
  simp only [change, EStateM.run_bind, EStateM.run_get, h]
  rfl

@[grind ←] theorem keeps_change {action : Module → Except Fault (α × Module)}
    (h : ∀ code value next, action code = .ok (value, next) → next.heads = code.heads) :
    Keeps headsOf (change action) := by
  intro builder value next hrun
  cases hcode : action builder.code with
  | ok changed =>
    rw [change_eq_ok _ _ hcode] at hrun
    cases hrun
    exact h _ _ _ hcode
  | error fault =>
    rw [change_eq_error hcode] at hrun
    cases hrun

@[grind ←] theorem keeps_view (look : Module → Except Fault α) : Keeps headsOf (view look) := by
  apply keeps_change
  intro code value next h
  obtain ⟨found, -, hfound⟩ := Except.exists_of_bind_eq_ok h
  cases hfound
  rfl

@[grind ←] theorem keeps_appendBlock (function : FunctionId) (label : String) :
    Keeps headsOf (appendBlock function label) := by
  apply keeps_change
  intro code value next h
  obtain ⟨found, -, hfound⟩ := Except.exists_of_bind_eq_ok h
  cases hfound
  exact Module.heads_modifyFunction _ (fun _ => rfl) fun _ => rfl

@[grind ←] theorem keeps_isTerminated (block : BlockRef) : Keeps headsOf (isTerminated block) := by
  grind [isTerminated]

@[grind ←] theorem keeps_here : Keeps headsOf here := by
  grind [here]

@[grind ←] theorem keeps_emit (instr : Instr) : Keeps headsOf (emit instr) := by
  refine keeps_here.bind fun block => keeps_change ?_
  intro code value next h
  obtain ⟨pushed, hpush, hpushed⟩ := Except.exists_of_bind_eq_ok h
  obtain ⟨_, -, hnext⟩ := Except.exists_of_bind_eq_ok hpush
  cases hpushed
  cases hnext
  exact Module.heads_modifyFunction _ (fun _ => rfl) fun _ => rfl

@[grind ←] theorem keeps_freshRegister (type : Ty) : Keeps headsOf (freshRegister type) := by
  refine keeps_here.bind fun block => keeps_change ?_
  intro code value next h
  obtain ⟨found, -, hfound⟩ := Except.exists_of_bind_eq_ok h
  cases hfound
  exact Module.heads_modifyFunction _ (fun _ => rfl) fun _ => rfl

@[grind ←] theorem keeps_load (source : GlobalId) : Keeps headsOf (load source) := by
  grind [load]

@[grind ←] theorem keeps_binary (op : BinOp) (left right : Value) :
    Keeps headsOf (binary op left right) := by
  grind [binary]

@[grind ←] theorem keeps_intCast (value : Value) (type : Ty) (signed : Bool) :
    Keeps headsOf (intCast value type signed) := by
  cases value <;> grind [intCast]

end Code.Build

namespace Compiler

variable {α β : Type}

@[grind ←] theorem keeps_build {step : Build α} (h : Keeps Build.headsOf step) :
    Keeps Session.outline (build step) := by
  intro session value next hrun
  unfold build at hrun
  cases hstep : step session.builder with
  | error failure builder =>
    rw [hstep] at hrun
    cases hrun
  | ok found builder =>
    rw [hstep] at hrun
    cases hrun
    have hheads := h _ _ _ hstep
    unfold Build.headsOf at hheads
    unfold Session.outline
    rw [hheads]

@[grind ←] theorem keeps_orFault (result : Except Fault α) :
    Keeps Session.outline (orFault result) := by
  cases result <;> grind [orFault]

theorem of_orFault_eq_ok {result : Except Fault α} {session next : Session} {value : α}
    (h : orFault result session = .ok value next) : result = .ok value ∧ session = next := by
  cases result with
  | error fault => cases h
  | ok found =>
    cases h
    exact ⟨rfl, rfl⟩

@[grind ←] theorem keeps_orFail (result : Except Error α) :
    Keeps Session.outline (orFail result) := by
  cases result <;> grind [orFail, fail]

@[grind ←] theorem keeps_tell (entry : Log.Entry) : Keeps Session.outline (tell entry) := by
  rintro _ _ _ ⟨⟩
  rfl

@[grind ←] theorem keeps_record (event : Log.Event) : Keeps Session.outline (record event) :=
  keeps_tell _

@[grind ←] theorem keeps_locate (place : Place) : Keeps Session.outline (locate place) := by
  rintro _ _ _ ⟨⟩
  rfl

@[grind ←] theorem keeps_moveTo (block : BlockRef) : Keeps Session.outline (moveTo block) := by
  rintro _ _ _ ⟨⟩
  rfl

@[grind ←] theorem keeps_find (name : String) : Keeps Session.outline (find name) := by
  grind [find]

@[grind ←] theorem keeps_symbol (id : SymbolId) : Keeps Session.outline (symbol id) := by
  grind [Compiler.symbol]

/-- A symbol keeps its name whatever it is told. -/
@[grind ←] theorem keeps_update {change : Symbol → Except Fault Symbol} (id : SymbolId)
    (hname : ∀ before after, change before = .ok after → after.name = before.name) :
    Keeps Session.outline (update id change) := by
  intro session value next hrun
  unfold update at hrun
  rw [get_bind] at hrun
  obtain ⟨forest, _, horFault, hset⟩ := exists_of_bind_eq_ok hrun
  obtain ⟨hupdate, rfl⟩ := of_orFault_eq_ok horFault
  obtain ⟨before, hbefore, hchange⟩ := Except.exists_of_bind_eq_ok hupdate
  obtain ⟨after, hafter, hforest⟩ := Except.exists_of_bind_eq_ok hchange
  cases hforest
  cases hset
  exact congrArg (fun forest => ({ session.outline with forest } : Outline))
    (Forest.untold_withSymbol (Forest.symbol_eq_ok.1 hbefore) (hname before after hafter))

@[grind ←] theorem keeps_declare (id : SymbolId) (meaning : Meaning) :
    Keeps Session.outline (declare id meaning) := by
  refine keeps_update id fun before after h => ?_
  unfold Symbol.declare at h
  split at h <;> cases h
  rfl

theorem keeps_setBlock (id : SymbolId) (block : BlockRef) :
    Keeps Session.outline (update id fun symbol => symbol.setBlock block) := by
  refine keeps_update id fun before after h => ?_
  obtain ⟨found, -, hafter⟩ := Except.exists_of_bind_eq_ok h
  cases hafter
  rfl

@[grind ←] theorem keeps_currentProcedure : Keeps Session.outline currentProcedure := by
  grind [currentProcedure, internal, fail]

@[grind ←] theorem keeps_currentBlock : Keeps Session.outline currentBlock := by
  grind [currentBlock, internal, fail]

@[grind ←] theorem keeps_setCurrentBlock (block : BlockRef) :
    Keeps Session.outline (setCurrentBlock block) :=
  keeps_currentProcedure.bind fun id => (keeps_setBlock id block).bind fun _ => keeps_moveTo block

@[grind ←] theorem keeps_appendBlock (label : String) :
    Keeps Session.outline (appendBlock label) := by
  grind [appendBlock]

@[grind ←] theorem keeps_jumpIfOpen (target : BlockRef) :
    Keeps Session.outline (jumpIfOpen target) := by
  grind [jumpIfOpen, Build.jump]

@[grind ←] theorem keeps_raise (mistake : Mistake) :
    Keeps Session.outline (raise mistake : Compiler α) := by
  grind [raise, fail]

@[grind ←] theorem keeps_resolve (name : Ident) : Keeps Session.outline (resolve name) := by
  grind [resolve]

@[grind ←] theorem keeps_mismatch (symbol : Symbol) (expected : String) :
    Keeps Session.outline (mismatch symbol expected : Compiler α) := by
  grind [mismatch, fail]

@[grind ←] theorem keeps_resolveAs (kind : Kind) (name : Ident) :
    Keeps Session.outline (resolveAs kind name) := by
  grind [resolveAs]

@[grind ←] theorem keeps_loadName (name : Ident) : Keeps Session.outline (loadName name) := by
  grind [loadName, fail]

@[grind ←] theorem keeps_unify (left right : Operand) :
    Keeps Session.outline (unify left right) := by
  grind [unify]

@[grind ←] theorem keeps_combine (op : Operator) (left right : Operand) :
    Keeps Session.outline (combine op left right) := by
  grind [combine]

@[grind ←] theorem keeps_negate (operand : Operand) : Keeps Session.outline (negate operand) := by
  grind [Compiler.negate]

@[grind ←] theorem keeps_compare (op : Comparison) (left right : Operand) :
    Keeps Session.outline (Compiler.compare op left right) := by
  grind [Compiler.compare, Build.compare]

end Compiler

open Compiler

/-- Where the step ends well, the outline has changed as planned. -/
def Lays {α : Type} (step : Compiler α) (plan : Outline → Option Outline) : Prop :=
  ∀ session value next, step session = .ok value next → plan session.outline = some next.outline

section

variable {α β : Type} {plan rest : Outline → Option Outline}

theorem Keeps.lays {step : Compiler α} (h : Keeps Session.outline step) : Lays step some :=
  fun session value next hrun => congrArg some (h session value next hrun).symm

theorem Lays.bind {step : Compiler α} {next : α → Compiler β} (h : Lays step plan)
    (hnext : ∀ value, Lays (next value) rest) :
    Lays (step >>= next) fun outline => plan outline >>= rest := by
  intro session value last hrun
  obtain ⟨first, middle, hfirst, hlast⟩ := exists_of_bind_eq_ok hrun
  change plan session.outline >>= rest = _
  rw [h session first middle hfirst]
  exact hnext first middle value last hlast

theorem Keeps.thenLays {step : Compiler α} {next : α → Compiler β}
    (h : Keeps Session.outline step) (hnext : ∀ value, Lays (next value) plan) :
    Lays (step >>= next) plan :=
  h.lays.bind hnext

theorem Lays.thenKeeps {step : Compiler α} {next : α → Compiler β} (h : Lays step plan)
    (hnext : ∀ value, Keeps Session.outline (next value)) : Lays (step >>= next) plan := by
  intro session value last hrun
  obtain ⟨first, middle, hfirst, hlast⟩ := exists_of_bind_eq_ok hrun
  rw [h session first middle hfirst, hnext first middle value last hlast]

theorem Lays.forM {step : α → Compiler Unit} {plan : Outline → α → Option Outline}
    (items : List α) (h : ∀ item, Lays (step item) fun outline => plan outline item) :
    Lays (items.forM step) fun outline => items.foldlM plan outline := by
  induction items with
  | nil => exact (keeps_pure _).lays
  | cons item rest ih =>
    simp only [List.foldlM_cons]
    exact (h item).bind fun _ => ih

end

namespace Compiler

variable {session next : Session}

theorem of_add_eq_ok {name : String} {id : SymbolId} (h : add name session = .ok id next) :
    session.forest.declared? session.scope name = none ∧ id = session.forest.symbols.length ∧
      next = session.added name := by
  cases hdeclared : session.forest.declared? session.scope name with
  | some other =>
    rw [add_eq_error hdeclared] at h
    cases h
  | none =>
    rw [add_eq_ok hdeclared] at h
    cases h
    exact ⟨rfl, rfl, rfl⟩

theorem outline_added (session : Session) (name : String) :
    (session.added name).outline = session.outline.added name := by
  unfold Session.outline Session.added Outline.added
  simp only [Forest.untold_added]

theorem path_outline (session : Session) (name : String) :
    session.outline.path name = session.path name := by
  simp [Outline.path, Outline.outer, Session.path, Session.outline, Forest.untold,
    Function.comp_def]

/-- A name that is declared is a symbol that nothing has been told of. -/
theorem of_declare_eq_ok {name : Ident} {id : SymbolId} (h : name.declare session = .ok id next) :
    session.outline.add? name.name = some next.outline ∧
      id = session.outline.forest.symbols.length ∧
        next.forest.symbols[id]? = some { name := name.name } := by
  unfold Ident.declare at h
  rw [bind_eq_ok (locate_eq _)] at h
  obtain ⟨hdeclared, rfl, rfl⟩ := of_add_eq_ok h
  refine ⟨?_, ?_, ?_⟩
  · unfold Outline.add?
    rw [outline_added, show session.outline.forest.declared? session.outline.scope name.name = none
      from hdeclared]
    rfl
  · simp [Session.outline, Forest.untold, Session.locatedAt]
  · simp [Session.added, Forest.added, Session.locatedAt]

theorem lays_createGlobal (base : String) (type : Ty) :
    Lays (build (Build.createGlobal base type))
      fun outline => some { outline with heads := outline.heads.addGlobal base type } := by
  intro session value next hrun
  have hcreate : build (Build.createGlobal base type) session = .ok _ _ :=
    build_eq_ok (Build.change_eq_ok _ _ rfl)
  cases hcreate.symm.trans hrun
  exact congrArg (fun heads => some ({ session.outline with heads } : Outline))
    (Module.heads_addGlobal _ _ _).symm

theorem lays_createFunction (base : String) (internal : Bool) :
    Lays (build (Build.createFunction base internal))
      fun outline => some { outline with heads := outline.heads.addFunction base internal } := by
  intro session value next hrun
  have hcreate : build (Build.createFunction base internal) session = .ok _ _ :=
    build_eq_ok (Build.change_eq_ok _ _ rfl)
  cases hcreate.symm.trans hrun
  exact congrArg (fun heads => some ({ session.outline with heads } : Outline))
    (Module.heads_addFunction _ _ _).symm

theorem lays_cell (name : Ident) (type : IntType) :
    Lays (do discard (declareCell (← name.declare) type))
      fun outline => outline.cell? name.name type := by
  intro session value last hrun
  obtain ⟨id, declared, hdeclare, hcell⟩ := exists_of_bind_eq_ok hrun
  obtain ⟨hadd, -, hsymbol⟩ := of_declare_eq_ok hdeclare
  obtain ⟨global, next, hcell, hnext⟩ := exists_of_bind_eq_ok hcell
  cases hnext
  unfold declareCell at hcell
  rw [bind_eq_ok (symbol_eq hsymbol), get_bind] at hcell
  have hlays : Lays _ _ := (lays_createGlobal (declared.path name.name) (.int type.width)).thenKeeps
    fun global => (keeps_build (Build.keeps_view fun code => code.global global)).bind fun made =>
      (keeps_record (.cellDeclared name.name made.name type)).bind fun _ =>
        (keeps_declare id (.cell global type)).bind fun _ => keeps_pure global
  have hlaid := hlays declared global last hcell
  rw [← path_outline] at hlaid
  change session.outline.add? name.name >>= _ = _
  rw [hadd]
  exact hlaid

theorem keeps_declareLiteral (id : SymbolId) (text : String) :
    Keeps Session.outline (declareLiteral id text) := by
  grind [declareLiteral]

theorem lays_enterScope : Lays enterScope fun outline => some outline.entered := by
  rintro session _ _ ⟨⟩
  rfl

theorem lays_leaveScope : Lays leaveScope Outline.left? := by
  intro session value last hrun
  cases hparent : session.forest.parent? session.scope with
  | none =>
    unfold leaveScope at hrun
    rw [get_bind, hparent] at hrun
    cases hrun
  | some scope =>
    rw [leaveScope_eq hparent] at hrun
    cases hrun
    have houtline : session.outline.forest.parent? session.outline.scope = some scope := hparent
    unfold Outline.left?
    rw [houtline]
    rfl

theorem raise_ne_ok {α : Type} {mistake : Mistake} {value : α} :
    raise mistake session ≠ .ok value next := by
  intro hrun
  unfold raise at hrun
  cases hreached : mistake.reached with
  | none =>
    rw [hreached] at hrun
    cases hrun
  | some place =>
    rw [hreached] at hrun
    cases hrun

theorem lays_raise {α : Type} {plan : Outline → Option Outline} (mistake : Mistake) :
    Lays (raise mistake : Compiler α) plan :=
  fun _ _ _ hrun => (raise_ne_ok hrun).elim

theorem lays_openProcedure (id : SymbolId) (path : String) (internal : Bool) :
    Lays (openProcedure id path internal) fun outline => some { outline with
      procedures := id :: outline.procedures
      heads := outline.heads.addFunction path internal } := by
  have hopen : Lays (modify fun session => { session with procedures := id :: session.procedures })
      fun outline => some { outline with procedures := id :: outline.procedures } := by
    rintro _ _ _ ⟨⟩
    rfl
  have hsteps : Lays _ _ := (lays_createFunction path internal).bind fun function =>
    (keeps_build (Build.keeps_appendBlock function "entry")).thenLays fun entry =>
      (keeps_declare id (.procedure function entry)).thenLays fun _ =>
        hopen.thenKeeps fun _ => (keeps_moveTo entry).bind fun _ =>
          keeps_get.bind fun session =>
            keeps_record (.procedureBegun path session.procedures.length)
  exact hsteps

/-- What beginning a procedure does once its name is declared. -/
theorem of_beginProcedure_eq_ok {id : SymbolId} {found : Symbol}
    (hfound : session.forest.symbols[id]? = some found)
    (h : beginProcedure id session = .ok () next) :
    next.outline = session.outline.begun id found.name := by
  have hbegun {parked : Session} {path : String} {internal : Bool}
      (hrun : openProcedure id path internal parked = .ok () next) :=
    Option.some.inj (lays_openProcedure id path internal parked () next hrun).symm
  rw [beginProcedure_eq, bind_eq_ok (symbol_eq hfound), get_bind] at h
  unfold Outline.begun
  rw [path_outline]
  cases hprocedures : session.procedures with
  | nil =>
    simp only [hprocedures] at h
    rw [hbegun h]
    simp [Session.outline, hprocedures]
  | cons outer rest =>
    cases hcursor : session.builder.cursor with
    | none =>
      simp only [hprocedures, hcursor] at h
      rw [hbegun h]
      simp [Session.outline, hprocedures]
    | some block =>
      simp only [hprocedures, hcursor] at h
      obtain ⟨_, parked, hpark, hrun⟩ := exists_of_bind_eq_ok h
      rw [hbegun hrun, keeps_setBlock _ _ _ _ _ hpark]
      simp [Session.outline, hprocedures]

theorem lays_endProcedure : Lays endProcedure fun outline => some outline.ended := by
  intro session value last hrun
  unfold endProcedure at hrun
  rw [get_bind] at hrun
  change some session.outline.ended = _
  have hsame : session.outline.procedures = session.procedures := rfl
  unfold Outline.ended
  rw [hsame]
  cases hprocedures : session.procedures with
  | nil =>
    rw [hprocedures] at hrun
    cases hrun
  | cons id others =>
    cases others with
    | nil =>
      simp only [hprocedures] at hrun
      have hkeeps : Keeps Session.outline _ := (keeps_symbol id).bind fun found =>
        keeps_record (.outermostEnded found.name)
      rw [hkeeps session value last hrun]
    | cons outer rest =>
      simp only [hprocedures] at hrun
      have hopen : Lays (modify fun session => { session with procedures := outer :: rest })
          fun outline => some { outline with procedures := outer :: rest } := by
        rintro _ _ _ ⟨⟩
        rfl
      have hlays : Lays _ _ := hopen.thenKeeps fun _ => (keeps_symbol id).bind fun found =>
        (keeps_record (.procedureEnded found.name)).bind fun _ => (keeps_symbol outer).bind
          fun around => (keeps_orFault around.procedure).bind fun reached => keeps_moveTo reached.2
      exact hlays session value last hrun

end Compiler

namespace Tree

theorem Expr.keeps_emit (expr : Expr) : Keeps Session.outline expr.emit := by
  induction expr with
  | number value => exact keeps_pure _
  | name ident => exact keeps_loadName ident
  | negate operand ih => exact ih.bind fun value => keeps_negate value
  | binary op left right ihleft ihright =>
    exact ihleft.bind fun first => ihright.bind fun second => keeps_combine op first second
  | missing mistake => exact keeps_raise mistake
  | unclosed inner mistake ih =>
    exact (ih.bind fun _ => keeps_pure _).bind fun _ => keeps_raise mistake

theorem Cond.keeps_emit (cond : Cond) : Keeps Session.outline cond.emit := by
  cases cond with
  | compare op left right =>
    exact left.keeps_emit.bind fun first => right.keeps_emit.bind fun second =>
      keeps_compare op first second
  | half left mistake =>
    exact (left.keeps_emit.bind fun _ => keeps_pure _).bind fun _ => keeps_raise mistake
  | unfollowed op left right mistake =>
    exact left.keeps_emit.bind fun first => right.keeps_emit.bind fun second =>
      ((keeps_compare op first second).bind fun _ => keeps_pure _).bind fun _ =>
        keeps_raise mistake

theorem ConstValue.keeps_emit (value : ConstValue) : Keeps Session.outline value.emit := by
  cases value with
  | text spelling => exact keeps_pure _
  | copy source => exact (keeps_resolveAs .literal source).bind fun _ => keeps_orFault _

theorem Ident.lays_declare (name : Ident) :
    Lays name.declare fun outline => outline.add? name.name :=
  fun _ _ _ hrun => (of_declare_eq_ok hrun).1

theorem Declaration.lays_emit (declaration : Declaration) :
    Lays declaration.emit declaration.lay := by
  cases declaration with
  | const name value =>
    exact value.keeps_emit.thenLays fun text => name.lays_declare.thenKeeps fun id =>
      keeps_declareLiteral id text
  | vars names type => exact Lays.forM names fun name => lays_cell name type
  | stop mistake => exact lays_raise mistake
  | unendedCopy source mistake =>
    exact ((ConstValue.keeps_emit (.copy source)).bind fun _ => keeps_pure _).thenLays fun _ =>
      lays_raise mistake

theorem Stmt.lays_emit (stmt : Stmt) : Lays stmt.emit stmt.lay := by
  induction stmt with
  | skip => exact (keeps_pure _).lays
  | seq first second ihfirst ihsecond => exact ihfirst.bind fun _ => ihsecond
  | assign target value =>
    refine ((keeps_resolveAs .cell target).bind fun symbol => ?_).lays
    refine value.keeps_emit.bind fun operand => ?_
    grind [Build.store]
  | call callee =>
    refine ((keeps_resolveAs .procedure callee).bind fun symbol => ?_).lays
    grind [Build.call]
  | branch condition yes no ihyes ihno =>
    refine condition.keeps_emit.thenLays fun value => ?_
    refine (keeps_appendBlock "then").thenLays fun thenBlock => ?_
    refine (keeps_appendBlock "else").thenLays fun elseBlock => ?_
    refine (keeps_appendBlock "endif").thenLays fun merge => ?_
    refine (keeps_build (Build.keeps_emit _)).thenLays fun _ => ?_
    refine (keeps_setCurrentBlock thenBlock).thenLays fun _ => ?_
    refine ihyes.bind fun _ => ?_
    refine (keeps_jumpIfOpen merge).thenLays fun _ => ?_
    refine (keeps_setCurrentBlock elseBlock).thenLays fun _ => ?_
    exact ihno.thenKeeps fun _ =>
      (keeps_jumpIfOpen merge).bind fun _ => keeps_setCurrentBlock merge
  | loop condition body ih =>
    refine (keeps_appendBlock "while.cond").thenLays fun test => ?_
    refine (keeps_appendBlock "while.body").thenLays fun bodyBlock => ?_
    refine (keeps_appendBlock "while.end").thenLays fun exit => ?_
    refine (keeps_jumpIfOpen test).thenLays fun _ => ?_
    refine (keeps_setCurrentBlock test).thenLays fun _ => ?_
    refine condition.keeps_emit.thenLays fun value => ?_
    refine (keeps_build (Build.keeps_emit _)).thenLays fun _ => ?_
    refine (keeps_setCurrentBlock bodyBlock).thenLays fun _ => ?_
    exact ih.thenKeeps fun _ => (keeps_jumpIfOpen test).bind fun _ => keeps_setCurrentBlock exit
  | ret =>
    refine ((keeps_build (Build.keeps_emit _)).bind fun _ => ?_).lays
    exact (keeps_appendBlock "after.return").bind fun block => keeps_setCurrentBlock block
  | block locals body ih =>
    have hinside : Lays _ _ := lays_enterScope.bind fun _ =>
      (Lays.forM locals Declaration.lays_emit).bind fun _ => ih.bind fun _ => lays_leaveScope
    exact hinside
  | stop mistake => exact lays_raise mistake

theorem Heading.of_emit_eq_ok {heading : Heading} {session next : Session} {id : SymbolId}
    (h : heading.emit session = .ok id next) :
    ∃ name, heading.name? = some name ∧ session.outline.add? name = some next.outline ∧
      id = session.outline.forest.symbols.length ∧ next.forest.symbols[id]? = some { name } := by
  cases heading with
  | named name => exact ⟨name.name, rfl, of_declare_eq_ok h⟩
  | unnamed mistake => exact (raise_ne_ok h).elim
  | unended name mistake =>
    obtain ⟨_, _, -, hraise⟩ := exists_of_bind_eq_ok h
    exact (raise_ne_ok hraise).elim

theorem lays_closeProcedure :
    Lays closeProcedure fun outline => outline.left? >>= fun left => some left.ended := by
  have hleave : Lays _ _ := lays_leaveScope.bind fun _ =>
    lays_endProcedure.thenKeeps fun _ => keeps_tell .leave
  refine keeps_currentBlock.thenLays fun block => ?_
  refine (keeps_build (Build.keeps_isTerminated block)).thenLays fun terminated => ?_
  dsimp only
  split
  · exact hleave
  · exact (keeps_build (Build.keeps_emit _)).thenLays fun _ => hleave

theorem of_within_eq_ok {id : SymbolId} {inside : Compiler Unit}
    {plan : Outline → Option Outline} (hinside : Lays inside plan) {session next : Session}
    {found : Symbol} (hfound : session.forest.symbols[id]? = some found)
    (h : within id inside session = .ok () next) :
    ∃ worked left, plan (session.outline.begun id found.name).entered = some worked ∧
      worked.left? = some left ∧ next.outline = left.ended := by
  rw [within_eq, bind_eq_ok (symbol_eq hfound), bind_eq_ok (tell_eq _)] at h
  obtain ⟨_, begun, hbegin, hentered⟩ := exists_of_bind_eq_ok h
  obtain ⟨_, entered, henter, hworking⟩ := exists_of_bind_eq_ok hentered
  obtain ⟨_, worked, hwork, hclosing⟩ := exists_of_bind_eq_ok hworking
  have htold : (session.told (.enter (.procedure found.name))).forest.symbols[id]? = some found :=
    hfound
  have hbegun := of_beginProcedure_eq_ok htold hbegin
  have hworked := hinside entered _ worked hwork
  rw [Option.some.inj (lays_enterScope begun _ entered henter).symm, hbegun] at hworked
  obtain ⟨left, hleft, hended⟩ := Option.bind_eq_some_iff.1 (lays_closeProcedure worked _ next hclosing)
  exact ⟨worked.outline, left, hworked, hleft, (Option.some.inj hended).symm⟩

theorem Decls.lays_emit (decls : Decls) : Lays decls.emit decls.lay := by
  induction decls with
  | nil => exact (keeps_pure _).lays
  | plain declaration rest ih => exact declaration.lays_emit.bind fun _ => ih
  | nested heading locals body rest ihlocals ihrest =>
    intro session value last hrun
    obtain ⟨id, named, hheading, hnamed⟩ := exists_of_bind_eq_ok hrun
    obtain ⟨_, closed, hwithin, hclosing⟩ := exists_of_bind_eq_ok hnamed
    obtain ⟨name, hname, hadd, rfl, hsymbol⟩ := Heading.of_emit_eq_ok hheading
    have hinside := ihlocals.bind fun _ => body.lays_emit
    obtain ⟨worked, left, hworked, hleft, hclosed⟩ := of_within_eq_ok hinside hsymbol hwithin
    obtain ⟨declared, hdeclared, hbody⟩ := Option.bind_eq_some_iff.1 hworked
    have hrest := ihrest closed value last hclosing
    rw [hclosed] at hrest
    have hbegin : session.outline.begin? name =
        some (named.outline.begun session.outline.forest.symbols.length name) := by
      unfold Outline.begin?
      rw [hadd]
      rfl
    simp only [Decls.lay, hname, hbegin, Option.bind_eq_bind, Option.bind_some]
    rw [hdeclared, Option.bind_some, hbody, Option.bind_some, hleft]
    exact hrest
  | stop mistake => exact lays_raise mistake

theorem Program.lays_emit (program : Program) : Lays program.emit program.decls.lay := by
  refine program.decls.lays_emit.thenKeeps fun _ => ?_
  cases program.reached with
  | none => exact keeps_pure _
  | some place => exact keeps_locate place

variable {session next : Session}

theorem Expr.whole_of_emit {expr : Expr} {operand : Operand}
    (h : expr.emit session = .ok operand next) : expr.Whole := by
  induction expr generalizing session operand next with
  | number value => trivial
  | name ident => trivial
  | negate operand ih =>
    obtain ⟨_, _, hoperand, -⟩ := exists_of_bind_eq_ok h
    exact ih hoperand
  | binary op left right ihleft ihright =>
    obtain ⟨_, _, hleft, hrest⟩ := exists_of_bind_eq_ok h
    obtain ⟨_, _, hright, -⟩ := exists_of_bind_eq_ok hrest
    exact ⟨ihleft hleft, ihright hright⟩
  | missing mistake => exact (raise_ne_ok h).elim
  | unclosed inner mistake =>
    obtain ⟨_, _, -, hraise⟩ := exists_of_bind_eq_ok h
    exact (raise_ne_ok hraise).elim

theorem Cond.whole_of_emit {cond : Cond} {value : Value}
    (h : cond.emit session = .ok value next) : cond.Whole := by
  cases cond with
  | compare op left right =>
    obtain ⟨_, _, hleft, hrest⟩ := exists_of_bind_eq_ok h
    obtain ⟨_, _, hright, -⟩ := exists_of_bind_eq_ok hrest
    exact ⟨Expr.whole_of_emit hleft, Expr.whole_of_emit hright⟩
  | half left mistake =>
    obtain ⟨_, _, -, hraise⟩ := exists_of_bind_eq_ok h
    exact (raise_ne_ok hraise).elim
  | unfollowed op left right mistake =>
    obtain ⟨_, _, -, h⟩ := exists_of_bind_eq_ok h
    obtain ⟨_, _, -, h⟩ := exists_of_bind_eq_ok h
    obtain ⟨_, _, -, hraise⟩ := exists_of_bind_eq_ok h
    exact (raise_ne_ok hraise).elim

theorem Declaration.whole_of_emit {declaration : Declaration}
    (h : declaration.emit session = .ok () next) : declaration.Whole := by
  cases declaration with
  | const name value => trivial
  | vars names type => trivial
  | stop mistake => exact (raise_ne_ok h).elim
  | unendedCopy source mistake =>
    obtain ⟨_, _, -, hraise⟩ := exists_of_bind_eq_ok h
    exact (raise_ne_ok hraise).elim

theorem whole_of_locals {locals : List Declaration}
    (h : locals.forM Declaration.emit session = .ok () next) :
    ∀ declaration ∈ locals, declaration.Whole := by
  induction locals generalizing session with
  | nil => simp
  | cons first rest ih =>
    obtain ⟨_, _, hfirst, hrest⟩ := exists_of_bind_eq_ok h
    intro declaration hmem
    rcases List.mem_cons.1 hmem with rfl | hmem
    · exact Declaration.whole_of_emit hfirst
    · exact ih hrest declaration hmem

theorem Stmt.whole_of_emit {stmt : Stmt} (h : stmt.emit session = .ok () next) : stmt.Whole := by
  induction stmt generalizing session next with
  | skip => trivial
  | seq first second ihfirst ihsecond =>
    obtain ⟨_, _, hfirst, hsecond⟩ := exists_of_bind_eq_ok h
    exact ⟨ihfirst hfirst, ihsecond hsecond⟩
  | assign target value =>
    obtain ⟨_, _, -, hrest⟩ := exists_of_bind_eq_ok h
    obtain ⟨_, _, hvalue, -⟩ := exists_of_bind_eq_ok hrest
    exact Expr.whole_of_emit hvalue
  | call callee => trivial
  | branch condition yes no ihyes ihno =>
    obtain ⟨_, _, hcondition, h⟩ := exists_of_bind_eq_ok h
    obtain ⟨thenBlock, _, -, h⟩ := exists_of_bind_eq_ok h
    obtain ⟨elseBlock, _, -, h⟩ := exists_of_bind_eq_ok h
    obtain ⟨merge, _, -, h⟩ := exists_of_bind_eq_ok h
    obtain ⟨_, forked, -, h⟩ := exists_of_bind_eq_ok h
    obtain ⟨_, moved, -, h⟩ := exists_of_bind_eq_ok h
    obtain ⟨_, _, hyes, h⟩ := exists_of_bind_eq_ok h
    obtain ⟨_, jumped, -, h⟩ := exists_of_bind_eq_ok h
    obtain ⟨_, moved, -, h⟩ := exists_of_bind_eq_ok h
    obtain ⟨_, _, hno, -⟩ := exists_of_bind_eq_ok h
    exact ⟨Cond.whole_of_emit hcondition, ihyes hyes, ihno hno⟩
  | loop condition body ih =>
    obtain ⟨test, _, -, h⟩ := exists_of_bind_eq_ok h
    obtain ⟨bodyBlock, _, -, h⟩ := exists_of_bind_eq_ok h
    obtain ⟨exit, _, -, h⟩ := exists_of_bind_eq_ok h
    obtain ⟨_, jumped, -, h⟩ := exists_of_bind_eq_ok h
    obtain ⟨_, moved, -, h⟩ := exists_of_bind_eq_ok h
    obtain ⟨_, _, hcondition, h⟩ := exists_of_bind_eq_ok h
    obtain ⟨_, forked, -, h⟩ := exists_of_bind_eq_ok h
    obtain ⟨_, moved, -, h⟩ := exists_of_bind_eq_ok h
    obtain ⟨_, _, hbody, -⟩ := exists_of_bind_eq_ok h
    exact ⟨Cond.whole_of_emit hcondition, ih hbody⟩
  | ret => trivial
  | block locals body ih =>
    obtain ⟨_, entered, -, h⟩ := exists_of_bind_eq_ok h
    obtain ⟨_, _, hlocals, h⟩ := exists_of_bind_eq_ok h
    obtain ⟨_, _, hbody, -⟩ := exists_of_bind_eq_ok h
    exact ⟨whole_of_locals hlocals, ih hbody⟩
  | stop mistake => exact (raise_ne_ok h).elim

theorem Heading.whole_of_emit {heading : Heading} {id : SymbolId}
    (h : heading.emit session = .ok id next) : heading.Whole := by
  cases heading with
  | named name => trivial
  | unnamed mistake => exact (raise_ne_ok h).elim
  | unended name mistake =>
    obtain ⟨_, _, -, hraise⟩ := exists_of_bind_eq_ok h
    exact (raise_ne_ok hraise).elim

theorem exists_of_within {id : SymbolId} {inside : Compiler Unit}
    (h : within id inside session = .ok () next) :
    ∃ before after, inside before = .ok () after := by
  obtain ⟨symbol, _, -, h⟩ := exists_of_bind_eq_ok h
  obtain ⟨_, told, -, h⟩ := exists_of_bind_eq_ok h
  obtain ⟨_, begun, -, h⟩ := exists_of_bind_eq_ok h
  obtain ⟨_, entered, -, h⟩ := exists_of_bind_eq_ok h
  obtain ⟨_, worked, hinside, -⟩ := exists_of_bind_eq_ok h
  exact ⟨entered, worked, hinside⟩

theorem Decls.whole_of_emit {decls : Decls} (h : decls.emit session = .ok () next) :
    decls.Whole := by
  induction decls generalizing session next with
  | nil => trivial
  | plain declaration rest ih =>
    obtain ⟨_, _, hfirst, hrest⟩ := exists_of_bind_eq_ok h
    exact ⟨Declaration.whole_of_emit hfirst, ih hrest⟩
  | nested heading locals body rest ihlocals ihrest =>
    obtain ⟨id, _, hheading, h⟩ := exists_of_bind_eq_ok h
    obtain ⟨_, _, hwithin, hrest⟩ := exists_of_bind_eq_ok h
    obtain ⟨_, _, hinside⟩ := exists_of_within hwithin
    obtain ⟨_, _, hlocals, hbody⟩ := exists_of_bind_eq_ok hinside
    exact ⟨Heading.whole_of_emit hheading, ihlocals hlocals, Stmt.whole_of_emit hbody,
      ihrest hrest⟩
  | stop mistake => exact (raise_ne_ok h).elim

end Tree

end BlockLang
