import BlockLang.Proofs.Session.Runs
import BlockLang.Proofs.Tree.Grammar

/-! A source is found malformed only where its tree holds a mistake. Everything else that
carrying out a tree does can fail, but not because of the grammar. -/

namespace BlockLang

open Code Names BlockLang.Tree Compiler

section

variable {σ α β : Type}

/-- The step never ends because the source does not follow the grammar. -/
def Spares (step : EStateM Failure σ α) : Prop :=
  ∀ state location message next, step state ≠ .error (.error (.malformed location message)) next

@[grind ←] theorem spares_pure (value : α) : Spares (pure value : EStateM Failure σ α) := nofun

@[grind ←] theorem spares_get : Spares (get : EStateM Failure σ σ) := nofun

@[grind ←] theorem spares_set (state : σ) : Spares (set state : EStateM Failure σ PUnit) := nofun

@[grind ←] theorem spares_modify (change : σ → σ) :
    Spares (modify change : EStateM Failure σ PUnit) := nofun

@[grind ←] theorem spares_fault (fault : Fault) :
    Spares (throw (.fault fault) : EStateM Failure σ α) := nofun

@[grind ←] theorem spares_internal (message : String) :
    Spares (throw (.error (.internal message)) : EStateM Failure σ α) := nofun

@[grind ←] theorem Spares.bind {step : EStateM Failure σ α} {next : α → EStateM Failure σ β}
    (h : Spares step) (hnext : ∀ value, Spares (next value)) : Spares (step >>= next) := by
  intro state location message last
  have hrun : (step >>= next) state = EStateM.bind step next state := rfl
  rw [hrun, EStateM.bind]
  cases hstep : step state with
  | ok value after => exact hnext value after location message last
  | error failure _ =>
    rintro ⟨⟩
    exact h _ _ _ _ hstep

theorem Spares.discard {step : EStateM Failure σ α} (h : Spares step) :
    Spares (discard step) :=
  h.bind fun _ => spares_pure _

theorem Spares.forM {step : α → EStateM Failure σ PUnit} (items : List α)
    (h : ∀ item ∈ items, Spares (step item)) : Spares (items.forM step) := by
  induction items with
  | nil => exact spares_pure _
  | cons item rest ih =>
    exact (h item List.mem_cons_self).bind fun _ =>
      ih fun other hother => h other (List.mem_cons_of_mem _ hother)

end

variable {α : Type}

namespace Code.Build

@[grind ←] theorem spares_change (action : Module → Except Fault (α × Module)) :
    Spares (change action) := by
  grind [change]

@[grind ←] theorem spares_isTerminated (block : BlockRef) : Spares (isTerminated block) := by
  grind [isTerminated, view]

@[grind ←] theorem spares_here : Spares here := by
  grind [here]

@[grind ←] theorem spares_emit (instr : Instr) : Spares (emit instr) := by
  grind [emit]

@[grind ←] theorem spares_freshRegister (type : Ty) : Spares (freshRegister type) := by
  grind [freshRegister]

@[grind ←] theorem spares_binary (op : BinOp) (left right : Value) :
    Spares (binary op left right) := by
  grind [binary]

@[grind ←] theorem spares_intCast (value : Value) (type : Ty) (signed : Bool) :
    Spares (intCast value type signed) := by
  cases value <;> grind [intCast]

end Code.Build

namespace Compiler

@[grind ←] theorem spares_build {step : Build α} (h : Spares step) : Spares (build step) := by
  intro session location message next
  unfold build
  cases hstep : step session.builder with
  | ok result builder => exact nofun
  | error failure _ =>
    rintro ⟨⟩
    exact h _ _ _ _ hstep

@[grind ←] theorem spares_orFault (result : Except Fault α) : Spares (orFault result) := by
  cases result <;> grind [orFault]

@[grind ←] theorem spares_tell (entry : Log.Entry) : Spares (tell entry) := by
  grind [tell]

@[grind ←] theorem spares_locate (place : Place) : Spares (locate place) := by
  grind [locate]

@[grind ←] theorem spares_enterScope : Spares enterScope := by
  grind [enterScope, record]

@[grind ←] theorem spares_leaveScope : Spares leaveScope := by
  grind [leaveScope, record, internal, fail]

@[grind ←] theorem spares_add (name : String) : Spares (add name) := by
  refine Spares.bind spares_get fun session => ?_
  unfold Forest.add
  split <;> exact nofun

@[grind ←] theorem spares_find (name : String) : Spares (find name) := by
  refine Spares.bind spares_get fun session => ?_
  unfold Forest.find
  split <;> exact nofun

@[grind ←] theorem spares_symbol (id : SymbolId) : Spares (symbol id) := by
  grind [Compiler.symbol]

@[grind ←] theorem spares_update (id : SymbolId) (change : Symbol → Except Fault Symbol) :
    Spares (update id change) := by
  grind [update]

@[grind ←] theorem spares_declare (id : SymbolId) (meaning : Meaning) :
    Spares (declare id meaning) :=
  spares_update id _

@[grind ←] theorem spares_moveTo (block : BlockRef) : Spares (moveTo block) := by
  grind [moveTo, record, Build.moveTo]

@[grind ←] theorem spares_currentProcedure : Spares currentProcedure := by
  grind [currentProcedure, internal, fail]

@[grind ←] theorem spares_currentBlock : Spares currentBlock := by
  grind [currentBlock, internal, fail]

@[grind ←] theorem spares_setCurrentBlock (block : BlockRef) :
    Spares (setCurrentBlock block) := by
  grind [setCurrentBlock]

@[grind ←] theorem spares_appendBlock (label : String) : Spares (appendBlock label) := by
  grind [appendBlock, Build.appendBlock]

@[grind ←] theorem spares_jumpIfOpen (target : BlockRef) : Spares (jumpIfOpen target) := by
  grind [jumpIfOpen, Build.jump]

@[grind ←] theorem spares_resolve (name : Ident) : Spares (resolve name) := by
  grind [resolve]

@[grind ←] theorem spares_mismatch (symbol : Symbol) (expected : String) :
    Spares (mismatch symbol expected : Compiler α) := nofun

@[grind ←] theorem spares_resolveAs (kind : Kind) (name : Ident) : Spares (resolveAs kind name) := by
  grind [resolveAs, record]

@[grind ←] theorem spares_loadName (name : Ident) : Spares (loadName name) := by
  refine Spares.bind (spares_resolve name) fun symbol => ?_
  split
  · split
    · exact spares_pure _
    · intro session location message next h
      cases h
  · grind [Build.load, Build.view]
  · exact spares_mismatch symbol "value"

@[grind ←] theorem spares_unify (left right : Operand) : Spares (unify left right) := by
  grind [unify]

@[grind ←] theorem spares_combine (op : Operator) (left right : Operand) :
    Spares (combine op left right) := by
  grind [combine]

@[grind ←] theorem spares_negate (operand : Operand) : Spares (negate operand) := by
  grind [Compiler.negate]

@[grind ←] theorem spares_compare (op : Comparison) (left right : Operand) :
    Spares (Compiler.compare op left right) := by
  grind [Compiler.compare, Build.compare]

@[grind ←] theorem spares_declareLiteral (id : SymbolId) (text : String) :
    Spares (declareLiteral id text) := by
  grind [declareLiteral, record]

@[grind ←] theorem spares_declareCell (id : SymbolId) (type : IntType) :
    Spares (declareCell id type) := by
  refine Spares.bind (spares_symbol id) fun symbol => ?_
  grind [Build.createGlobal, Build.view, record]

theorem spares_openProcedure (id : SymbolId) (path : String) (internal : Bool) :
    Spares (openProcedure id path internal) := by
  refine Spares.bind (spares_build (Build.spares_change _)) fun function => ?_
  refine Spares.bind (spares_build (Build.spares_change _)) fun entry => ?_
  grind [record]

@[grind ←] theorem spares_beginProcedure (id : SymbolId) : Spares (beginProcedure id) := by
  rw [beginProcedure_eq]
  refine Spares.bind (spares_symbol id) fun found => Spares.bind spares_get fun session => ?_
  split
  · exact Spares.bind (spares_update _ _) fun _ => spares_openProcedure id _ _
  · exact spares_openProcedure id _ _

@[grind ←] theorem spares_endProcedure : Spares endProcedure := by
  refine Spares.bind spares_get fun session => ?_
  split
  · exact nofun
  · grind [record]
  · grind [record]

end Compiler

namespace Tree

theorem Expr.spares_emit {expr : Expr} (h : expr.Whole) : Spares expr.emit := by
  induction expr with
  | number value => exact spares_pure _
  | name ident => exact spares_loadName ident
  | negate operand ih => exact (ih h).bind fun value => spares_negate value
  | binary op left right ihleft ihright =>
    exact (ihleft h.1).bind fun first => (ihright h.2).bind fun second =>
      spares_combine op first second
  | missing mistake => exact h.elim
  | unclosed inner mistake => exact h.elim

theorem Cond.spares_emit {cond : Cond} (h : cond.Whole) : Spares cond.emit := by
  cases cond with
  | compare op left right =>
    exact (Expr.spares_emit h.1).bind fun first => (Expr.spares_emit h.2).bind fun second =>
      spares_compare op first second
  | half left mistake => exact h.elim
  | unfollowed op left right mistake => exact h.elim

theorem ConstValue.spares_emit (value : ConstValue) : Spares value.emit := by
  cases value with
  | text spelling => exact spares_pure _
  | copy source => exact (spares_resolveAs .literal source).bind fun _ => spares_orFault _

theorem Ident.spares_declare (name : Ident) : Spares name.declare :=
  (spares_locate name.place).bind fun _ => spares_add name.name

theorem Declaration.spares_emit {declaration : Declaration} (h : declaration.Whole) :
    Spares declaration.emit := by
  cases declaration with
  | const name value =>
    exact value.spares_emit.bind fun text => name.spares_declare.bind fun id =>
      spares_declareLiteral id text
  | vars names type =>
    refine Spares.forM names fun name _ => ?_
    exact name.spares_declare.bind fun id => (spares_declareCell id type).discard
  | stop mistake => exact h.elim
  | unendedCopy source mistake => exact h.elim

theorem Stmt.spares_emit {stmt : Stmt} (h : stmt.Whole) : Spares stmt.emit := by
  induction stmt with
  | skip => exact spares_pure _
  | seq first second ihfirst ihsecond => exact (ihfirst h.1).bind fun _ => ihsecond h.2
  | assign target value =>
    refine (spares_resolveAs .cell target).bind fun symbol => ?_
    refine (Expr.spares_emit h).bind fun operand => ?_
    grind [Build.store]
  | call callee =>
    refine (spares_resolveAs .procedure callee).bind fun symbol => ?_
    grind [Build.call]
  | branch condition yes no ihyes ihno =>
    refine (Cond.spares_emit h.1).bind fun value => ?_
    refine (spares_appendBlock "then").bind fun thenBlock => ?_
    refine (spares_appendBlock "else").bind fun elseBlock => ?_
    refine (spares_appendBlock "endif").bind fun merge => ?_
    refine (spares_build (Build.spares_emit _)).bind fun _ => ?_
    refine (spares_setCurrentBlock thenBlock).bind fun _ => ?_
    refine (ihyes h.2.1).bind fun _ => ?_
    refine (spares_jumpIfOpen merge).bind fun _ => ?_
    refine (spares_setCurrentBlock elseBlock).bind fun _ => ?_
    refine (ihno h.2.2).bind fun _ => ?_
    exact (spares_jumpIfOpen merge).bind fun _ => spares_setCurrentBlock merge
  | loop condition body ih =>
    refine (spares_appendBlock "while.cond").bind fun test => ?_
    refine (spares_appendBlock "while.body").bind fun bodyBlock => ?_
    refine (spares_appendBlock "while.end").bind fun exit => ?_
    refine (spares_jumpIfOpen test).bind fun _ => ?_
    refine (spares_setCurrentBlock test).bind fun _ => ?_
    refine (Cond.spares_emit h.1).bind fun value => ?_
    refine (spares_build (Build.spares_emit _)).bind fun _ => ?_
    refine (spares_setCurrentBlock bodyBlock).bind fun _ => ?_
    refine (ih h.2).bind fun _ => ?_
    exact (spares_jumpIfOpen test).bind fun _ => spares_setCurrentBlock exit
  | ret =>
    refine (spares_build (Build.spares_emit _)).bind fun _ => ?_
    exact (spares_appendBlock "after.return").bind fun block => spares_setCurrentBlock block
  | block locals body ih =>
    refine spares_enterScope.bind fun _ => ?_
    refine (Spares.forM locals fun declaration hmem =>
      Declaration.spares_emit (h.1 declaration hmem)).bind fun _ => ?_
    exact (ih h.2).bind fun _ => spares_leaveScope
  | stop mistake => exact h.elim

theorem Heading.spares_emit {heading : Heading} (h : heading.Whole) : Spares heading.emit := by
  cases heading with
  | named name => exact name.spares_declare
  | unnamed mistake => exact h.elim
  | unended name mistake => exact h.elim

theorem spares_closeProcedure : Spares closeProcedure := by
  have hclose : Spares (do leaveScope; endProcedure; tell .leave) := by
    grind
  refine spares_currentBlock.bind fun block => ?_
  refine (spares_build (Build.spares_isTerminated block)).bind fun terminated => ?_
  dsimp only
  split
  · exact hclose
  · exact (spares_build (Build.spares_emit _)).bind fun _ => hclose

theorem spares_within (id : SymbolId) {inside : Compiler Unit} (h : Spares inside) :
    Spares (within id inside) := by
  rw [within_eq]
  refine (spares_symbol id).bind fun symbol => ?_
  refine (spares_tell _).bind fun _ => ?_
  refine (spares_beginProcedure id).bind fun _ => ?_
  refine spares_enterScope.bind fun _ => ?_
  exact h.bind fun _ => spares_closeProcedure

theorem Decls.spares_emit {decls : Decls} (h : decls.Whole) : Spares decls.emit := by
  induction decls with
  | nil => exact spares_pure _
  | plain declaration rest ih => exact (Declaration.spares_emit h.1).bind fun _ => ih h.2
  | nested heading locals body rest ihlocals ihrest =>
    obtain ⟨hheading, hlocals, hbody, hrest⟩ := h
    refine (Heading.spares_emit hheading).bind fun id => ?_
    refine (spares_within id ?_).bind fun _ => ihrest hrest
    exact (ihlocals hlocals).bind fun _ => Stmt.spares_emit hbody
  | stop mistake => exact h.elim

theorem Program.spares_emit {program : Program} (h : program.decls.Whole) :
    Spares program.emit := by
  refine (Decls.spares_emit h).bind fun _ => ?_
  split
  · exact spares_locate _
  · exact spares_pure _

end Tree

end BlockLang
