import BlockLang.Proofs.Core.Procedures
import BlockLang.Proofs.Lexical.Spots
import BlockLang.Proofs.Session.Laying

/-! Where work ends with an error of a name, the names at all spots before are in order, and
the error is that of the name at the next spot. -/

namespace BlockLang

open Code Names BlockLang.Core Compiler Lexical

/-- The name that an error is about, if it is about a name. -/
def Error.name? : Error → Option String
  | duplicate _ name | unresolved _ name | wrongKind _ name _ _ | notNumeric _ name _ => some name
  | malformed _ _ | unreadable _ _ | rejected _ _ | internal _ | inaccessible _ _ => none

def Core.Entity.kind : Entity → Kind
  | literal _ => .literal
  | procedure _ => .procedure
  | cell _ _ => .cell

theorem Names.Meaning.kind_entity (meaning : Meaning) : meaning.entity.kind = meaning.kind := by
  cases meaning <;> rfl

namespace Lexical

/-- How the name at a spot is at fault where the names in `env` are known. The session is the
one that work ends with. -/
inductive Fails (env : Env) (session : Session) (spot : Spot) : Error → Prop
  | duplicate {name : Tree.Ident} {entity : Entity} (hname : spot.declared? = some name)
    (hplace : session.location.toPlace = name.place) (hopen : env ≠ [])
    (hagain : env.declare? name.name entity = none) :
    Fails env session spot (.duplicate session.location name.name)
  | unresolved {use : Use} (huse : spot.use? = some use)
    (hplace : session.location.toPlace = use.name.place) (hnone : env.find? use.name.name = none) :
    Fails env session spot (.unresolved session.location use.name.name)
  | wrongKind {use : Use} {entity : Entity} {id : SymbolId} {symbol : Symbol}
    (huse : spot.use? = some use) (hplace : session.location.toPlace = use.name.place)
    (hfound : env.find? use.name.name = some entity) (hkind : entity.kind ∉ use.kinds)
    (hid : session.forest.find? session.scope use.name.name = some id)
    (hsymbol : session.forest.symbols[id]? = some symbol) :
    Fails env session spot
      (.wrongKind session.location symbol.name use.wanted entity.kind.describe)
  | notNumeric {name : Tree.Ident} {text : String} (hspot : spot = .operand name)
    (hplace : session.location.toPlace = name.place)
    (hfound : env.find? name.name = some (.literal text)) (hread : Numeral.read? text = none) :
    Fails env session spot (.notNumeric session.location name.name text)

/-- If the error is about a name, it is that of a spot, and the spots before can be passed. -/
def Blames (state : State) (spots : List Spot) (error : Error) (session : Session) : Prop :=
  error.name? = none ∨ ∃ before spot after reached, spots = before ++ spot :: after ∧
    state.run (before.map Spot.mark) = some reached ∧ Fails reached.env session spot error

variable {state reached : State} {spot : Spot} {spots more : List Spot} {error : Error}
  {session : Session}

theorem Blames.head (h : Fails state.env session spot error) :
    Blames state (spot :: spots) error session :=
  .inr ⟨[], spot, spots, state, rfl, rfl, h⟩

theorem Blames.left (h : Blames state spots error session) :
    Blames state (spots ++ more) error session := by
  rcases h with hname | ⟨before, spot, after, reached, rfl, hrun, hfails⟩
  · exact .inl hname
  · exact .inr ⟨before, spot, after ++ more, reached, by simp, hrun, hfails⟩

theorem Blames.right (hrun : state.run (spots.map Spot.mark) = some reached)
    (h : Blames reached more error session) : Blames state (spots ++ more) error session := by
  rcases h with hname | ⟨before, spot, after, last, rfl, hrest, hfails⟩
  · exact .inl hname
  · refine .inr ⟨spots ++ before, spot, after, last, by simp, ?_, hfails⟩
    rw [List.map_append, State.run_append, hrun]
    exact hrest

theorem Blames.cons (hstep : state.step spot.mark = some reached)
    (h : Blames reached spots error session) : Blames state (spot :: spots) error session := by
  have hrun : state.run ([spot].map Spot.mark) = some reached := by simp [hstep]
  exact Blames.right hrun h

end Lexical

namespace Compiler

variable {α β ρ : Type} {session : Session} {env : Env} {state reached : State} {spot : Spot}
  {spots more : List Spot}

/-- Whatever error the step ends with, the spots account for it. -/
def Explained (step : Compiler α) (session : Session) (state : State) (spots : List Spot) : Prop :=
  ∀ error next, step session = .error (.error error) next → Blames state spots error next

theorem Ends.explained {step : Compiler α} {done : α → Session → Prop}
    (h : Ends step session (Blames state spots) done) : Explained step session state spots := by
  exact fun error next hrun => h.of_error hrun

theorem Explained.ends {step : Compiler α} {failed : Error → Session → Prop}
    {done : α → Session → Prop} (h : Explained step session state spots)
    (hends : Ends step session failed done) : Ends step session (Blames state spots) done := by
  unfold Ends at hends ⊢
  split at hends
  · exact hends
  · next hrun => exact h _ _ hrun
  · exact hends

theorem name?_of_raise {mistake : Tree.Mistake} {error : Error} {next : Session}
    (h : (raise mistake : Compiler α) session = .error (.error error) next) : error.name? = none := by
  unfold raise at h
  cases hreached : mistake.reached with
  | none =>
    rw [hreached] at h
    cases h
    rfl
  | some place =>
    rw [hreached] at h
    cases h
    rfl

theorem explained_raise (mistake : Tree.Mistake) :
    Explained (raise mistake : Compiler α) session state spots :=
  fun _ _ hrun => .inl (name?_of_raise hrun)

/-- A step that is carried out for its errors only. -/
theorem Explained.thenRaise {step : Compiler α} (h : Explained step session state spots)
    (mistake : Tree.Mistake) :
    Explained (do discard step; raise mistake : Compiler β) session state spots := by
  intro error next hrun
  rcases of_bind_eq_error hrun with hstep | ⟨_, middle, -, hraise⟩
  · rcases of_bind_eq_error hstep with hstep | ⟨_, _, -, hdone⟩
    · exact h error next hstep
    · cases hdone
  · exact .inl (name?_of_raise hraise)

/-- Straight-line code is written in any case. -/
theorem Writes.explained {step : Compiler α} {code : Straight α} (h : Writes step code)
    {function : FunctionId} {draft : Draft} (hat : session.builder.At function draft) :
    Explained step session state spots := by
  intro error next hrun
  rw [h session function draft hat] at hrun
  cases hrun

theorem ends_resolve (h : session.Sees env) (name : Tree.Ident) :
    Ends (resolve name) session
      (fun error next => env.find? name.name = none ∧ next = session.locatedAt name.place ∧
        error = .unresolved next.location name.name)
      fun symbol next => next = session.locatedAt name.place ∧ ∃ id meaning,
        env.find? name.name = some meaning.entity ∧ symbol.meaning? = some meaning ∧
        next.forest.find? next.scope name.name = some id ∧
          next.forest.symbols[id]? = some symbol := by
  have hlocated : (session.locatedAt name.place).Sees env :=
    h.congr (h.sound.locatedAt name.place) rfl (fun _ => rfl) rfl
  unfold resolve
  refine ends_bind_of_ok (locate_eq name.place) ?_
  cases hname : env.find? name.name with
  | none =>
    exact ends_of_error (bind_eq_error (find_eq_error (hlocated.find?_eq_none hname)))
      ⟨rfl, rfl, rfl⟩
  | some entity =>
    obtain ⟨id, symbol, meaning, hid, hsymbol, hmeaning, rfl⟩ := hlocated.find?_eq_some hname
    exact ends_of_ok ((bind_eq_ok (find_eq_ok hid)).trans (symbol_eq hsymbol))
      ⟨rfl, id, meaning, rfl, hmeaning, hid, hsymbol⟩

private theorem ends_mismatch (session : Session) {use : Use} {symbol : Symbol} {meaning : Meaning} {id : SymbolId}
    (huse : spot.use? = some use) (hplace : session.location.toPlace = use.name.place)
    (hfound : env.find? use.name.name = some meaning.entity)
    (hmeaning : symbol.meaning? = some meaning) (hkind : meaning.kind ∉ use.kinds)
    (hid : session.forest.find? session.scope use.name.name = some id)
    (hsymbol : session.forest.symbols[id]? = some symbol) {done : α → Session → Prop} :
    Ends (mismatch symbol use.wanted) session (fun error next => Fails env next spot error) done := by
  have hdescribe : symbol.describeKind = meaning.entity.kind.describe := by
    simp [Symbol.describeKind, Symbol.kind?, hmeaning, Meaning.kind_entity]
  refine ends_get_bind (ends_fail ?_)
  rw [hdescribe]
  exact .wrongKind huse hplace hfound (by rwa [Meaning.kind_entity]) hid hsymbol

theorem ends_resolveAs (h : session.Sees env) {kind : Kind} {name : Tree.Ident}
    (huse : spot.use? = some (.of kind name)) :
    Ends (resolveAs kind name) session (fun error next => Fails env next spot error)
      fun symbol next => next = session.locatedAt name.place ∧ ∃ meaning,
        env.find? name.name = some meaning.entity ∧ symbol.meaning? = some meaning ∧
          meaning.kind = kind := by
  unfold resolveAs
  refine ((ends_resolve h name).imp ?_ fun _ _ hdone => hdone).bind ?_
  · rintro _ _ ⟨hnone, rfl, rfl⟩
    exact .unresolved huse rfl hnone
  · rintro symbol _ ⟨rfl, id, meaning, hfound, hmeaning, hid, hsymbol⟩
    have hkind : symbol.kind? = some meaning.kind := by simp [Symbol.kind?, hmeaning]
    by_cases hsame : meaning.kind = kind
    · rw [if_pos (by rw [hkind, hsame])]
      exact ends_of_ok rfl ⟨rfl, meaning, hfound, hmeaning, hsame⟩
    · rw [if_neg (by rw [hkind]; simpa using hsame)]
      refine ends_bind_of_ok (record_eq _) ?_
      have hother : meaning.kind ∉ (Use.of kind name).kinds := by simpa [Use.of] using hsame
      exact ends_mismatch ((session.locatedAt name.place).told _) huse rfl hfound hmeaning hother
        hid hsymbol

theorem ends_loadName {cells : List IntType} {before after : List Sketch} {draft : Draft}
    (h : session.Writing env cells before draft after) (name : Tree.Ident) :
    Ends (loadName name) session (fun error next => Fails env next (.operand name) error)
      fun _ _ => True := by
  have huse : (Spot.operand name).use? = some ⟨name, [.literal, .cell], "value"⟩ := rfl
  unfold loadName
  refine ((ends_resolve h.sees name).imp ?_ fun _ _ hdone => hdone).bind ?_
  · rintro _ _ ⟨hnone, rfl, rfl⟩
    exact .unresolved huse rfl hnone
  · rintro symbol _ ⟨rfl, id, meaning, hfound, hmeaning, hid, hsymbol⟩
    have hnext := h.locatedAt name.place
    rw [hmeaning]
    cases meaning with
    | literal text =>
      dsimp only
      cases hread : Numeral.read? text with
      | none => exact ends_of_error rfl (.notNumeric rfl rfl hfound hread)
      | some value => exact ends_of_ok rfl trivial
    | procedure function block =>
      exact ends_mismatch _ huse rfl hfound hmeaning (by simp [Meaning.kind]) hid hsymbol
    | cell global type =>
      obtain ⟨made, hmade, -⟩ := hnext.global hfound
      refine ends_bind_of_ok (build_eq_ok (Build.load_eq hnext.builder_at hmade)) ?_
      exact ends_of_ok rfl trivial

theorem ends_declare (h : session.Sees env) {name : Tree.Ident}
    (hname : spot.declared? = some name) (entity : Entity) :
    Ends name.declare session (fun error next => Fails env next spot error) fun id next =>
      ∃ declared, env.declare? name.name entity = some declared ∧
        id = session.forest.symbols.length ∧
          next = (session.locatedAt name.place).added name.name := by
  have hlocated : (session.locatedAt name.place).Sees env :=
    h.congr (h.sound.locatedAt name.place) rfl (fun _ => rfl) rfl
  unfold Tree.Ident.declare
  refine ends_bind_of_ok (locate_eq name.place) ?_
  cases henv : env.declare? name.name entity with
  | none =>
    obtain ⟨id, hid⟩ := hlocated.declared?_of_none henv
    obtain ⟨inner, outer, rfl, -⟩ := h.innermost
    exact ends_of_error (add_eq_error hid) (.duplicate hname rfl (List.cons_ne_nil _ _) henv)
  | some declared =>
    exact ends_of_ok (add_eq_ok (hlocated.declared?_of_some henv)) ⟨declared, rfl, rfl, rfl⟩

end Compiler

namespace Tree

variable {session : Session} {state : State} {before after : List Sketch} {draft : Draft}
  {waiting : List BlockId}

/-- Two operands are evaluated, and what is then done with them is not about a name. -/
private theorem explained_operands {β : Type} {cells : List IntType} {left right : Expr}
    {next : Operand → Operand → Compiler β}
    (h : session.Writing state.env cells before draft after)
    (hleft : Explained left.emit session state left.spots)
    (hright : ∀ {middle : Session} {reached : State} {draft : Draft},
      middle.Writing reached.env cells before draft after →
        Explained right.emit middle reached right.spots)
    (hnext : ∀ {first second : Operand} {last : Session} {reached : State} {draft : Draft},
      last.builder.At before.length draft → first.Sound → second.Sound →
        Explained (next first second) last reached []) :
    Explained (do
      let first ← left.emit
      let second ← right.emit
      next first second) session state (left.spots ++ right.spots) := by
  intro error final hrun
  rcases of_bind_eq_error hrun with hfirst | ⟨first, middle, hfirst, hrest⟩
  · exact (hleft error final hfirst).left
  obtain ⟨found, hfound, ⟨-, hmiddle⟩, -, hsound⟩ :=
    ((left.yields_emit h).and_safe (left.safe_emit h.sees.sound h.opened)).of_ok hfirst
  have hmiddle : middle.Writing (state.touch found.accesses).env cells before _ after := hmiddle
  refine Blames.right (Expr.run_spots hfound) ?_
  rcases of_bind_eq_error hrest with hsecond | ⟨second, last, hsecond, hlast⟩
  · exact hright hmiddle error final hsecond
  obtain ⟨other, hother, ⟨-, hwriting⟩, -, hsound'⟩ := ((right.yields_emit hmiddle).and_safe
    (right.safe_emit hmiddle.sees.sound hmiddle.opened)).of_ok hsecond
  rw [← List.append_nil right.spots]
  exact (hnext hwriting.builder_at hsound hsound' error final hlast).right (Expr.run_spots hother)

theorem Expr.explained_emit (expr : Expr) {cells : List IntType}
    (h : session.Writing state.env cells before draft after) :
    Explained expr.emit session state expr.spots := by
  induction expr generalizing session state draft with
  | number value => nofun
  | name ident =>
    exact ((ends_loadName h ident).imp (fun _ _ => .head) fun _ _ hdone => hdone).explained
  | negate operand ih =>
    intro error next hrun
    rcases of_bind_eq_error hrun with hoperand | ⟨value, middle, hoperand, -⟩
    · exact ih h error next hoperand
    · obtain ⟨found, hfound, -⟩ := (operand.yields_emit h).of_ok hoperand
      have hnone := ((negate operand).yields_emit h).of_error hrun
      simp [resolve, hfound] at hnone
  | binary op left right ihleft ihright =>
    refine explained_operands h (ihleft h) ihright ?_
    intro first second last reached _ hat hfirst hsecond
    exact (writes_combine op hfirst hsecond).explained hat
  | missing mistake => exact explained_raise mistake
  | unclosed inner mistake ih => exact (ih h).thenRaise mistake

theorem Cond.explained_emit (cond : Cond) {cells : List IntType}
    (h : session.Writing state.env cells before draft after) :
    Explained cond.emit session state cond.spots := by
  cases cond with
  | compare op left right =>
    refine explained_operands h (left.explained_emit h) right.explained_emit ?_
    intro first second last reached _ hat hfirst hsecond
    exact (writes_compare op hfirst hsecond).explained hat
  | half left mistake => exact (left.explained_emit h).thenRaise mistake
  | unfollowed op left right mistake =>
    refine explained_operands h (left.explained_emit h) right.explained_emit ?_
    intro first second last reached _ hat hfirst hsecond
    exact ((writes_compare op hfirst hsecond).explained hat).thenRaise mistake

variable {sketches : List Sketch}

theorem ends_copy {env : Env} {spot : Spot} {source : Ident} (h : session.Sees env)
    (huse : spot.use? = some (.of .literal source)) :
    Ends (ConstValue.emit (.copy source)) session (fun error next => Fails env next spot error)
      fun _ _ => True := by
  refine (ends_resolveAs h huse).bind ?_
  rintro symbol _ ⟨rfl, meaning, -, hmeaning, hkind⟩
  have hliteral : symbol.kind? = some .literal := by simp [Symbol.kind?, hmeaning, hkind]
  obtain ⟨text, htext⟩ := Symbol.literal_of_kind? hliteral
  exact ends_of_ok (orFault_eq_ok text (by simp [Symbol.literal, htext])) trivial

private theorem explained_cell {type : IntType} (htype : type ∈ IntType.declarable) (name : Ident)
    (h : session.Shows state.env state.cells sketches) :
    Explained (do discard (declareCell (← name.declare) type)) session state [.cell name type] := by
  have hname : (Spot.cell name type).declared? = some name := rfl
  have hdeclare := ends_declare h.sees hname (.cell state.cells.length type)
  intro error next hrun
  rcases of_bind_eq_error hrun with hfirst | ⟨id, middle, hfirst, -⟩
  · exact .head (hdeclare.of_error hfirst)
  · obtain ⟨declared, hdeclared, -⟩ := hdeclare.of_ok hfirst
    have hnone := (yields_cell htype name h).of_error hrun
    rw [hdeclared] at hnone
    cases hnone

private theorem explained_names {type : IntType} (htype : type ∈ IntType.declarable)
    (names : List Ident) (h : session.Shows state.env state.cells sketches) :
    Explained (names.forM fun name => do discard (declareCell (← name.declare) type)) session state
      (names.map fun name => .cell name type) := by
  induction names generalizing session state with
  | nil => nofun
  | cons name rest ih =>
    rw [List.forM_eq_forM, List.forM_cons]
    intro error next hrun
    rcases of_bind_eq_error hrun with hfirst | ⟨_, middle, hfirst, hrest⟩
    · exact (explained_cell htype name h error next hfirst).left
    · obtain ⟨declared, hdeclared, hmiddle, -⟩ := (yields_cell htype name h).of_ok hfirst
      let reached : State := { state with env := declared, cells := state.cells ++ [type] }
      have hreached : middle.Shows reached.env reached.cells sketches := hmiddle
      refine Blames.cons ?_ (ih hreached error next hrest)
      simp [Spot.mark, State.step, hdeclared, reached]

theorem Declaration.explained_emit {declaration : Declaration}
    (hdeclarable : declaration.Declarable) (h : session.Shows state.env state.cells sketches) :
    Explained declaration.emit session state declaration.spots := by
  cases declaration with
  | const name value =>
    intro error next hrun
    rcases of_bind_eq_error hrun with hvalue | ⟨text, valued, hvalue, hrest⟩
    · cases value with
      | text spelling => cases hvalue
      | copy source =>
        have huse : (Spot.constant name (.copy source)).use? = some (.of .literal source) := rfl
        exact ((ends_copy h.sees huse).imp (fun _ _ => .head) fun _ _ hdone => hdone).explained
          error next hvalue
    obtain ⟨found, hfound, -, hvalued, -⟩ := (value.yields_emit h).of_ok hvalue
    have hname : (Spot.constant name value).declared? = some name := rfl
    have hdeclare := ends_declare hvalued.sees hname (.literal found)
    rcases of_bind_eq_error hrest with hfirst | ⟨id, middle, hfirst, -⟩
    · exact .head (hdeclare.of_error hfirst)
    · obtain ⟨declared, hdeclared, -⟩ := hdeclare.of_ok hfirst
      have hnone := (Declaration.yields_emit hdeclarable h).of_error hrun
      simp [resolve, hfound, hdeclared] at hnone
  | vars names type => exact explained_names hdeclarable names h
  | stop mistake => exact explained_raise mistake
  | unendedCopy source mistake =>
    have huse : (Spot.copied source).use? = some (.of .literal source) := rfl
    exact ((ends_copy h.sees huse).imp (fun _ _ => .head) fun _ _ hdone => hdone).explained.thenRaise
      mistake

theorem explained_locals {locals : List Declaration}
    (hdeclarable : ∀ declaration ∈ locals, declaration.Declarable)
    (h : session.Shows state.env state.cells sketches) :
    Explained (locals.forM Declaration.emit) session state
      (locals.flatMap Declaration.spots) := by
  induction locals generalizing session state with
  | nil => nofun
  | cons declaration rest ih =>
    have hfirst := hdeclarable declaration List.mem_cons_self
    rw [List.forM_eq_forM, List.forM_cons]
    intro error next hrun
    rcases of_bind_eq_error hrun with hdone | ⟨_, middle, hdone, hrest⟩
    · exact (Declaration.explained_emit hfirst h error next hdone).left
    · obtain ⟨⟨declared, more⟩, hfound, hmiddle, -⟩ := (Declaration.yields_emit hfirst h).of_ok hdone
      let reached : State := { state with env := declared, cells := more }
      have hreached : middle.Shows reached.env reached.cells sketches := hmiddle
      refine Blames.right (Declaration.run_spots hfound) ?_
      exact ih (fun other hother => hdeclarable other (List.mem_cons_of_mem _ hother)) hreached error
        next hrest

private theorem Stmt.explained_assign (target : Ident) (value : Expr)
    (h : session.Writing state.env state.cells before draft after)
    (htidy : Desk.Tidy ⟨draft, waiting⟩) :
    Explained (Stmt.assign target value).emit session state (Stmt.assign target value).spots := by
  have huse : (Spot.target target).use? = some (.of .cell target) := rfl
  have hresolve := ends_resolveAs h.sees huse
  intro error next hrun
  rcases of_bind_eq_error hrun with hfirst | ⟨symbol, middle, hfirst, hrest⟩
  · exact .head (hresolve.of_error hfirst)
  obtain ⟨rfl, meaning, hfound, hmeaning, hkind⟩ := hresolve.of_ok hfirst
  cases meaning with
  | literal text => cases hkind
  | procedure function block => cases hkind
  | cell global type =>
    have hcell : state.env.cell? target.name = some (global, type) := by
      simp [Env.cell?, hfound, Meaning.entity]
    have hstep : state.step (Spot.target target).mark = some (state.touch [.store global]) := by
      simp [Spot.mark, State.step, hcell]
    have hlocated : (session.locatedAt target.place).Writing (state.touch [.store global]).env
        state.cells before draft after := h.locatedAt target.place
    rcases of_bind_eq_error hrest with hvalue | ⟨operand, valued, hvalue, -⟩
    · exact .cons hstep (value.explained_emit hlocated error next hvalue)
    · obtain ⟨source, hsource, -⟩ := (value.yields_emit hlocated).of_ok hvalue
      have hsource : value.resolve state.env = some source := hsource
      have hnone := ((Stmt.assign target value).yields_emit trivial h htidy).of_error hrun
      simp [resolve, hcell, hsource] at hnone

private theorem Stmt.explained_call (callee : Ident)
    (h : session.Writing state.env state.cells before draft after)
    (htidy : Desk.Tidy ⟨draft, waiting⟩) :
    Explained (Stmt.call callee).emit session state (Stmt.call callee).spots := by
  have huse : (Spot.callee callee).use? = some (.of .procedure callee) := rfl
  have hresolve := ends_resolveAs h.sees huse
  intro error next hrun
  rcases of_bind_eq_error hrun with hfirst | ⟨symbol, middle, hfirst, -⟩
  · exact .head (hresolve.of_error hfirst)
  obtain ⟨rfl, meaning, hfound, -, hkind⟩ := hresolve.of_ok hfirst
  have hnone := ((Stmt.call callee).yields_emit trivial h htidy).of_error hrun
  cases meaning with
  | literal text => cases hkind
  | procedure function block => simp [resolve, Env.procedure?, hfound, Meaning.entity] at hnone
  | cell global type => cases hkind

theorem Stmt.explained_emit (stmt : Stmt) (hdeclarable : stmt.Declarable)
    (h : session.Writing state.env state.cells before draft after)
    (htidy : Desk.Tidy ⟨draft, waiting⟩) : Explained stmt.emit session state stmt.spots := by
  induction stmt generalizing session state draft waiting with
  | skip => nofun
  | seq first second ihfirst ihsecond =>
    intro error next hrun
    rcases of_bind_eq_error hrun with hfirst | ⟨_, middle, hfirst, hrest⟩
    · exact (ihfirst hdeclarable.1 h htidy error next hfirst).left
    · obtain ⟨⟨found, more⟩, hfound, hmiddle⟩ :=
        (first.yields_emit hdeclarable.1 h htidy).of_ok hfirst
      let reached := State.touch { state with cells := more } found.accesses
      have hreached : middle.Writing reached.env reached.cells before (found.build draft) after :=
        hmiddle
      refine Blames.right (Stmt.run_spots hdeclarable.1 hfound) ?_
      exact ihsecond hdeclarable.2 hreached (tidy_build hdeclarable.1 h hfound htidy) error next hrest
  | assign target value => exact explained_assign target value h htidy
  | call callee => exact explained_call callee h htidy
  | branch condition yes no ihyes ihno =>
    refine (ends_branch hdeclarable.1 hdeclarable.2 h htidy ?_ ?_ ?_).explained
    · refine ((condition.explained_emit h).ends (condition.yields_emit h)).imp ?_ fun _ _ hdone => hdone
      exact fun _ _ hblames => hblames.left.left
    · rintro moved other test htest hmoved ⟨waiting, htidy'⟩
      have hreached : moved.Writing (state.touch test.accesses).env (state.touch test.accesses).cells
          before other after := hmoved
      refine ((ihyes hdeclarable.1 hreached htidy').ends
        (yes.yields_emit hdeclarable.1 hmoved htidy')).imp ?_ fun _ _ hdone => hdone
      exact fun _ _ hblames => (hblames.right (Cond.run_spots htest)).left
    · rintro moved other test first more htest hfirst hmoved ⟨waiting, htidy'⟩
      let tested := state.touch test.accesses
      let reached := State.touch { tested with cells := more } first.accesses
      have hreached : moved.Writing reached.env reached.cells before other after := hmoved
      have hfirst : yes.resolve tested.env tested.cells = some (first, more) := hfirst
      have hrun : state.run ((condition.spots ++ yes.spots).map Spot.mark) = some reached := by
        rw [List.map_append, State.run_append, Cond.run_spots htest]
        exact Stmt.run_spots hdeclarable.1 hfirst
      refine ((ihno hdeclarable.2 hreached htidy').ends
        (no.yields_emit hdeclarable.2 hmoved htidy')).imp ?_ fun _ _ hdone => hdone
      exact fun _ _ hblames => hblames.right hrun
  | loop condition body ih =>
    have hbody : body.Declarable := hdeclarable
    refine (ends_loop hbody h htidy ?_ ?_).explained
    · intro moved other hmoved
      refine ((condition.explained_emit hmoved).ends (condition.yields_emit hmoved)).imp ?_
        fun _ _ hdone => hdone
      exact fun _ _ hblames => hblames.left
    · rintro moved other test htest hmoved ⟨waiting, htidy'⟩
      have hreached : moved.Writing (state.touch test.accesses).env (state.touch test.accesses).cells
          before other after := hmoved
      refine ((ih hbody hreached htidy').ends (body.yields_emit hbody hmoved htidy')).imp ?_
        fun _ _ hdone => hdone
      exact fun _ _ hblames => hblames.right (Cond.run_spots htest)
  | ret =>
    intro error next hrun
    have hnone := (Stmt.ret.yields_emit trivial h htidy).of_error hrun
    cases hnone
  | block locals body ih =>
    let entered : State := { state with
      env := [] :: state.env
      owners := state.owners.headD none :: state.owners }
    have hstep : state.step Spot.block.mark = some entered := rfl
    refine (ends_block hdeclarable.1 hdeclarable.2 h ?_ ?_).explained
    · intro inside hinside
      have hentered : inside.Shows entered.env entered.cells _ := hinside
      refine ((explained_locals hdeclarable.1 hentered).ends
        (yields_locals hdeclarable.1 hinside)).imp ?_ fun _ _ hdone => hdone
      exact fun _ _ hblames => .cons hstep hblames.left.left
    · intro declared inner more hinner hdeclared
      let reached : State := { entered with env := inner, cells := more }
      have hreached : declared.Writing reached.env reached.cells before draft after := hdeclared
      refine ((ih hdeclarable.2 hreached htidy).ends
        (body.yields_emit hdeclarable.2 hdeclared htidy)).imp ?_ fun _ _ hdone => hdone
      have hinner : resolveLocals locals entered.env entered.cells = some (inner, more) := hinner
      exact fun _ _ hblames => .cons hstep (hblames.right (run_spots_locals hinner)).left
  | stop mistake => exact explained_raise mistake

theorem Heading.explained_emit (heading : Heading) (h : session.Sees state.env) :
    Explained heading.emit session state heading.spots := by
  have hdeclare : ∀ name : Ident, Explained name.declare session state [.procedure name] := by
    intro name
    have hname : (Spot.procedure name).declared? = some name := rfl
    exact ((ends_declare h hname (.literal "")).imp (fun _ _ => .head) fun _ _ hdone => hdone).explained
  cases heading with
  | named name => exact hdeclare name
  | unnamed mistake => exact explained_raise mistake
  | unended name mistake => exact (hdeclare name).thenRaise mistake

private theorem explained_inside {locals : Decls} {body : Stmt} (hlocals : locals.Declarable)
    (hbody : body.Declarable)
    (hemit : ∀ {begun : Session} {state : State} {sketches : List Sketch},
      begun.Shows state.env state.cells sketches → state.code.length = sketches.length →
        Explained locals.emit begun state locals.spots)
    (h : session.Writing state.env state.cells sketches .entry [])
    (hlength : state.code.length = (sketches ++ [Draft.entry.sketch]).length) :
    Explained (do locals.emit; body.emit) session state (locals.spots ++ body.spots) := by
  intro error next hrun
  rcases of_bind_eq_error hrun with hfirst | ⟨_, middle, hfirst, hrest⟩
  · exact (hemit h.toShows hlength error next hfirst).left
  · obtain ⟨⟨inner, more, others⟩, hfound, hmiddle, hkept, -⟩ :=
      (locals.yields_emit hlocals h.toShows).of_ok hfirst
    rw [← hlength] at hfound
    rw [List.append_assoc] at hmiddle
    refine Blames.right (Decls.run_spots hlocals hfound) ?_
    have hwriting : middle.Writing inner more sketches .entry _ :=
      h.declared hmiddle (hkept h.opened)
    exact body.explained_emit hbody hwriting Desk.tidy_entry error next hrest

/-- Once a procedure has been dealt with, only its name is in sight. -/
private theorem run_spots_inside {locals : Decls} {body : Stmt} (hlocals : locals.Declarable)
    (hbody : body.Declarable) {found : Core.Stmt × List IntType × List Core.Stmt}
    (h : resolveInside locals body state.env state.cells state.code.length = some found) :
    ∃ reached : State, state.run ((locals.spots ++ body.spots ++ [Spot.leave]).map Spot.mark) =
        some reached ∧ reached.env = state.env.tail ∧ reached.cells = found.2.1 ∧
      reached.code.length = state.code.length + found.2.2.length := by
  obtain ⟨⟨inner, more, others⟩, hinner, h⟩ := Option.bind_eq_some_iff.1 h
  obtain ⟨⟨code, most⟩, hcode, hdone⟩ := Option.bind_eq_some_iff.1 h
  cases hdone
  obtain ⟨-, htail, -⟩ := Decls.extends_resolve hlocals hinner
  let declared : State := { state with
    env := inner
    cells := more
    code := state.code ++ others.map Core.Stmt.accesses }
  have hcode : body.resolve declared.env declared.cells = some (code, most) := hcode
  have hrun : state.run ((locals.spots ++ body.spots).map Spot.mark) =
      some (State.touch { declared with cells := most } code.accesses) := by
    rw [List.map_append, State.run_append, Decls.run_spots hlocals hinner]
    exact Stmt.run_spots hbody hcode
  let written := State.touch { declared with cells := most } code.accesses
  refine ⟨{ written with env := inner.tail, owners := written.owners.tail }, ?_, htail, rfl, ?_⟩
  · rw [List.map_append, State.run_append, hrun]
    rfl
  · change written.code.length = _
    simp [written, State.length_touch, declared]

theorem Decls.explained_emit (decls : Decls) (hdeclarable : decls.Declarable)
    (h : session.Shows state.env state.cells sketches)
    (hlength : state.code.length = sketches.length) :
    Explained decls.emit session state decls.spots := by
  induction decls generalizing session state sketches with
  | nil => nofun
  | plain declaration rest ih =>
    intro error next hrun
    rcases of_bind_eq_error hrun with hfirst | ⟨_, middle, hfirst, hrest⟩
    · exact (Declaration.explained_emit hdeclarable.1 h error next hfirst).left
    · obtain ⟨⟨declared, more⟩, hfound, hmiddle, -⟩ :=
        (Declaration.yields_emit hdeclarable.1 h).of_ok hfirst
      let reached : State := { state with env := declared, cells := more }
      have hreached : middle.Shows reached.env reached.cells sketches := hmiddle
      refine Blames.right (Declaration.run_spots hfound) ?_
      exact ih hdeclarable.2 hreached hlength error next hrest
  | nested heading locals body rest ihlocals ihrest =>
    obtain ⟨hlocals, hbody, hrest⟩ := hdeclarable
    intro error final hrun
    rcases of_bind_eq_error hrun with hheading | ⟨id, named, hheading, hafter⟩
    · exact (heading.explained_emit h.sees error final hheading).left.left
    cases heading with
    | unnamed mistake => exact (Heading.whole_of_emit hheading).elim
    | unended name mistake => exact (Heading.whole_of_emit hheading).elim
    | named name =>
      obtain ⟨declared, henv, rfl, rfl⟩ :=
        (name.yields_declare (.procedure sketches.length) h.sees).of_ok hheading
      let begun : State := { state with
        env := [] :: declared
        owners := some state.code.length :: state.owners
        code := state.code ++ [[]] }
      have hstep : state.step (Spot.procedure name).mark = some begun := by
        simp [Spot.mark, State.step, hlength, henv, begun]
      have hbegun : begun.code.length = (sketches ++ [Draft.entry.sketch]).length := by
        simp [begun, hlength]
      have hinside : Ends (within _ (do locals.emit; body.emit)) _
          (Blames begun (locals.spots ++ body.spots)) _ :=
        ends_within (h.locatedAt name.place) henv (safe_inside hlocals hbody) fun hwriting =>
          (explained_inside hlocals hbody (ihlocals hlocals) hwriting hbegun).ends
            (yields_inside hlocals hbody (fun h => locals.yields_emit hlocals h) hwriting)
      refine Blames.cons hstep ?_
      rcases of_bind_eq_error hafter with hwithin | ⟨_, left, hwithin, hlast⟩
      · exact (hinside.of_error hwithin).left.left
      · obtain ⟨⟨code, more, others⟩, hfound, hleft, -⟩ := hinside.of_ok hwithin
        have hsame : sketches.length + 1 = begun.code.length := by simp [begun, hlength]
        have hfound : resolveInside locals body begun.env begun.cells begun.code.length =
            some (code, more, others) := by rwa [hsame] at hfound
        obtain ⟨reached, hpassed, henv', hcells, hcode⟩ := run_spots_inside hlocals hbody hfound
        have hreached : left.Shows reached.env reached.cells
            (sketches ++ (code :: others).map Core.Stmt.sketch) := by
          rw [henv', hcells]
          exact hleft
        refine Blames.right hpassed (ihrest hrest hreached ?_ error final hlast)
        rw [hcode, ← hsame, List.length_append, List.length_map, List.length_cons]
        dsimp only
        omega
  | stop mistake => exact explained_raise mistake

end Tree

/-- An error of a name comes from a spot of the tree, all before which can be passed. -/
theorem Compiler.explained_takeTokens (tokens : List Lexeme) {session : Session}
    (h : session.Shows [[]] [] []) :
    Explained (takeTokens tokens) session {} (Tree.Program.ofTokens tokens).decls.spots := by
  intro error next hrun
  rcases of_bind_eq_error hrun with hdecls | ⟨_, middle, -, hlocate⟩
  · exact Tree.Decls.explained_emit _ (Tree.Program.declarable_ofTokens tokens) h rfl error next hdecls
  · cases hreached : (Tree.Program.ofTokens tokens).reached with
    | none =>
      rw [hreached] at hlocate
      cases hlocate
    | some place =>
      rw [hreached] at hlocate
      cases hlocate

end BlockLang
