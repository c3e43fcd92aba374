import BlockLang.Compile
import BlockLang.Proofs.Session.Sound
import BlockLang.Proofs.Tree.Declarable

/-! No program text makes a session go wrong: whatever tokens are taken in, and whatever
was taken in before, work ends in the program's own errors or well, and the session
stays sound. -/

namespace BlockLang

open Code Names BlockLang.Tree

theorem Names.Symbol.literal_of_kind? {symbol : Symbol} (h : symbol.kind? = some .literal) :
    ∃ text, symbol.meaning? = some (.literal text) := by
  obtain ⟨meaning, hmeaning, hkind⟩ := Option.map_eq_some_iff.1 h
  cases meaning with
  | literal text => exact ⟨text, hmeaning⟩
  | procedure function block => cases hkind
  | cell global type => cases hkind

theorem Names.Symbol.procedure_of_kind? {symbol : Symbol} (h : symbol.kind? = some .procedure) :
    ∃ function block, symbol.meaning? = some (.procedure function block) := by
  obtain ⟨meaning, hmeaning, hkind⟩ := Option.map_eq_some_iff.1 h
  cases meaning with
  | literal text => cases hkind
  | procedure function block => exact ⟨function, block, hmeaning⟩
  | cell global type => cases hkind

theorem Names.Symbol.cell_of_kind? {symbol : Symbol} (h : symbol.kind? = some .cell) :
    ∃ global type, symbol.meaning? = some (.cell global type) := by
  obtain ⟨meaning, hmeaning, hkind⟩ := Option.map_eq_some_iff.1 h
  cases meaning with
  | literal text => cases hkind
  | procedure function block => cases hkind
  | cell global type => exact ⟨global, type, hmeaning⟩

theorem Session.Sound.find?_lt {session : Session} (h : session.Sound) {scope : ScopeId}
    {name : String} {id : SymbolId} (hfind : session.forest.find? scope name = some id) :
    id < session.forest.symbols.length := by
  obtain ⟨_, -, hdeclared⟩ := List.exists_of_findSome?_eq_some hfind
  obtain ⟨found, hfound, hentry⟩ := Option.bind_eq_some_iff.1 hdeclared
  obtain ⟨before, rest, hentries, -⟩ := List.lookup_eq_some_iff.1 hentry
  exact h.entries found (List.mem_of_getElem? hfound) (name, id) (by simp [hentries])

namespace Compiler

variable {α β : Type} {session : Session}

/-- From `session`, the step leads to a sound session, and never to a fault: either it
comes back to the same scope and procedure with a value for which `done` holds, or it
breaks off with an error of the program. -/
def Safe (step : Compiler α) (session : Session) (done : α → Session → Prop) : Prop :=
  Ends step session (fun error next => error.ofTokens = true ∧ next.Sound)
    fun value next => next.Sound ∧ session.Balanced next ∧ done value next

theorem Safe.bind {step : Compiler α} {next : α → Compiler β} {middle : α → Session → Prop}
    {done : β → Session → Prop} (h : Safe step session middle)
    (hnext : ∀ value after, after.Sound → session.Balanced after → middle value after →
      Safe (next value) after done) : Safe (step >>= next) session done := by
  refine Ends.bind h ?_
  rintro value after ⟨hsound, hbalanced, hmiddle⟩
  refine (hnext value after hsound hbalanced hmiddle).mono ?_
  rintro result last ⟨hlast, hrest, hdone⟩
  exact ⟨hlast, hbalanced.trans hrest, hdone⟩

theorem Safe.mono {step : Compiler α} {done done' : α → Session → Prop}
    (h : Safe step session done) (hdone : ∀ value next, done value next → done' value next) :
    Safe step session done' :=
  Ends.mono h fun value next hnext => ⟨hnext.1, hnext.2.1, hdone value next hnext.2.2⟩

theorem Safe.discard {step : Compiler α} {done : α → Session → Prop}
    (h : Safe step session done) : Safe (discard step) session fun _ _ => True :=
  Ends.discard (Ends.mono h fun _ _ hnext => ⟨hnext.1, hnext.2.1, trivial⟩)

theorem safe_of_ok {step : Compiler α} {value : α} {next : Session} {done : α → Session → Prop}
    (hstep : step session = .ok value next) (hnext : next.Sound) (hbalanced : session.Balanced next)
    (h : done value next) : Safe step session done :=
  ends_of_ok hstep ⟨hnext, hbalanced, h⟩

theorem safe_pure (h : session.Sound) {value : α} {done : α → Session → Prop}
    (hdone : done value session) : Safe (pure value) session done :=
  safe_of_ok rfl h (.refl session) hdone

theorem safe_fail (h : session.Sound) {error : Error} (herror : error.ofTokens = true)
    {done : α → Session → Prop} : Safe (fail error) session done :=
  ends_fail ⟨herror, h⟩

theorem safe_get_bind {next : Session → Compiler α} {done : α → Session → Prop}
    (h : Safe (next session) session done) : Safe (get >>= next) session done := h

theorem safe_locate (h : session.Sound) (place : Place) :
    Safe (locate place) session fun _ _ => True :=
  safe_of_ok (locate_eq place) (h.locatedAt place) (session.balanced_locatedAt place) trivial

theorem safe_tell (h : session.Sound) {entry : Log.Entry}
    (hentry : ∀ fault, entry ≠ .event (.cursorAstray fault)) :
    Safe (tell entry) session fun _ _ => True :=
  safe_of_ok (tell_eq entry) (h.told hentry) (session.balanced_told entry) trivial

theorem safe_raise (h : session.Sound) (mistake : Mistake) {done : α → Session → Prop} :
    Safe (raise mistake) session done := by
  unfold raise
  split
  · refine (safe_locate h _).bind ?_
    intro _ located hlocated _ _
    exact safe_get_bind (safe_fail hlocated rfl)
  · exact safe_get_bind (safe_fail h rfl)

/-- A symbol that the session holds. -/
def Holds (session : Session) (symbol : Symbol) : Prop :=
  ∃ id : SymbolId, session.forest.symbols[id]? = some symbol

theorem Holds.meaning {symbol : Symbol} (h : Holds session symbol) (hsound : session.Sound)
    {meaning : Meaning} (hmeaning : symbol.meaning? = some meaning) :
    meaning.Sound session.builder.code := by
  obtain ⟨id, hid⟩ := h
  exact hsound.meanings id meaning (by simp [Forest.meaning?, hid, hmeaning])

theorem safe_resolve (h : session.Sound) (name : Ident) :
    Safe (resolve name) session fun symbol next => Holds next symbol := by
  unfold resolve
  refine (safe_locate h name.place).bind ?_
  intro _ located hlocated _ _
  cases hfind : located.forest.find? located.scope name.name with
  | none =>
    have hstep := find_eq_error hfind
    exact ends_of_error (bind_eq_error hstep) ⟨rfl, hlocated⟩
  | some id =>
    have hsymbol := List.getElem?_eq_getElem (hlocated.find?_lt hfind)
    have hstep := (bind_eq_ok (find_eq_ok hfind)).trans (symbol_eq hsymbol)
    exact safe_of_ok hstep hlocated (.refl located) ⟨id, hsymbol⟩

theorem safe_mismatch (h : session.Sound) (symbol : Symbol) (expected : String)
    {done : α → Session → Prop} : Safe (mismatch symbol expected) session done :=
  safe_get_bind (safe_fail h rfl)

theorem safe_resolveAs (h : session.Sound) (kind : Kind) (name : Ident) :
    Safe (resolveAs kind name) session fun symbol next =>
      Holds next symbol ∧ symbol.kind? = some kind := by
  unfold resolveAs
  refine (safe_resolve h name).bind ?_
  intro symbol resolved hresolved _ hsymbol
  split
  · next hkind => exact safe_pure hresolved ⟨hsymbol, hkind⟩
  · refine (safe_tell hresolved (by intro fault; simp)).bind ?_
    intro _ told htold _ _
    exact safe_mismatch htold symbol _

/-- Writing straight-line code at the cursor is safe. -/
theorem safe_written {step : Compiler α} {code : Straight α} {function : FunctionId} {draft : Draft}
    (h : session.Sound) (hat : session.builder.At function draft)
    (hstep : step session =
      .ok (code.value draft.nextRegister) (session.redraft function (draft.write code))) :
    Safe step session fun value _ => value = code.value draft.nextRegister := by
  have hlength : draft.blocks.length ≤ (draft.write code).blocks.length := by simp
  exact safe_of_ok hstep (h.redraft hat hlength (by simpa using hat.inside))
    (Session.balanced_redraft hat hlength) rfl

theorem Writes.safe {step : Compiler α} {code : Straight α} (hwrites : Writes step code)
    (h : session.Sound) (hopen : session.procedures ≠ []) :
    Safe step session fun value _ => ∃ next, value = code.value next := by
  obtain ⟨_, _, function, _, draft, -, -, hat⟩ := h.standing hopen
  exact (safe_written h hat (hwrites _ _ _ hat)).mono fun _ _ hvalue => ⟨_, hvalue⟩

theorem safe_emit (h : session.Sound) (hopen : session.procedures ≠ []) (instr : Instr) :
    Safe (build (Build.emit instr)) session fun _ _ => True := by
  obtain ⟨_, _, function, _, draft, -, -, hat⟩ := h.standing hopen
  have hlength : draft.blocks.length ≤ (draft.push instr).blocks.length := by simp
  refine safe_of_ok (build_eq_ok (Build.emit_eq hat instr)) (h.redraft hat hlength ?_)
    (Session.balanced_redraft hat hlength) trivial
  simpa [Draft.push] using hat.inside

theorem safe_loadName (h : session.Sound) (hopen : session.procedures ≠ []) (name : Ident) :
    Safe (loadName name) session fun operand _ => operand.Sound := by
  unfold loadName
  refine (safe_resolve h name).bind ?_
  intro symbol resolved hresolved hbalanced hsymbol
  cases hmeaning : symbol.meaning? with
  | none => exact safe_mismatch hresolved symbol _
  | some meaning =>
    cases meaning with
    | literal text =>
      dsimp only
      split
      · exact safe_pure hresolved (Operand.sound_constant _)
      · exact safe_get_bind (safe_fail hresolved rfl)
    | procedure function block => exact safe_mismatch hresolved symbol _
    | cell global type =>
      obtain ⟨hglobal, hwidth⟩ := hsymbol.meaning hresolved hmeaning
      obtain ⟨_, _, function, _, draft, -, -, hat⟩ := hresolved.standing (hbalanced.opened hopen)
      have hload := Build.load_eq hat (List.getElem?_eq_getElem hglobal)
      refine (safe_written hresolved hat (build_eq_ok hload)).bind ?_
      rintro _ loaded hloaded _ rfl
      exact safe_pure hloaded (Operand.sound_register hwidth _ _)

/-- A new block of the innermost open procedure. -/
theorem safe_appendBlock (h : session.Sound) (hopen : session.procedures ≠ []) (label : String) :
    Safe (appendBlock label) session fun place next => next.Owns place := by
  obtain ⟨id, rest, function, block, draft, hprocedures, hmeaning, hat⟩ := h.standing hopen
  obtain ⟨found, hfound, hprocedure⟩ := Forest.symbol_of_meaning? hmeaning
  have hlength : draft.blocks.length ≤ (draft.openBlock label).blocks.length := by simp
  have hinside : (draft.openBlock label).cursor < (draft.openBlock label).blocks.length := by
    rw [Draft.length_openBlock]
    exact Nat.lt_succ_of_lt hat.inside
  refine safe_of_ok (appendBlock_eq hprocedures hfound hprocedure hat label)
    (h.redraft hat hlength hinside) (Session.balanced_redraft hat hlength) ⟨?_, ?_⟩
  · exact (hat.redraft hinside).hasBlock (by simp)
  · exact ⟨id, rest, block, hprocedures, hmeaning⟩

theorem safe_setCurrentBlock (h : session.Sound) {place : BlockRef} (howns : session.Owns place) :
    Safe (setCurrentBlock place) session fun _ _ => True := by
  obtain ⟨hplace, id, rest, block, hprocedures, hmeaning⟩ := howns
  obtain ⟨found, hfound, hprocedure⟩ := Forest.symbol_of_meaning? hmeaning
  obtain ⟨hsound, hbalanced⟩ := h.withSymbol (Forest.lt_of_meaning? hmeaning)
    (show ({ found with meaning? := some (.procedure place.function place) } : Symbol).meaning? =
      some (.procedure place.function place) from rfl) ⟨rfl, hplace⟩ (by
      intro function before hbefore
      rw [hmeaning] at hbefore
      cases hbefore
      exact ⟨place, rfl⟩) (.inl (by simp [hprocedures]))
  obtain ⟨last, hlast⟩ := hbalanced.functions id place.function block hmeaning
  refine safe_of_ok (setCurrentBlock_eq hprocedures hfound hprocedure place)
    (hsound.arrive hsound.procedures hplace ?_) (hbalanced.trans ?_) trivial
  · intro other hother
    have hid : other ∈ session.procedures.head? := hother
    rw [hprocedures] at hid
    cases hid
    exact ⟨last, hlast⟩
  · exact ⟨⟨Nat.le_refl _, fun _ _ => rfl, fun _ hblock => hblock, fun _ _ before hbefore =>
      ⟨before, hbefore⟩, rfl⟩, rfl, rfl, fun _ _ _ hkept => hkept⟩

/-- What is done next may depend on whether the current block has been left. -/
theorem safe_isTerminated (h : session.Sound) (hopen : session.procedures ≠ [])
    {next : Bool → Compiler α} {done : α → Session → Prop}
    (hnext : ∀ terminated, Safe (next terminated) session done) :
    Safe (do next (← build (Build.isTerminated (← currentBlock)))) session done := by
  obtain ⟨_, _, function, _, draft, -, -, hat⟩ := h.standing hopen
  obtain ⟨block, hblock, -⟩ := hat.block
  have hread : Safe (build (Build.isTerminated ⟨function, draft.cursor⟩)) session
      fun _ after => after = session :=
    safe_of_ok (build_eq_ok (Build.isTerminated_eq hat hblock)) h (.refl session) rfl
  have hcurrent : Safe currentBlock session fun place after =>
      place = ⟨function, draft.cursor⟩ ∧ after = session :=
    safe_of_ok (currentBlock_eq hat.cursor) h (.refl session) ⟨rfl, rfl⟩
  refine hcurrent.bind ?_
  rintro _ _ _ _ ⟨rfl, rfl⟩
  refine hread.bind ?_
  rintro terminated _ _ _ rfl
  exact hnext terminated

theorem safe_unless (h : session.Sound) {step : Compiler Unit}
    (hstep : Safe step session fun _ _ => True) (condition : Bool) :
    Safe (do unless condition do step) session fun _ _ => True := by
  cases condition with
  | true => exact safe_pure h trivial
  | false => exact hstep

theorem safe_jumpIfOpen (h : session.Sound) (hopen : session.procedures ≠ [])
    (target : BlockRef) : Safe (jumpIfOpen target) session fun _ _ => True :=
  safe_isTerminated h hopen (safe_unless h (safe_emit h hopen _))

theorem safe_declareLiteral {id : SymbolId} {found : Symbol} (h : session.Sound)
    (hfound : session.forest.symbols[id]? = some found) (hnone : found.meaning? = none)
    (text : String) : Safe (declareLiteral id text) session fun _ _ => True := by
  have htold : (session.told (.event (.literalDeclared found.name text))).Sound :=
    h.told (by simp)
  obtain ⟨hsound, hbalanced⟩ := htold.tellMeaning hfound hnone
    (show (Meaning.literal text).Sound _ from trivial)
  exact safe_of_ok (declareLiteral_eq hfound hnone text) hsound
    ((session.balanced_told _).trans hbalanced) trivial

theorem safe_declareCell {id : SymbolId} {found : Symbol} (h : session.Sound)
    (hfound : session.forest.symbols[id]? = some found) (hnone : found.meaning? = none)
    {type : IntType} (htype : 0 < type.width) :
    Safe (declareCell id type) session fun _ _ => True := by
  obtain ⟨event, hdeclare⟩ := declareCell_eq hfound hnone type
  have hglobal := h.withGlobal (session.path found.name) (.int type.width)
  have htold := hglobal.told (show ∀ fault,
    Log.Entry.event (.cellDeclared found.name event type) ≠ .event (.cursorAstray fault) by simp)
  obtain ⟨hsound, hbalanced⟩ := htold.tellMeaning hfound hnone
    (show (Meaning.cell session.builder.code.globals.length type).Sound _ from
      ⟨by simp [Session.told, Session.withGlobal, Module.addGlobal], htype⟩)
  exact safe_of_ok hdeclare hsound
    ((session.balanced_withGlobal (session.path found.name) (.int type.width)).trans
      ((Session.balanced_told _ _).trans hbalanced)) trivial

end Compiler

open Compiler

namespace Tree

variable {session : Session}

/-- Two operands are computed one after the other, then something is done with them. -/
private theorem safe_operands {α : Type} {left right : Compiler Operand}
    {step : Operand → Operand → Compiler α} {done : α → Session → Prop}
    (h : session.Sound) (hopen : session.procedures ≠ [])
    (hleft : ∀ {before : Session}, before.Sound → before.procedures ≠ [] →
      Safe left before fun operand _ => operand.Sound)
    (hright : ∀ {before : Session}, before.Sound → before.procedures ≠ [] →
      Safe right before fun operand _ => operand.Sound)
    (hstep : ∀ {first second : Operand} {after : Session}, first.Sound → second.Sound →
      after.Sound → after.procedures ≠ [] → Safe (step first second) after done) :
    Safe (do step (← left) (← right)) session done := by
  refine (hleft h hopen).bind ?_
  intro first middle hmiddle hbalanced hfirst
  have hopened := hbalanced.opened hopen
  refine (hright hmiddle hopened).bind ?_
  intro second last hlast hbalanced hsecond
  exact hstep hfirst hsecond hlast (hbalanced.opened hopened)

theorem Expr.safe_emit (expr : Expr) (h : session.Sound) (hopen : session.procedures ≠ []) :
    Safe expr.emit session fun operand _ => operand.Sound := by
  induction expr generalizing session with
  | number value => exact safe_pure h (Operand.sound_constant value)
  | name ident => exact safe_loadName h hopen ident
  | negate operand ih =>
    refine (ih h hopen).bind ?_
    intro value after hafter hbalanced hvalue
    refine ((writes_negate value).safe hafter (hbalanced.opened hopen)).mono ?_
    rintro _ _ ⟨next, rfl⟩
    exact Straight.sound_negate hvalue next
  | binary op left right ihleft ihright =>
    refine safe_operands h hopen ihleft ihright ?_
    intro first second after hfirst hsecond hafter hopened
    refine ((writes_combine op hfirst hsecond).safe hafter hopened).mono ?_
    rintro _ _ ⟨next, rfl⟩
    exact Straight.sound_combine op hfirst hsecond next
  | missing mistake => exact safe_raise h mistake
  | unclosed inner mistake ih =>
    refine (ih h hopen).discard.bind ?_
    intro _ after hafter _ _
    exact safe_raise hafter mistake

theorem Cond.safe_emit (cond : Cond) (h : session.Sound) (hopen : session.procedures ≠ []) :
    Safe cond.emit session fun _ _ => True := by
  cases cond with
  | compare op left right =>
    refine safe_operands h hopen left.safe_emit right.safe_emit ?_
    intro first second after hfirst hsecond hafter hopened
    exact ((writes_compare op hfirst hsecond).safe hafter hopened).mono fun _ _ _ => trivial
  | half left mistake =>
    refine (left.safe_emit h hopen).discard.bind ?_
    intro _ after hafter _ _
    exact safe_raise hafter mistake
  | unfollowed op left right mistake =>
    refine safe_operands h hopen left.safe_emit right.safe_emit ?_
    intro first second after hfirst hsecond hafter hopened
    refine ((writes_compare op hfirst hsecond).safe hafter hopened).discard.bind ?_
    intro _ last hlast _ _
    exact safe_raise hlast mistake

theorem ConstValue.safe_emit (value : ConstValue) (h : session.Sound) :
    Safe value.emit session fun _ _ => True := by
  cases value with
  | text spelling => exact safe_pure h trivial
  | copy source =>
    refine (safe_resolveAs h .literal source).bind ?_
    rintro symbol after hafter _ ⟨-, hkind⟩
    obtain ⟨text, hmeaning⟩ := Symbol.literal_of_kind? hkind
    exact safe_of_ok (orFault_eq_ok text (by simp [Symbol.literal, hmeaning])) hafter
      (.refl after) trivial

/-- A name that has just been declared stands for nothing yet. -/
theorem Ident.safe_declare (name : Ident) (h : session.Sound) :
    Safe name.declare session fun id next =>
      ∃ found, next.forest.symbols[id]? = some found ∧ found.meaning? = none := by
  refine (safe_locate h name.place).bind ?_
  intro _ located hlocated _ _
  cases hdeclared : located.forest.declared? located.scope name.name with
  | some id => exact ends_of_error (add_eq_error hdeclared) ⟨rfl, hlocated⟩
  | none =>
    refine safe_of_ok (add_eq_ok hdeclared) (hlocated.added name.name)
      (located.balanced_added name.name) ⟨{ name := name.name }, ?_, rfl⟩
    simp [Session.added, Forest.added]

/-- A name is declared and becomes a variable. -/
private theorem safe_cell {type : IntType} (htype : 0 < type.width) (name : Ident)
    (h : session.Sound) :
    Safe (do discard (declareCell (← name.declare) type)) session fun _ _ => True := by
  refine (name.safe_declare h).bind ?_
  rintro id named hnamed _ ⟨found, hfound, hnone⟩
  exact (safe_declareCell hnamed hfound hnone htype).discard

theorem safe_forM {α : Type} {items : List α} {step : α → Compiler Unit}
    (hstep : ∀ item ∈ items, ∀ {before : Session}, before.Sound →
      Safe (step item) before fun _ _ => True) (h : session.Sound) :
    Safe (items.forM step) session fun _ _ => True := by
  induction items generalizing session with
  | nil => exact safe_pure h trivial
  | cons item rest ih =>
    rw [List.forM_eq_forM, List.forM_cons]
    refine (hstep item List.mem_cons_self h).bind ?_
    intro _ after hafter _ _
    exact ih (fun other hother => hstep other (List.mem_cons_of_mem _ hother)) hafter

theorem Declaration.safe_emit {declaration : Declaration} (hdeclarable : declaration.Declarable)
    (h : session.Sound) : Safe declaration.emit session fun _ _ => True := by
  cases declaration with
  | const name value =>
    refine (value.safe_emit h).bind ?_
    intro text valued hvalued _ _
    refine (name.safe_declare hvalued).bind ?_
    rintro id named hnamed _ ⟨found, hfound, hnone⟩
    exact safe_declareLiteral hnamed hfound hnone text
  | vars names type =>
    have hwidth := IntType.width_of_mem_declarable hdeclarable
    exact safe_forM (fun name _ _ hbefore => safe_cell (by omega) name hbefore) h
  | stop mistake => exact safe_raise h mistake
  | unendedCopy source mistake =>
    refine (ConstValue.safe_emit (.copy source) h).discard.bind ?_
    intro _ after hafter _ _
    exact safe_raise hafter mistake

/-- A scope that was entered for the work in between is left again. -/
private theorem safe_leaveScope {inside : Session} (h : session.Sound) (hsound : inside.Sound)
    (hinside : session.entered.Balanced inside) :
    Ends leaveScope inside (fun error next => error.ofTokens = true ∧ next.Sound)
      fun _ next => next.Sound ∧ session.Balanced next ∧ True :=
  ends_of_ok (leaveScope_eq (hinside.parent? h)) ⟨h.leftTo hsound hinside, hinside.leftTo, trivial⟩

/-- Three blocks are opened before anything is written to them. -/
private theorem safe_newBlocks (h : session.Sound) (hopen : session.procedures ≠ [])
    (first second third : String) {next : BlockRef → BlockRef → BlockRef → Compiler Unit}
    (hnext : ∀ {one two three : BlockRef} {after : Session}, after.Sound → after.procedures ≠ [] →
      after.Owns one → after.Owns two → after.Owns three →
        Safe (next one two three) after fun _ _ => True) :
    Safe (do
      let one ← appendBlock first
      let two ← appendBlock second
      let three ← appendBlock third
      next one two three) session fun _ _ => True := by
  refine (safe_appendBlock h hopen first).bind ?_
  intro one begun hbegun hbalanced hone
  have hopened := hbalanced.opened hopen
  refine (safe_appendBlock hbegun hopened second).bind ?_
  intro two middle hmiddle hbalanced htwo
  have hopened := hbalanced.opened hopened
  refine (safe_appendBlock hmiddle hopened third).bind ?_
  intro three last hlast hbalanced' hthree
  exact hnext hlast (hbalanced'.opened hopened) ((hbalanced.trans hbalanced').owns hone)
    (hbalanced'.owns htwo) hthree

/-- A stretch of work in a block of its own, from which the code goes on to `target`. -/
private theorem safe_stretch (h : session.Sound) (hopen : session.procedures ≠ [])
    {place : BlockRef} (howns : session.Owns place) (target : BlockRef)
    {body next : Compiler Unit}
    (hbody : ∀ {before : Session}, before.Sound → before.procedures ≠ [] →
      Safe body before fun _ _ => True)
    (hnext : ∀ after : Session, after.Sound → session.Balanced after →
      Safe next after fun _ _ => True) :
    Safe (do
      setCurrentBlock place
      body
      jumpIfOpen target
      next) session fun _ _ => True := by
  refine (safe_setCurrentBlock h howns).bind ?_
  intro _ moved hmoved hbalanced _
  refine (hbody hmoved (hbalanced.opened hopen)).bind ?_
  intro _ worked hworked hbalanced' _
  have hbalanced := hbalanced.trans hbalanced'
  refine (safe_jumpIfOpen hworked (hbalanced.opened hopen) target).bind ?_
  intro _ jumped hjumped hbalanced' _
  exact hnext jumped hjumped (hbalanced.trans hbalanced')

theorem Stmt.safe_emit (stmt : Stmt) (hdeclarable : stmt.Declarable) (h : session.Sound)
    (hopen : session.procedures ≠ []) : Safe stmt.emit session fun _ _ => True := by
  induction stmt generalizing session with
  | skip => exact safe_pure h trivial
  | seq first second ihfirst ihsecond =>
    refine (ihfirst hdeclarable.1 h hopen).bind ?_
    intro _ middle hmiddle hbalanced _
    exact ihsecond hdeclarable.2 hmiddle (hbalanced.opened hopen)
  | assign target value =>
    refine (safe_resolveAs h .cell target).bind ?_
    rintro symbol resolved hresolved hbalanced ⟨hholds, hkind⟩
    have hopened := hbalanced.opened hopen
    refine (value.safe_emit hresolved hopened).bind ?_
    intro operand computed hcomputed hbalanced hoperand
    have hopened := hbalanced.opened hopened
    obtain ⟨global, type, hmeaning⟩ := Symbol.cell_of_kind? hkind
    have hread : Safe (orFault symbol.cell) computed fun found after =>
        found = (global, type) ∧ after = computed :=
      safe_of_ok (orFault_eq_ok _ (by simp [Symbol.cell, hmeaning])) hcomputed (.refl computed)
        ⟨rfl, rfl⟩
    refine hread.bind ?_
    rintro _ _ _ _ ⟨rfl, rfl⟩
    have hwidth := (hholds.meaning hresolved hmeaning).2
    refine ((writes_intCast hoperand hwidth _).safe hcomputed hopened).bind ?_
    intro converted last hlast hbalanced _
    exact safe_emit hlast (hbalanced.opened hopened) _
  | call callee =>
    refine (safe_resolveAs h .procedure callee).bind ?_
    rintro symbol resolved hresolved hbalanced ⟨-, hkind⟩
    obtain ⟨function, block, hmeaning⟩ := Symbol.procedure_of_kind? hkind
    have hread : Safe (orFault symbol.procedure) resolved fun _ _ => True :=
      safe_of_ok (orFault_eq_ok _ (procedure_eq hmeaning)) hresolved (.refl resolved) trivial
    refine hread.bind ?_
    intro _ read hread hsame _
    exact safe_emit hread (hsame.opened (hbalanced.opened hopen)) _
  | branch condition yes no ihyes ihno =>
    refine (condition.safe_emit h hopen).bind ?_
    intro value tested htested hbalanced _
    refine safe_newBlocks htested (hbalanced.opened hopen) _ _ _ ?_
    intro thenBlock elseBlock merge opened hopened hopen hthen helse hmerge
    refine (safe_emit hopened hopen _).bind ?_
    intro _ forked hforked hbalanced _
    refine safe_stretch hforked (hbalanced.opened hopen) (hbalanced.owns hthen) merge
      (ihyes hdeclarable.1) ?_
    intro between hbetween hbalanced'
    have hbalanced := hbalanced.trans hbalanced'
    refine safe_stretch hbetween (hbalanced.opened hopen) (hbalanced.owns helse) merge
      (ihno hdeclarable.2) ?_
    intro last hlast hbalanced'
    exact safe_setCurrentBlock hlast ((hbalanced.trans hbalanced').owns hmerge)
  | loop condition body ih =>
    refine safe_newBlocks h hopen _ _ _ ?_
    intro test bodyBlock exit opened hopened hopen htest hbody hexit
    refine (safe_jumpIfOpen hopened hopen test).bind ?_
    intro _ jumped hjumped hbalanced _
    refine (safe_setCurrentBlock hjumped (hbalanced.owns htest)).bind ?_
    intro _ testing htesting hbalanced' _
    have hbalanced := hbalanced.trans hbalanced'
    refine (condition.safe_emit htesting (hbalanced.opened hopen)).bind ?_
    intro value tested htested hbalanced' _
    have hbalanced := hbalanced.trans hbalanced'
    refine (safe_emit htested (hbalanced.opened hopen) _).bind ?_
    intro _ forked hforked hbalanced' _
    have hbalanced := hbalanced.trans hbalanced'
    refine safe_stretch hforked (hbalanced.opened hopen) (hbalanced.owns hbody) test
      (ih hdeclarable) ?_
    intro last hlast hbalanced'
    exact safe_setCurrentBlock hlast ((hbalanced.trans hbalanced').owns hexit)
  | ret =>
    refine (safe_emit h hopen _).bind ?_
    intro _ left hleft hbalanced _
    refine (safe_appendBlock hleft (hbalanced.opened hopen) _).bind ?_
    intro place appended happended _ howns
    exact safe_setCurrentBlock happended howns
  | block locals body ih =>
    have henter : Ends enterScope session (fun error next => error.ofTokens = true ∧ next.Sound)
        fun _ after => after = session.entered := ends_of_ok enterScope_eq rfl
    refine henter.bind ?_
    rintro _ _ rfl
    have hlocals := safe_forM (fun declaration hmem _ hbefore =>
      Declaration.safe_emit (hdeclarable.1 declaration hmem) hbefore) h.entered
    refine Ends.bind hlocals ?_
    rintro _ declared ⟨hdeclared, hbalanced, -⟩
    refine Ends.bind (ih hdeclarable.2 hdeclared (hbalanced.opened hopen)) ?_
    rintro _ inside ⟨hinside, hrest, -⟩
    exact safe_leaveScope h hinside (hbalanced.trans hrest)
  | stop mistake => exact safe_raise h mistake

theorem Heading.safe_emit (heading : Heading) (h : session.Sound) :
    Safe heading.emit session fun id next =>
      ∃ found, next.forest.symbols[id]? = some found ∧ found.meaning? = none := by
  cases heading with
  | named name => exact name.safe_declare h
  | unnamed mistake => exact safe_raise h mistake
  | unended name mistake =>
    refine (name.safe_declare h).discard.bind ?_
    intro _ after hafter _ _
    exact safe_raise hafter mistake

end Tree

namespace Session

variable {session : Session}

/-- A new procedure is opened inside those that are open. -/
theorem Sound.begun (h : session.Sound) {id : SymbolId} {found : Symbol}
    (hfound : session.forest.symbols[id]? = some found) (hnone : found.meaning? = none)
    (path : String) (internal : Bool) :
    (session.begun id found path internal).Sound ∧
      session.Onward (session.begun id found path internal) ∧
        ∀ other meaning, session.forest.meaning? other = some meaning →
          (session.begun id found path internal).forest.meaning? other = some meaning := by
  have hmade := h.withFunction path internal
  have hentry := hasBlock_withFunction_entry session path internal
  obtain ⟨hsound, hbalanced⟩ := hmade.tellMeaning hfound hnone
    (show (Meaning.procedure session.builder.code.functions.length
      ⟨session.builder.code.functions.length, 0⟩).Sound _ from ⟨rfl, hentry⟩)
  have hnew : ((session.withFunction path internal).withSymbol id { found with
      meaning? := some (.procedure session.builder.code.functions.length
        ⟨session.builder.code.functions.length, 0⟩) }).forest.meaning? id =
      some (.procedure session.builder.code.functions.length
        ⟨session.builder.code.functions.length, 0⟩) :=
    (Forest.meaning?_withSymbol (List.getElem?_eq_some_iff.1 hfound).1 _ id).trans (if_pos rfl)
  refine ⟨hsound.arrive ?_ hentry ?_, ?_, ?_⟩
  · intro other hother
    rcases List.mem_cons.1 hother with rfl | hother
    · exact ⟨_, _, hnew⟩
    · exact hsound.procedures other (by rw [hbalanced.procedures]; exact hother)
  · intro other hother
    cases hother
    exact ⟨_, hnew⟩
  · exact ⟨hbalanced.scopes, hbalanced.chains,
      fun _ hplace => hasBlock_withFunction hplace, hbalanced.functions, rfl⟩
  · intro other meaning hmeaning
    have hne : id ≠ other := by
      rintro rfl
      simp [Forest.meaning?, hfound, hnone] at hmeaning
    exact (Forest.meaning?_withSymbol (List.getElem?_eq_some_iff.1 hfound).1 _ other).trans
      ((if_neg hne).trans hmeaning)

/-- Work that ends in the scope in which it started. Only where no procedure was open
can one be left open. -/
structure Settled (before after : Session) : Prop extends Onward before after where
  scope : after.scope = before.scope
  procedures : before.procedures ≠ [] → after.procedures = before.procedures
  kept : ∀ id meaning, id ∉ before.procedures.head? → before.forest.meaning? id = some meaning →
    before.procedures ≠ [] → after.forest.meaning? id = some meaning

theorem Balanced.settled {before after : Session} (h : before.Balanced after) :
    before.Settled after :=
  ⟨h.toOnward, h.scope, fun _ => h.procedures, fun id meaning hid hmeaning _ =>
    h.kept id meaning hid hmeaning⟩

theorem Settled.balanced {before after : Session} (h : before.Settled after)
    (hopen : before.procedures ≠ []) : before.Balanced after :=
  ⟨h.toOnward, h.scope, h.procedures hopen, fun id meaning hid hmeaning =>
    h.kept id meaning hid hmeaning hopen⟩

theorem Settled.trans {first second third : Session} (h : first.Settled second)
    (h' : second.Settled third) : first.Settled third := by
  refine ⟨h.toOnward.trans h'.toOnward, h'.scope.trans h.scope, ?_, ?_⟩
  · intro hopen
    have hsecond := h.procedures hopen
    exact (h'.procedures (by rwa [hsecond])).trans hsecond
  · intro id meaning hid hmeaning hopen
    have hsecond := h.procedures hopen
    exact h'.kept id meaning (by rwa [hsecond]) (h.kept id meaning hid hmeaning hopen)
      (by rwa [hsecond])

end Session

namespace Compiler

variable {session : Session}

/-- As `Safe`, but a procedure may be left open where none was. -/
def Settles (step : Compiler Unit) (session : Session) : Prop :=
  Ends step session (fun error next => error.ofTokens = true ∧ next.Sound)
    fun _ next => next.Sound ∧ session.Settled next

theorem Safe.settles {step : Compiler Unit} {done : Unit → Session → Prop}
    (h : Safe step session done) : Settles step session :=
  Ends.mono h fun _ _ hnext => ⟨hnext.1, hnext.2.1.settled⟩

theorem Settles.safe {step : Compiler Unit} (h : Settles step session)
    (hopen : session.procedures ≠ []) : Safe step session fun _ _ => True :=
  Ends.mono h fun _ _ hnext => ⟨hnext.1, hnext.2.balanced hopen, trivial⟩

theorem Settles.bind {step next : Compiler Unit} (h : Settles step session)
    (hnext : ∀ {after : Session}, after.Sound → Settles next after) :
    Settles (do step; next) session := by
  refine Ends.bind h ?_
  rintro _ after ⟨hafter, hsettled⟩
  refine Ends.mono (hnext hafter) ?_
  rintro _ last ⟨hlast, hrest⟩
  exact ⟨hlast, hsettled.trans hrest⟩

/-- A procedure's own scope is left again, and its last block is finished. -/
theorem ends_scope {inside next : Compiler Unit} {done : Unit → Session → Prop}
    (h : session.Sound) (hopen : session.procedures ≠ [])
    (hinside : ∀ {before : Session}, before.Sound → before.procedures ≠ [] →
      Safe inside before fun _ _ => True)
    (hnext : ∀ after : Session, after.Sound → session.Balanced after →
      Ends next after (fun error next => error.ofTokens = true ∧ next.Sound) done) :
    Ends (do
      enterScope
      inside
      unless ← build (Build.isTerminated (← currentBlock)) do
        build Build.ret
      leaveScope
      next) session (fun error next => error.ofTokens = true ∧ next.Sound) done := by
  have hleave : ∀ finished : Session, finished.Sound → session.entered.Balanced finished →
      Ends (do leaveScope; next) finished
        (fun error next => error.ofTokens = true ∧ next.Sound) done := by
    intro finished hfinished hbalanced
    refine ends_bind_of_ok (leaveScope_eq (hbalanced.parent? h)) ?_
    exact hnext _ (h.leftTo hfinished hbalanced) hbalanced.leftTo
  refine ends_bind_of_ok enterScope_eq ?_
  refine Ends.bind (hinside h.entered hopen) ?_
  rintro _ worked ⟨hworked, hbalanced, -⟩
  have hopened := hbalanced.opened hopen
  obtain ⟨_, _, function, _, draft, -, -, hat⟩ := hworked.standing hopened
  obtain ⟨block, hblock, -⟩ := hat.block
  refine ends_bind_of_ok (currentBlock_eq hat.cursor) ?_
  refine ends_bind_of_ok (build_eq_ok (Build.isTerminated_eq hat hblock)) ?_
  cases block.isTerminated with
  | true => exact hleave worked hworked hbalanced
  | false =>
    refine Ends.bind (safe_emit hworked hopened _) ?_
    rintro _ finished ⟨hfinished, hbalanced', -⟩
    exact hleave finished hfinished (hbalanced.trans hbalanced')

/-- The procedure around the new one notes where it stands, if there is one. -/
theorem sound_beginProcedure {id : SymbolId} {found : Symbol} (h : session.Sound)
    (hfound : session.forest.symbols[id]? = some found) (hnone : found.meaning? = none) :
    ∃ next, beginProcedure id session = .ok () next ∧ next.Sound ∧ session.Onward next ∧
      next.scope = session.scope ∧ next.procedures = id :: session.procedures ∧
        ∀ other meaning, other ∉ session.procedures.head? →
          session.forest.meaning? other = some meaning →
            next.forest.meaning? other = some meaning := by
  cases hprocedures : session.procedures with
  | nil =>
    obtain ⟨hbegun, honward, hkept⟩ := h.begun hfound hnone (session.path found.name) false
    exact ⟨_, beginProcedure_outermost hfound hnone hprocedures, hbegun.told (by simp),
      honward.trans (Session.balanced_told _ _).toOnward, rfl, congrArg (id :: ·) hprocedures,
      fun other meaning _ => hkept other meaning⟩
  | cons outer rest =>
    obtain ⟨function, before, place, hmeaning, hcursor, hplace⟩ :=
      h.here outer (by simp [hprocedures])
    obtain ⟨around, haround, hprocedure⟩ := Forest.symbol_of_meaning? hmeaning
    obtain ⟨hparked, hkept⟩ := h.withSymbol (Forest.lt_of_meaning? hmeaning)
      (show ({ around with meaning? := some (.procedure function place) } : Symbol).meaning? =
        some (.procedure function place) from rfl) ⟨hplace, h.cursor place hcursor⟩ (by
        intro other block hother
        rw [hmeaning] at hother
        cases hother
        exact ⟨place, rfl⟩) (.inl (by simp [hprocedures]))
    have hne : outer ≠ id := by
      rintro rfl
      rw [haround] at hfound
      cases hfound
      rw [hprocedure] at hnone
      cases hnone
    have hnew : (session.withSymbol outer
        { around with meaning? := some (.procedure function place) }).forest.symbols[id]? =
          some found := by
      simp [Session.withSymbol, Forest.withSymbol, hne, hfound]
    obtain ⟨hbegun, honward, hkept'⟩ := hparked.begun hnew hnone (session.path found.name) true
    refine ⟨_, beginProcedure_nested hfound hnone hprocedures haround hprocedure hcursor,
      hbegun.told (by simp), (hkept.toOnward.trans honward).trans
        (Session.balanced_told _ _).toOnward, rfl, congrArg (id :: ·) hprocedures, ?_⟩
    intro other meaning hother hmeaning
    exact hkept' other meaning (hkept.kept other meaning (by rwa [hprocedures]) hmeaning)

/-- Only the outermost procedure stays open at its end. -/
theorem sound_endProcedure {id : SymbolId} {rest : List SymbolId} (h : session.Sound)
    (hopen : session.procedures = id :: rest) :
    ∃ next, endProcedure session = .ok () next ∧ next.Sound ∧ session.Onward next ∧
      next.scope = session.scope ∧ (rest ≠ [] → next.procedures = rest) ∧
        next.forest = session.forest := by
  obtain ⟨_, _, hmeaning⟩ := h.procedures id (by simp [hopen])
  obtain ⟨found, hfound, -⟩ := Forest.symbol_of_meaning? hmeaning
  cases rest with
  | nil =>
    exact ⟨_, endProcedure_outermost hopen hfound, h.told (by simp),
      (Session.balanced_told _ _).toOnward, rfl, fun hne => (hne rfl).elim, rfl⟩
  | cons outer rest =>
    obtain ⟨function, block, hreached⟩ := h.procedures outer (by simp [hopen])
    obtain ⟨around, haround, hprocedure⟩ := Forest.symbol_of_meaning? hreached
    obtain ⟨hblock, hinside⟩ := h.meanings outer _ hreached
    have htold : (session.told (.event (.procedureEnded found.name))).Sound := h.told (by simp)
    have harrived := htold.arrive (fun other hother => h.procedures other
      (by rw [hopen]; exact List.mem_cons_of_mem id hother)) hinside
      (show ∀ other ∈ (outer :: rest).head?, ∃ last,
        session.forest.meaning? other = some (.procedure block.function last) by
        rintro _ ⟨⟩
        rw [hblock]
        exact ⟨block, hreached⟩)
    exact ⟨_, endProcedure_nested hopen hfound haround hprocedure, harrived,
      ⟨Nat.le_refl _, fun _ _ => rfl, fun _ hplace => hplace, fun _ _ last hlast =>
        ⟨last, hlast⟩, rfl⟩, rfl, fun _ => rfl, rfl⟩

theorem settles_within {id : SymbolId} {found : Symbol} {inside : Compiler Unit}
    (h : session.Sound) (hfound : session.forest.symbols[id]? = some found)
    (hnone : found.meaning? = none)
    (hinside : ∀ {before : Session}, before.Sound → before.procedures ≠ [] →
      Safe inside before fun _ _ => True) : Settles (within id inside) session := by
  have htold : (session.told (.enter (.procedure found.name))).Sound := h.told (by simp)
  obtain ⟨begun, hbegin, hbegun, honward, hscope, hprocedures, hkept⟩ :=
    sound_beginProcedure htold hfound hnone
  unfold within
  refine ends_bind_of_ok (symbol_eq hfound) (ends_bind_of_ok (tell_eq _) ?_)
  refine ends_bind_of_ok hbegin (ends_scope hbegun (by simp [hprocedures]) hinside ?_)
  intro after hafter hbalanced
  obtain ⟨ended, hend, hended, honward', hscope', hleft, hforest⟩ :=
    sound_endProcedure hafter (hbalanced.procedures.trans hprocedures)
  refine ends_bind_of_ok hend (ends_of_ok (tell_eq .leave) ⟨hended.told (by simp), ?_⟩)
  have honward := (honward.trans hbalanced.toOnward).trans honward'
  refine ⟨⟨honward.scopes, honward.chains, honward.blocks, honward.functions, honward.title⟩,
    hscope'.trans (hbalanced.scope.trans hscope), hleft, ?_⟩
  intro other meaning hother hmeaning _
  have hne : other ≠ id := by
    rintro rfl
    simp [Forest.meaning?, hfound, hnone] at hmeaning
  have hlast := hbalanced.kept other meaning (by simpa [hprocedures] using hne.symm)
    (hkept other meaning hother hmeaning)
  rw [← hforest] at hlast
  exact hlast

end Compiler

open Compiler

namespace Tree

variable {session : Session}

theorem Decls.settles_emit (decls : Decls) (hdeclarable : decls.Declarable) (h : session.Sound) :
    Settles decls.emit session := by
  induction decls generalizing session with
  | nil =>
    have hdone : Safe (pure ()) session fun _ _ => True := safe_pure h trivial
    exact hdone.settles
  | plain declaration rest ih =>
    refine (Declaration.safe_emit hdeclarable.1 h).settles.bind ?_
    intro after hafter
    exact ih hdeclarable.2 hafter
  | nested heading locals body rest ihlocals ihrest =>
    obtain ⟨hlocals, hbody, hrest⟩ := hdeclarable
    refine Ends.bind (heading.safe_emit h) ?_
    rintro id named ⟨hnamed, hbalanced, found, hfound, hnone⟩
    have hprocedure : Settles (within id do locals.emit; body.emit) named := by
      refine settles_within hnamed hfound hnone ?_
      intro before hbefore hopen
      refine ((ihlocals hlocals hbefore).safe hopen).bind ?_
      intro _ declared hdeclared hbalanced _
      exact body.safe_emit hbody hdeclared (hbalanced.opened hopen)
    refine (hprocedure.bind fun hafter => ihrest hrest hafter).mono ?_
    rintro _ last ⟨hlast, hsettled⟩
    exact ⟨hlast, hbalanced.settled.trans hsettled⟩
  | stop mistake =>
    have hstop : Safe (raise mistake : Compiler Unit) session fun _ _ => True :=
      safe_raise h mistake
    exact hstop.settles

theorem Program.settles_emit (program : Program) (hdeclarable : program.decls.Declarable)
    (h : session.Sound) : Settles program.emit session := by
  refine (program.decls.settles_emit hdeclarable h).bind ?_
  intro after hafter
  cases program.reached with
  | none =>
    have hdone : Safe (pure ()) after fun _ _ => True := safe_pure hafter trivial
    exact hdone.settles
  | some place => exact (safe_locate hafter place).settles

end Tree

end BlockLang
