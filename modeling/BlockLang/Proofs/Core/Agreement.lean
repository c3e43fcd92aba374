import BlockLang.Proofs.Core.Build
import BlockLang.Proofs.Core.Resolve
import BlockLang.Proofs.Core.Scene
import BlockLang.Proofs.Session.Safety

/-! Carrying out a tree comes to the same as resolving it and building the code of what
it resolves to: the one goes well exactly if the other does, and then the code is the
same. -/

namespace BlockLang

open Code Names BlockLang.Core

namespace Compiler

variable {α β ρ σ : Type} {session : Session}

/-- The step goes well exactly if there is a result, which is then in the relation `done`
to the value and the session that the step ends with. -/
def Yields (step : Compiler α) (session : Session) (result : Option ρ)
    (done : ρ → α → Session → Prop) : Prop :=
  Ends step session (fun _ _ => result = none)
    fun value next => ∃ found, result = some found ∧ done found value next

theorem Yields.bind {step : Compiler α} {next : α → Compiler β} {result : Option ρ}
    {rest : ρ → Option σ} {middle : ρ → α → Session → Prop} {done : σ → β → Session → Prop}
    (h : Yields step session result middle)
    (hnext : ∀ found value after, result = some found → middle found value after →
      Yields (next value) after (rest found) done) :
    Yields (step >>= next) session (result >>= rest) done := by
  have hfirst : Ends step session (fun _ _ => (result >>= rest) = none) fun value after =>
      ∃ found, result = some found ∧ middle found value after := by
    refine Ends.imp h ?_ fun _ _ hdone => hdone
    intro _ _ hnone
    rw [hnone]
    rfl
  refine hfirst.bind ?_
  rintro value after ⟨found, rfl, hmiddle⟩
  exact hnext found value after rfl hmiddle

/-- The last step: what is left is to put the result together. -/
theorem Yields.last {step : Compiler α} {result : Option ρ} {rest : ρ → Option σ}
    {middle : ρ → α → Session → Prop} {done : σ → α → Session → Prop}
    (h : Yields step session result middle)
    (hrest : ∀ found value next, result = some found → middle found value next →
      ∃ whole, rest found = some whole ∧ done whole value next) :
    Yields step session (result >>= rest) done := by
  refine Ends.imp h ?_ ?_
  · intro _ _ hnone
    rw [hnone]
    rfl
  · rintro value next ⟨found, rfl, hmiddle⟩
    exact hrest found value next rfl hmiddle

/-- What follows always goes well. -/
theorem Yields.finish {step : Compiler α} {next : α → Compiler β} {result : Option ρ}
    {middle : ρ → α → Session → Prop} {done : ρ → β → Session → Prop}
    (h : Yields step session result middle)
    (hnext : ∀ found value after, result = some found → middle found value after →
      ∃ last final, next value after = .ok last final ∧ done found last final) :
    Yields (step >>= next) session result done := by
  refine Ends.bind h ?_
  rintro value after ⟨found, hfound, hmiddle⟩
  obtain ⟨last, final, hrun, hdone⟩ := hnext found value after hfound hmiddle
  exact ends_of_ok hrun ⟨found, hfound, hdone⟩

theorem Yields.mono {step : Compiler α} {result : Option ρ} {done done' : ρ → α → Session → Prop}
    (h : Yields step session result done)
    (hdone : ∀ found value next, result = some found → done found value next →
      done' found value next) : Yields step session result done' := by
  refine Ends.mono h ?_
  rintro value next ⟨found, hfound, hholds⟩
  exact ⟨found, hfound, hdone found value next hfound hholds⟩

/-- A first step that always goes well and has no counterpart. -/
theorem yields_bind_of_ok {step : Compiler α} {next : α → Compiler β} {value : α}
    {after : Session} {result : Option ρ} {done : ρ → β → Session → Prop}
    (hstep : step session = .ok value after) (h : Yields (next value) after result done) :
    Yields (step >>= next) session result done :=
  ends_bind_of_ok hstep h

theorem yields_of_ok {step : Compiler α} {value : α} {next : Session} {found : ρ}
    {done : ρ → α → Session → Prop} (hstep : step session = .ok value next)
    (h : done found value next) : Yields step session (some found) done :=
  ends_of_ok hstep ⟨found, rfl, h⟩

theorem yields_of_error {step : Compiler α} {error : Error} {next : Session}
    {done : ρ → α → Session → Prop} (hstep : step session = .error (.error error) next) :
    Yields step session none done :=
  ends_of_error hstep rfl

/-- What a safe step keeps holds as well. -/
theorem Yields.and_safe {step : Compiler α} {result : Option ρ}
    {done : ρ → α → Session → Prop} {kept : α → Session → Prop}
    (h : Yields step session result done) (hsafe : Safe step session kept) :
    Yields step session result fun found value next =>
      done found value next ∧ session.Balanced next ∧ kept value next := by
  refine Ends.imp (Ends.and h hsafe) (fun _ _ hnone => hnone.1) ?_
  rintro value next ⟨⟨found, hfound, hdone⟩, -, hkept⟩
  exact ⟨found, hfound, hdone, hkept⟩

theorem Safe.of_ok {step : Compiler α} {done : α → Session → Prop} {value : α} {next : Session}
    (h : Safe step session done) (hstep : step session = .ok value next) :
    next.Sound ∧ session.Balanced next ∧ done value next := by
  unfold Safe Ends at h
  rw [hstep] at h
  exact h

/-- Where there is no result in the end, a step before the end has only to be safe. -/
theorem yields_none_bind {step : Compiler α} {next : α → Compiler β} {kept : α → Session → Prop}
    {done : ρ → β → Session → Prop} (h : Safe step session kept)
    (hnext : ∀ value after, after.Sound → session.Balanced after → kept value after →
      Yields (next value) after none done) : Yields (step >>= next) session none done := by
  have hfirst : Ends step session (fun _ _ => (none : Option ρ) = none) fun value after =>
      after.Sound ∧ session.Balanced after ∧ kept value after :=
    Ends.imp h (fun _ _ _ => rfl) fun _ _ hkept => hkept
  refine hfirst.bind ?_
  rintro value after ⟨hsound, hbalanced, hkept⟩
  exact hnext value after hsound hbalanced hkept

theorem yields_raise (mistake : Tree.Mistake) (session : Session) {done : ρ → α → Session → Prop} :
    Yields (raise mistake) session none done := by
  unfold raise
  cases mistake.reached with
  | none => exact yields_of_error rfl
  | some place => exact yields_bind_of_ok (locate_eq place) (yields_of_error rfl)

end Compiler

/-- What can be seen from the session, and the code it has made so far. -/
structure Session.Shows (session : Session) (env : Env) (cells : List IntType)
    (sketches : List Sketch) : Prop where
  sees : session.Sees env
  fits : ∃ procedures, env.Fits cells procedures
  declarable : ∀ type ∈ cells, type ∈ IntType.declarable
  globals : session.builder.code.globals.map Global.type = cells.map IntType.backend
  functions : session.builder.code.functions.map Function.sketch = sketches

/-- The session writes a function, of which `draft` is what there is so far. The sketches
are those of the functions before and after it. -/
structure Session.Writing (session : Session) (env : Env) (cells : List IntType)
    (before : List Sketch) (draft : Draft) (after : List Sketch) : Prop extends
    Session.Shows session env cells (before ++ draft.sketch :: after) where
  cursor : session.builder.cursor = some ⟨before.length, draft.cursor⟩
  inside : draft.cursor < draft.blocks.length
  opened : session.procedures ≠ []

namespace Session

variable {session next : Session} {env : Env} {cells : List IntType} {before after : List Sketch}
  {draft : Draft}

/-- Neither the names nor the code are different. -/
theorem Shows.congr {sketches : List Sketch} (h : session.Shows env cells sketches)
    (hsound : next.Sound) (hforest : next.forest = session.forest)
    (hscope : next.scope = session.scope) (hcode : next.builder.code = session.builder.code) :
    next.Shows env cells sketches := by
  refine ⟨h.sees.congr hsound (by rw [hforest]) (fun _ => by rw [hforest]) hscope, h.fits,
    h.declarable, ?_, ?_⟩
  · rw [hcode]
    exact h.globals
  · rw [hcode]
    exact h.functions

theorem Shows.locatedAt {sketches : List Sketch} (h : session.Shows env cells sketches)
    (place : Place) : (session.locatedAt place).Shows env cells sketches :=
  h.congr (h.sees.sound.locatedAt place) rfl rfl rfl

theorem Writing.locatedAt (h : session.Writing env cells before draft after) (place : Place) :
    (session.locatedAt place).Writing env cells before draft after :=
  ⟨h.toShows.locatedAt place, h.cursor, h.inside, h.opened⟩

end Session

namespace Session.Writing

variable {session next : Session} {env : Env} {cells : List IntType} {before after : List Sketch}
  {draft : Draft}

theorem builder_at (h : session.Writing env cells before draft after) :
    session.builder.At before.length draft := by
  have hsketch : (session.builder.code.functions.map Function.sketch)[before.length]? =
      some draft.sketch := by
    rw [h.functions, List.getElem?_append_right (Nat.le_refl _), Nat.sub_self]
    rfl
  rw [List.getElem?_map] at hsketch
  obtain ⟨function, hfunction, hsame⟩ := Option.map_eq_some_iff.1 hsketch
  exact ⟨h.cursor, ⟨function, hfunction, Function.draft_of_sketch hsame⟩, h.inside⟩

theorem redraft (h : session.Writing env cells before draft after) {last : Draft}
    (hlength : draft.blocks.length ≤ last.blocks.length)
    (hinside : last.cursor < last.blocks.length) :
    (session.redraft before.length last).Writing env cells before last after := by
  refine ⟨⟨?_, h.fits, h.declarable, h.globals, ?_⟩, rfl, hinside, h.opened⟩
  · exact h.sees.congr (h.sees.sound.redraft h.builder_at hlength hinside) rfl (fun _ => rfl) rfl
  · obtain ⟨first, others, hfunctions, hfirst, hothers⟩ := List.map_eq_append_iff.1 h.functions
    obtain ⟨function, second, rfl, -, hsecond⟩ := List.map_eq_cons_iff.1 hothers
    have hlength : before.length = first.length := by rw [← hfirst, List.length_map]
    change ((session.builder.code.functions.modify before.length _).map Function.sketch) = _
    rw [hfunctions, hlength, modify_middle, List.map_append, List.map_cons, hfirst, hsecond]
    rfl

/-- The global of a cell that is in sight. -/
theorem global (h : session.Writing env cells before draft after) {name : String} {id : Nat}
    {type : IntType} (hfind : env.find? name = some (.cell id type)) :
    ∃ global, session.builder.code.globals[id]? = some global ∧ global.type = type.backend := by
  obtain ⟨procedures, hfits⟩ := h.fits
  have hcell : cells[id]? = some type := hfits.find? hfind
  have htype : (session.builder.code.globals.map Global.type)[id]? = some type.backend := by
    rw [h.globals, List.getElem?_map, hcell]
    rfl
  rw [List.getElem?_map] at htype
  exact Option.map_eq_some_iff.1 htype

/-- Straight-line code is written at the cursor. -/
theorem write {α : Type} (h : session.Writing env cells before draft after) (code : Straight α) :
    (session.redraft before.length (draft.write code)).Writing env cells before
      (draft.write code) after :=
  h.redraft (by simp) (by simpa using h.inside)

theorem push (h : session.Writing env cells before draft after) (instr : Instr) :
    (session.redraft before.length (draft.push instr)).Writing env cells before
      (draft.push instr) after :=
  h.redraft (by simp) (by simpa [Draft.push] using h.inside)

/-- The innermost open procedure is the one whose function is written. -/
theorem procedure (h : session.Writing env cells before draft after) :
    ∃ id rest reached found, session.procedures = id :: rest ∧
      session.forest.symbols[id]? = some found ∧
        found.meaning? = some (.procedure before.length reached) := by
  obtain ⟨id, rest, function, reached, other, hprocedures, hmeaning, hat⟩ :=
    h.sees.sound.standing h.opened
  obtain ⟨found, hfound, hprocedure⟩ := Forest.symbol_of_meaning? hmeaning
  have hcursor := Option.some.inj (hat.cursor.symm.trans h.cursor)
  have hfunction : function = before.length := congrArg BlockRef.function hcursor
  rw [hfunction] at hprocedure
  exact ⟨id, rest, reached, found, hprocedures, hfound, hprocedure⟩

theorem appendBlock_eq (h : session.Writing env cells before draft after) (label : String) :
    Compiler.appendBlock label session = .ok ⟨before.length, draft.blocks.length⟩
        (session.redraft before.length (draft.openBlock label)) ∧
      (session.redraft before.length (draft.openBlock label)).Writing env cells before
        (draft.openBlock label) after := by
  obtain ⟨id, rest, block, found, hprocedures, hfound, hprocedure⟩ := h.procedure
  refine ⟨Compiler.appendBlock_eq hprocedures hfound hprocedure h.builder_at label, ?_⟩
  refine h.redraft (by simp) ?_
  rw [Draft.length_openBlock]
  exact Nat.lt_succ_of_lt h.inside

theorem moveTo_eq (h : session.Writing env cells before draft after) {block : BlockId}
    (hblock : block < draft.blocks.length) : ∃ next,
      Compiler.setCurrentBlock ⟨before.length, block⟩ session = .ok () next ∧
        next.Writing env cells before (draft.moveTo block) after := by
  obtain ⟨id, rest, reached, found, hprocedures, hfound, hprocedure⟩ := h.procedure
  have hmeaning : session.forest.meaning? id = some (.procedure before.length reached) := by
    simp [Forest.meaning?, hfound, hprocedure]
  have howns : session.Owns ⟨before.length, block⟩ :=
    ⟨h.builder_at.hasBlock hblock, id, rest, reached, hprocedures, hmeaning⟩
  have hrun := Compiler.setCurrentBlock_eq hprocedures hfound hprocedure ⟨before.length, block⟩
  have hsound := ((Compiler.safe_setCurrentBlock h.sees.sound howns).of_ok hrun).1
  refine ⟨_, hrun, ⟨⟨?_, h.fits, h.declarable, h.globals, h.functions⟩, rfl, hblock, h.opened⟩⟩
  refine h.sees.congr hsound rfl ?_ rfl
  intro symbol
  have hset := Forest.meaning?_withSymbol (Forest.lt_of_meaning? hmeaning)
    { found with meaning? := some (.procedure before.length ⟨before.length, block⟩) } symbol
  refine (congrArg (Option.map Meaning.entity) hset).trans ?_
  unfold Forest.entity?
  split
  · next heq =>
    subst heq
    rw [hmeaning]
    rfl
  · rfl

end Session.Writing

namespace Compiler

variable {α ρ : Type} {session : Session} {env : Env} {cells : List IntType}
  {before after : List Sketch} {draft : Draft}

/-- A name is looked up: it is found exactly if the environment has it. -/
theorem yields_resolve (h : session.Sees env) (name : Tree.Ident) :
    Yields (resolve name) session (env.find? name.name) fun entity symbol next =>
      next = session.locatedAt name.place ∧
        ∃ meaning, symbol.meaning? = some meaning ∧ meaning.entity = entity := by
  have hlocated : (session.locatedAt name.place).Sees env :=
    h.congr (h.sound.locatedAt name.place) rfl (fun _ => rfl) rfl
  unfold resolve
  refine yields_bind_of_ok (locate_eq name.place) ?_
  cases hname : env.find? name.name with
  | none => exact yields_of_error (bind_eq_error (find_eq_error (hlocated.find?_eq_none hname)))
  | some entity =>
    obtain ⟨id, symbol, meaning, hfind, hsymbol, hmeaning, hentity⟩ := hlocated.find?_eq_some hname
    exact yields_of_ok ((bind_eq_ok (find_eq_ok hfind)).trans (symbol_eq hsymbol))
      ⟨rfl, meaning, hmeaning, hentity⟩

/-- A name of a given kind is looked up. There is no result if the environment does not
have it, or has something of another kind. -/
theorem yields_resolveAs (h : session.Sees env) (kind : Kind) (name : Tree.Ident)
    {next : Symbol → Compiler α} {result : Option ρ} {done : ρ → α → Session → Prop}
    (hnone : env.find? name.name = none → result = none)
    (hother : ∀ meaning : Meaning, env.find? name.name = some meaning.entity →
      meaning.kind ≠ kind → result = none)
    (hnext : ∀ (symbol : Symbol) (meaning : Meaning), env.find? name.name = some meaning.entity →
      symbol.meaning? = some meaning → meaning.kind = kind →
        Yields (next symbol) (session.locatedAt name.place) result done) :
    Yields (resolveAs kind name >>= next) session result done := by
  have hresolve := yields_resolve h name
  unfold resolveAs
  rw [bind_assoc]
  refine Ends.bind (Ends.imp hresolve (fun _ _ => hnone) fun _ _ hfound => hfound) ?_
  rintro symbol _ ⟨_, hfind, rfl, meaning, hmeaning, rfl⟩
  have hkind : symbol.kind? = some meaning.kind := by simp [Symbol.kind?, hmeaning]
  by_cases hsame : meaning.kind = kind
  · rw [if_pos (by rw [hkind, hsame]), pure_bind]
    exact hnext symbol meaning hfind hmeaning hsame
  · rw [if_neg (by rw [hkind]; simpa using hsame), hother meaning hfind hsame]
    exact yields_of_error rfl

theorem yields_loadName (h : session.Writing env cells before draft after) (name : Tree.Ident) :
    Yields (loadName name) session (env.value? name.name) fun expr operand next =>
      operand = expr.code.value draft.nextRegister ∧
        next.Writing env cells before (draft.write expr.code) after := by
  have hvalue : env.value? name.name = env.find? name.name >>= fun entity => match entity with
      | .literal text => (Numeral.read? text).map .number
      | .cell id type => some (.cell id type)
      | .procedure _ => none := by
    unfold Env.value?
    cases env.find? name.name with
    | none => rfl
    | some entity => cases entity <;> rfl
  rw [hvalue]
  unfold loadName
  refine (yields_resolve h.sees name).bind ?_
  rintro _ symbol _ hfind ⟨rfl, meaning, hmeaning, rfl⟩
  have hnext := h.locatedAt name.place
  rw [hmeaning]
  cases meaning with
  | literal text =>
    dsimp only [Meaning.entity]
    cases hnumeral : Numeral.read? text with
    | none => exact yields_of_error rfl
    | some value => exact yields_of_ok rfl ⟨rfl, by simpa [Expr.code] using hnext⟩
  | procedure function block => exact yields_of_error rfl
  | cell global type =>
    dsimp only [Meaning.entity]
    obtain ⟨global', hglobal, htype⟩ := hnext.global hfind
    refine yields_bind_of_ok (build_eq_ok (Build.load_eq hnext.builder_at hglobal)) ?_
    rw [htype]
    exact yields_of_ok rfl ⟨rfl, hnext.write _⟩

/-- Straight-line code has no counterpart in the tree. -/
theorem yields_writes (h : session.Writing env cells before draft after) {step : Compiler α}
    {code : Straight α} (hwrites : Writes step code) {found : ρ} :
    Yields step session (some found) fun _ value next => value = code.value draft.nextRegister ∧
      next.Writing env cells before (draft.write code) after :=
  yields_of_ok (hwrites _ _ _ h.builder_at) ⟨rfl, h.write code⟩

end Compiler

open Compiler

namespace Tree

variable {session : Session} {env : Env} {cells : List IntType} {before after : List Sketch}
  {draft : Draft}

theorem Expr.yields_emit (expr : Expr) (h : session.Writing env cells before draft after) :
    Yields expr.emit session (expr.resolve env) fun found operand next =>
      operand = found.code.value draft.nextRegister ∧
        next.Writing env cells before (draft.write found.code) after := by
  induction expr generalizing session draft with
  | number value => exact yields_of_ok rfl ⟨rfl, by simpa [Core.Expr.code] using h⟩
  | name ident => exact yields_loadName h ident
  | negate operand ih =>
    refine ((ih h).and_safe (operand.safe_emit h.sees.sound h.opened)).bind ?_
    rintro found _ next - ⟨⟨rfl, hnext⟩, -, -⟩
    refine (yields_writes hnext (writes_negate _)).mono ?_
    rintro _ _ last hfound ⟨rfl, hlast⟩
    cases hfound
    refine ⟨rfl, ?_⟩
    rw [Core.Expr.code, Draft.write_bind]
    exact hlast
  | binary op left right ihleft ihright =>
    refine ((ihleft h).and_safe (left.safe_emit h.sees.sound h.opened)).bind ?_
    rintro first _ middle - ⟨⟨rfl, hmiddle⟩, -, hfirst⟩
    refine ((ihright hmiddle).and_safe
      (right.safe_emit hmiddle.sees.sound hmiddle.opened)).bind ?_
    rintro second _ next - ⟨⟨rfl, hnext⟩, -, hsecond⟩
    refine (yields_writes hnext (writes_combine op hfirst hsecond)).mono ?_
    rintro _ _ last hfound ⟨rfl, hlast⟩
    cases hfound
    refine ⟨rfl, ?_⟩
    rw [Core.Expr.code, Draft.write_bind, Draft.write_bind]
    exact hlast
  | missing mistake => exact yields_raise mistake session
  | unclosed inner mistake ih =>
    refine yields_none_bind (inner.safe_emit h.sees.sound h.opened).discard ?_
    intro _ next _ _ _
    exact yields_raise mistake next

theorem Cond.yields_emit (cond : Cond) (h : session.Writing env cells before draft after) :
    Yields cond.emit session (cond.resolve env) fun found value next =>
      value = found.code.value draft.nextRegister ∧
        next.Writing env cells before (draft.write found.code) after := by
  cases cond with
  | compare op left right =>
    refine ((left.yields_emit h).and_safe (left.safe_emit h.sees.sound h.opened)).bind ?_
    rintro first _ middle - ⟨⟨rfl, hmiddle⟩, -, hfirst⟩
    refine ((right.yields_emit hmiddle).and_safe
      (right.safe_emit hmiddle.sees.sound hmiddle.opened)).bind ?_
    rintro second _ next - ⟨⟨rfl, hnext⟩, -, hsecond⟩
    refine (yields_writes hnext (writes_compare op hfirst hsecond)).mono ?_
    rintro _ _ last hfound ⟨rfl, hlast⟩
    cases hfound
    refine ⟨rfl, ?_⟩
    rw [Core.Cond.code, Draft.write_bind, Draft.write_bind]
    exact hlast
  | half left mistake =>
    refine yields_none_bind (left.safe_emit h.sees.sound h.opened).discard ?_
    intro _ next _ _ _
    exact yields_raise mistake next
  | unfollowed op left right mistake =>
    refine yields_none_bind (left.safe_emit h.sees.sound h.opened) ?_
    intro first middle hmiddle hbalanced hfirst
    have hopened := hbalanced.opened h.opened
    refine yields_none_bind (right.safe_emit hmiddle hopened) ?_
    intro second next hnext hbalanced hsecond
    refine yields_none_bind ((writes_compare op hfirst hsecond).safe hnext
      (hbalanced.opened hopened)).discard ?_
    intro _ last _ _ _
    exact yields_raise mistake last

variable {sketches : List Sketch}

theorem ConstValue.yields_emit (value : ConstValue) (h : session.Shows env cells sketches) :
    Yields value.emit session (value.resolve env) fun found text next =>
      text = found ∧ next.Shows env cells sketches ∧ next.builder = session.builder ∧
        next.procedures = session.procedures := by
  cases value with
  | text spelling => exact yields_of_ok rfl ⟨rfl, h, rfl, rfl⟩
  | copy source =>
    refine yields_resolveAs h.sees .literal source ?_ ?_ ?_
    · intro hfind
      simp [ConstValue.resolve, Env.literal?, hfind]
    · intro meaning hfind hkind
      cases meaning with
      | literal text => exact (hkind rfl).elim
      | procedure function block => simp [ConstValue.resolve, Env.literal?, hfind, Meaning.entity]
      | cell global type => simp [ConstValue.resolve, Env.literal?, hfind, Meaning.entity]
    · intro symbol meaning hfind hmeaning hkind
      cases meaning with
      | literal text =>
        have hresult : (ConstValue.copy source).resolve env = some text := by
          simp [ConstValue.resolve, Env.literal?, hfind, Meaning.entity]
        rw [hresult]
        exact yields_of_ok (orFault_eq_ok text (by simp [Symbol.literal, hmeaning]))
          ⟨rfl, h.locatedAt source.place, rfl, rfl⟩
      | procedure function block => cases hkind
      | cell global type => cases hkind

/-- A name can be declared exactly if the environment can declare it. -/
theorem Ident.yields_declare (name : Ident) (entity : Entity) (h : session.Sees env) :
    Yields name.declare session (env.declare? name.name entity) fun _ id next =>
      id = session.forest.symbols.length ∧
        next = (session.locatedAt name.place).added name.name := by
  have hlocated : (session.locatedAt name.place).Sees env :=
    h.congr (h.sound.locatedAt name.place) rfl (fun _ => rfl) rfl
  unfold Ident.declare
  refine yields_bind_of_ok (locate_eq name.place) ?_
  cases henv : env.declare? name.name entity with
  | none =>
    obtain ⟨id, hid⟩ := hlocated.declared?_of_none henv
    exact yields_of_error (add_eq_error hid)
  | some declared =>
    exact yields_of_ok (add_eq_ok (hlocated.declared?_of_some henv)) ⟨rfl, rfl⟩

/-- The symbol of a name that has just been declared. -/
theorem symbol_added (session : Session) (name : String) :
    (session.added name).forest.symbols[session.forest.symbols.length]? = some { name } := by
  simp [Session.added, Forest.added]

/-- What is left as it was where nothing but declarations are made. -/
structure Kept (session next : Session) : Prop where
  cursor : next.builder.cursor = session.builder.cursor
  procedures : next.procedures = session.procedures

theorem yields_cell {type : IntType} (htype : type ∈ IntType.declarable) (name : Ident)
    (h : session.Shows env cells sketches) :
    Yields (do discard (declareCell (← name.declare) type)) session
      (env.declare? name.name (.cell cells.length type)) fun declared _ next =>
        next.Shows declared (cells ++ [type]) sketches ∧ Kept session next := by
  have hlength : session.builder.code.globals.length = cells.length := by
    simpa using congrArg List.length h.globals
  have hwidth : 0 < type.width := by
    have hwidths := IntType.width_of_mem_declarable htype
    omega
  refine (name.yields_declare _ h.sees).finish ?_
  rintro declared _ _ henv ⟨rfl, rfl⟩
  have hnamed : ((session.locatedAt name.place).added name.name).Sound :=
    (h.sees.sound.locatedAt name.place).added name.name
  have hfound := symbol_added (session.locatedAt name.place) name.name
  obtain ⟨event, hdeclare⟩ := declareCell_eq hfound rfl type
  have hsound := ((safe_declareCell hnamed hfound rfl hwidth).of_ok hdeclare).1
  refine ⟨(), _, bind_eq_ok hdeclare, ⟨?_, ?_, ?_, ?_, h.functions⟩, rfl, rfl⟩
  · rw [← hlength] at henv
    exact h.sees.tell henv hsound rfl rfl
  · obtain ⟨procedures, hfits⟩ := h.fits
    refine ⟨procedures, (hfits.mono (List.prefix_append _ _) (Nat.le_refl _)).declare? henv ?_⟩
    simp [Entity.Fits]
  · intro other hother
    rcases List.mem_append.1 hother with hother | hother
    · exact h.declarable other hother
    · rw [List.mem_singleton.1 hother]
      exact htype
  · rw [List.map_append, ← h.globals]
    exact List.map_append

theorem Kept.trans {first second third : Session} (h : Kept first second)
    (h' : Kept second third) : Kept first third :=
  ⟨h'.cursor.trans h.cursor, h'.procedures.trans h.procedures⟩

theorem yields_names {type : IntType} (htype : type ∈ IntType.declarable) (names : List Ident)
    (h : session.Shows env cells sketches) :
    Yields (names.forM fun name => do discard (declareCell (← name.declare) type)) session
      (resolveNames type names env cells) fun found _ next =>
        next.Shows found.1 found.2 sketches ∧ Kept session next := by
  induction names generalizing session env cells with
  | nil => exact yields_of_ok rfl ⟨h, rfl, rfl⟩
  | cons name rest ih =>
    rw [List.forM_eq_forM, List.forM_cons, resolveNames]
    refine (yields_cell htype name h).bind ?_
    rintro declared _ next - ⟨hnext, hkept⟩
    exact (ih hnext).mono fun _ _ _ _ hlast => ⟨hlast.1, hkept.trans hlast.2⟩

theorem Declaration.yields_emit {declaration : Declaration} (hdeclarable : declaration.Declarable)
    (h : session.Shows env cells sketches) :
    Yields declaration.emit session (declaration.resolve env cells) fun found _ next =>
      next.Shows found.1 found.2 sketches ∧ Kept session next := by
  cases declaration with
  | const name value =>
    refine (value.yields_emit h).bind ?_
    rintro text _ valued - ⟨rfl, hvalued, hbuilder, hprocedures⟩
    refine (name.yields_declare (.literal _) hvalued.sees).bind ?_
    rintro declared _ _ henv ⟨rfl, rfl⟩
    have hnamed := (hvalued.sees.sound.locatedAt name.place).added name.name
    have hfound := symbol_added (valued.locatedAt name.place) name.name
    have hdeclare := declareLiteral_eq hfound rfl
    obtain ⟨procedures, hfits⟩ := hvalued.fits
    refine yields_of_ok (hdeclare _) ⟨⟨?_, ⟨procedures, hfits.declare? henv trivial⟩,
      hvalued.declarable, hvalued.globals, hvalued.functions⟩,
      congrArg Builder.cursor hbuilder, hprocedures⟩
    exact hvalued.sees.tell henv
      ((safe_declareLiteral hnamed hfound rfl _).of_ok (hdeclare _)).1 rfl rfl
  | vars names type => exact yields_names hdeclarable names h
  | stop mistake => exact yields_raise mistake session
  | unendedCopy source mistake =>
    refine yields_none_bind (ConstValue.safe_emit (.copy source) h.sees.sound).discard ?_
    intro _ next _ _ _
    exact yields_raise mistake next

theorem yields_locals {locals : List Declaration}
    (hdeclarable : ∀ declaration ∈ locals, declaration.Declarable)
    (h : session.Shows env cells sketches) :
    Yields (locals.forM Declaration.emit) session (resolveLocals locals env cells)
      fun found _ next => next.Shows found.1 found.2 sketches ∧ Kept session next := by
  induction locals generalizing session env cells with
  | nil => exact yields_of_ok rfl ⟨h, rfl, rfl⟩
  | cons declaration rest ih =>
    rw [List.forM_eq_forM, List.forM_cons, resolveLocals]
    refine (Declaration.yields_emit (hdeclarable _ List.mem_cons_self) h).bind ?_
    rintro ⟨declared, more⟩ _ next - ⟨hnext, hkept⟩
    refine (ih (fun other hother => hdeclarable other (List.mem_cons_of_mem _ hother)) hnext).mono ?_
    exact fun _ _ _ _ hlast => ⟨hlast.1, hkept.trans hlast.2⟩

end Tree

end BlockLang
