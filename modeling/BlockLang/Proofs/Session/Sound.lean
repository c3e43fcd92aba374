import BlockLang.Proofs.Session.Runs

/-! Sessions in which every stored reference leads somewhere. A session stays sound
whatever is taken in, and also when work breaks off half way. -/

namespace BlockLang

open Code Names

/-- The errors that taking in tokens can end in. -/
def Error.ofTokens : Error → Bool
  | malformed .. | duplicate .. | unresolved .. | wrongKind .. | notNumeric .. => true
  | unreadable .. | rejected .. | internal .. | inaccessible .. => false

def Code.Module.HasBlock (code : Module) (place : BlockRef) : Prop :=
  ∃ function, code.functions[place.function]? = some function ∧
    place.block < function.blocks.length

/-- What the meaning refers to exists, and no cell is of no width. -/
def Names.Meaning.Sound (code : Module) : Meaning → Prop
  | literal _ => True
  | procedure function block => block.function = function ∧ code.HasBlock block
  | cell global type => global < code.globals.length ∧ 0 < type.width

namespace Session

structure Sound (session : Session) : Prop where
  heads : ∀ id < session.forest.scopes.length, (session.forest.chain id).head? = some id
  /-- The scopes around a scope were opened before it. -/
  outward : ∀ id, ∀ outer ∈ (session.forest.chain id).tail, outer < id
  entries : ∀ scope ∈ session.forest.scopes, ∀ entry ∈ scope.entries,
    entry.2 < session.forest.symbols.length
  scope : session.scope < session.forest.scopes.length
  meanings : ∀ id meaning, session.forest.meaning? id = some meaning →
    meaning.Sound session.builder.code
  procedures : ∀ id ∈ session.procedures, ∃ function block,
    session.forest.meaning? id = some (.procedure function block)
  cursor : ∀ place, session.builder.cursor = some place → session.builder.code.HasBlock place
  /-- The cursor stands in the innermost open procedure. -/
  here : ∀ id ∈ session.procedures.head?, ∃ function block place,
    session.forest.meaning? id = some (.procedure function block) ∧
      session.builder.cursor = some place ∧ place.function = function
  log : ∀ fault, .event (.cursorAstray fault) ∉ session.log

/-- What work on a session leaves as it was: scopes keep their chains, blocks stay, procedures
keep their functions, and the code its name. -/
structure Onward (before after : Session) : Prop where
  scopes : before.forest.scopes.length ≤ after.forest.scopes.length
  chains : ∀ id < before.forest.scopes.length, after.forest.chain id = before.forest.chain id
  blocks : ∀ place, before.builder.code.HasBlock place → after.builder.code.HasBlock place
  functions : ∀ id function block, before.forest.meaning? id = some (.procedure function block) →
    ∃ last, after.forest.meaning? id = some (.procedure function last)
  title : after.builder.code.name = before.builder.code.name

/-- Work that ends in the scope and the procedure in which it started. -/
structure Balanced (before after : Session) : Prop extends Onward before after where
  scope : after.scope = before.scope
  procedures : after.procedures = before.procedures
  /-- Only the place the innermost procedure has reached may be another one. -/
  kept : ∀ id meaning, id ∉ before.procedures.head? → before.forest.meaning? id = some meaning →
    after.forest.meaning? id = some meaning

theorem Onward.refl (session : Session) : session.Onward session where
  scopes := Nat.le_refl _
  chains := fun _ _ => rfl
  blocks := fun _ h => h
  functions := fun _ _ block h => ⟨block, h⟩
  title := rfl

theorem Onward.trans {first second third : Session} (h : first.Onward second)
    (h' : second.Onward third) : first.Onward third where
  scopes := Nat.le_trans h.scopes h'.scopes
  chains := by
    intro id hid
    rw [h'.chains id (Nat.lt_of_lt_of_le hid h.scopes), h.chains id hid]
  blocks := fun place hplace => h'.blocks place (h.blocks place hplace)
  functions := by
    intro id function block hmeaning
    obtain ⟨last, hlast⟩ := h.functions id function block hmeaning
    exact h'.functions id function last hlast
  title := h'.title.trans h.title

theorem Balanced.refl (session : Session) : session.Balanced session :=
  ⟨.refl session, rfl, rfl, fun _ _ _ h => h⟩

theorem Balanced.trans {first second third : Session} (h : first.Balanced second)
    (h' : second.Balanced third) : first.Balanced third := by
  refine ⟨h.toOnward.trans h'.toOnward, h'.scope.trans h.scope,
    h'.procedures.trans h.procedures, ?_⟩
  intro id meaning hid hmeaning
  exact h'.kept id meaning (by rwa [h.procedures]) (h.kept id meaning hid hmeaning)

/-- A block of the innermost open procedure. -/
def Owns (session : Session) (place : BlockRef) : Prop :=
  session.builder.code.HasBlock place ∧ ∃ id rest block, session.procedures = id :: rest ∧
    session.forest.meaning? id = some (.procedure place.function block)

theorem Balanced.owns {before after : Session} (h : before.Balanced after) {place : BlockRef}
    (howns : before.Owns place) : after.Owns place := by
  obtain ⟨hplace, id, rest, block, hprocedures, hmeaning⟩ := howns
  obtain ⟨last, hlast⟩ := h.functions id place.function block hmeaning
  exact ⟨h.blocks place hplace, id, rest, last, h.procedures.trans hprocedures, hlast⟩

theorem Balanced.opened {before after : Session} (h : before.Balanced after)
    (hopen : before.procedures ≠ []) : after.procedures ≠ [] := by
  rw [h.procedures]
  exact hopen

end Session

/-- A symbol keeps what it was told, but for the block a procedure has reached. -/
theorem Names.Meaning.Sound.mono {before after : Module} {meaning : Meaning}
    (h : meaning.Sound before) (hglobals : before.globals.length ≤ after.globals.length)
    (hblocks : ∀ place, before.HasBlock place → after.HasBlock place) : meaning.Sound after := by
  cases meaning with
  | literal text => trivial
  | procedure function block => exact ⟨h.1, hblocks block h.2⟩
  | cell global type => exact ⟨Nat.lt_of_lt_of_le h.1 hglobals, h.2⟩

namespace Code

theorem Builder.At.hasBlock {builder : Builder} {id : FunctionId} {draft : Draft}
    (h : builder.At id draft) {block : BlockId} (hblock : block < draft.blocks.length) :
    builder.code.HasBlock ⟨id, block⟩ := by
  obtain ⟨function, hfunction, hdraft⟩ := h.drafted
  rw [← hdraft] at hblock
  exact ⟨function, hfunction, hblock⟩

theorem Builder.At.hasBlock_redraft {builder : Builder} {id : FunctionId} {draft next : Draft}
    (h : builder.At id draft) (hlength : draft.blocks.length ≤ next.blocks.length)
    {place : BlockRef} (hplace : builder.code.HasBlock place) :
    (builder.redraft id next).code.HasBlock place := by
  obtain ⟨function, hfunction, hblock⟩ := hplace
  by_cases hid : id = place.function
  · obtain ⟨drafted, hdrafted, hdraft⟩ := h.drafted
    subst hid
    obtain rfl := Option.some.inj (hfunction.symm.trans hdrafted)
    rw [← hdraft] at hlength
    exact ⟨_, Module.functions_redraft hfunction next, Nat.lt_of_lt_of_le hblock hlength⟩
  · exact ⟨function, by rw [← hfunction]; exact Module.functions_redraft_ne _ hid next, hblock⟩

end Code

namespace Session

variable {session : Session}

theorem Sound.locatedAt (h : session.Sound) (place : Place) : (session.locatedAt place).Sound :=
  ⟨h.heads, h.outward, h.entries, h.scope, h.meanings, h.procedures, h.cursor, h.here, h.log⟩

theorem balanced_locatedAt (session : Session) (place : Place) :
    session.Balanced (session.locatedAt place) :=
  ⟨⟨Nat.le_refl _, fun _ _ => rfl, fun _ h => h, fun _ _ block h => ⟨block, h⟩, rfl⟩, rfl, rfl,
    fun _ _ _ h => h⟩

theorem Sound.told (h : session.Sound) {entry : Log.Entry}
    (hentry : ∀ fault, entry ≠ .event (.cursorAstray fault)) : (session.told entry).Sound := by
  refine ⟨h.heads, h.outward, h.entries, h.scope, h.meanings, h.procedures, h.cursor, h.here, ?_⟩
  intro fault hmem
  rcases List.mem_cons.1 hmem with heq | hmem
  · exact hentry fault heq.symm
  · exact h.log fault hmem

theorem balanced_told (session : Session) (entry : Log.Entry) :
    session.Balanced (session.told entry) :=
  ⟨⟨Nat.le_refl _, fun _ _ => rfl, fun _ h => h, fun _ _ block h => ⟨block, h⟩, rfl⟩, rfl, rfl,
    fun _ _ _ h => h⟩

/-- In an open procedure the builder stands in that procedure's function. -/
theorem Sound.standing (h : session.Sound) (hopen : session.procedures ≠ []) :
    ∃ id rest function block draft, session.procedures = id :: rest ∧
      session.forest.meaning? id = some (.procedure function block) ∧
        session.builder.At function draft := by
  cases hprocedures : session.procedures with
  | nil => exact (hopen hprocedures).elim
  | cons id rest =>
    obtain ⟨function, block, place, hmeaning, hcursor, hplace⟩ := h.here id (by simp [hprocedures])
    obtain ⟨found, hfound, hblock⟩ := h.cursor place hcursor
    subst hplace
    exact ⟨id, rest, _, block, found.draft place.block, rfl, hmeaning, hcursor,
      ⟨found, hfound, rfl⟩, hblock⟩

theorem Sound.redraft (h : session.Sound) {function : FunctionId} {draft next : Draft}
    (hat : session.builder.At function draft)
    (hlength : draft.blocks.length ≤ next.blocks.length)
    (hinside : next.cursor < next.blocks.length) : (session.redraft function next).Sound := by
  have hblocks : ∀ place, session.builder.code.HasBlock place →
      (session.builder.redraft function next).code.HasBlock place :=
    fun _ hplace => hat.hasBlock_redraft hlength hplace
  refine ⟨h.heads, h.outward, h.entries, h.scope, ?_, h.procedures, ?_, ?_, h.log⟩
  · intro id meaning hmeaning
    exact (h.meanings id meaning hmeaning).mono (Nat.le_refl _) hblocks
  · intro place hplace
    cases hplace
    exact (hat.redraft hinside).hasBlock hinside
  · intro id hid
    obtain ⟨owner, block, place, hmeaning, hcursor, hplace⟩ := h.here id hid
    rw [hat.cursor] at hcursor
    cases hcursor
    exact ⟨owner, block, _, hmeaning, rfl, hplace⟩

theorem balanced_redraft {function : FunctionId} {draft next : Draft}
    (hat : session.builder.At function draft)
    (hlength : draft.blocks.length ≤ next.blocks.length) :
    session.Balanced (session.redraft function next) :=
  ⟨⟨Nat.le_refl _, fun _ _ => rfl, fun _ hplace => hat.hasBlock_redraft hlength hplace,
    fun _ _ block h => ⟨block, h⟩, rfl⟩, rfl, rfl,
    fun _ _ _ h => h⟩

end Session

namespace Names.Forest

theorem chain_openScope_lt (forest : Forest) (parent? : Option ScopeId) {id : ScopeId}
    (h : id < forest.scopes.length) : (forest.openScope parent?).2.chain id = forest.chain id := by
  simp [openScope, chain, List.getElem?_append_left h]

theorem chain_openScope_new (forest : Forest) (scope : ScopeId) :
    (forest.openScope (some scope)).2.chain forest.scopes.length =
      forest.scopes.length :: forest.chain scope := by
  simp [openScope, chain]

theorem chain_added (forest : Forest) (scope : ScopeId) (name : String) (id : ScopeId) :
    (forest.added scope name).chain id = forest.chain id := by
  unfold chain added
  rw [List.getElem?_modify]
  by_cases h : scope = id
  · simp [h, Function.comp_def]
  · simp [h]

theorem mem_added {forest : Forest} {scope : ScopeId} {name : String} {found : Scope}
    (h : found ∈ (forest.added scope name).scopes) :
    ∃ before ∈ forest.scopes, ∀ entry ∈ found.entries,
      entry ∈ before.entries ∨ entry = (name, forest.symbols.length) := by
  obtain ⟨index, hindex⟩ := List.mem_iff_getElem?.1 h
  unfold added at hindex
  rw [List.getElem?_modify] at hindex
  obtain ⟨before, hbefore, rfl⟩ := Option.map_eq_some_iff.1 hindex
  refine ⟨before, List.mem_of_getElem? hbefore, ?_⟩
  intro entry hentry
  by_cases hscope : scope = index
  · simp only [if_pos hscope, List.mem_append, List.mem_singleton] at hentry
    exact hentry
  · simp only [if_neg hscope] at hentry
    exact .inl hentry

end Names.Forest

namespace Session

variable {session : Session}

/-- Every scope of a chain is there. -/
theorem Sound.lt_of_mem_chain (h : session.Sound) {scope outer : ScopeId}
    (hscope : scope < session.forest.scopes.length) (houter : outer ∈ session.forest.chain scope) :
    outer < session.forest.scopes.length := by
  have hhead := h.heads scope hscope
  have houtward := h.outward scope outer
  cases hchain : session.forest.chain scope with
  | nil => simp [hchain] at houter
  | cons first rest =>
    rw [hchain] at hhead houter houtward
    obtain rfl := Option.some.inj hhead
    rcases List.mem_cons.1 houter with rfl | houter
    · exact hscope
    · exact Nat.lt_trans (houtward houter) hscope

theorem Sound.entered (h : session.Sound) : session.entered.Sound := by
  unfold Session.entered
  apply Sound.told _ (by intro fault; simp)
  refine ⟨?_, ?_, ?_, ?_, h.meanings, h.procedures, h.cursor, h.here, h.log⟩
  · intro id hid
    dsimp only at hid ⊢
    by_cases hlast : id < session.forest.scopes.length
    · rw [Forest.chain_openScope_lt _ _ hlast]
      exact h.heads id hlast
    · have hid : id = session.forest.scopes.length := by
        simp [Forest.openScope] at hid
        omega
      subst hid
      rw [Forest.chain_openScope_new]
      rfl
  · intro id outer houter
    dsimp only at houter
    by_cases hlast : id < session.forest.scopes.length
    · rw [Forest.chain_openScope_lt _ _ hlast] at houter
      exact h.outward id outer houter
    · by_cases hnew : id = session.forest.scopes.length
      · subst hnew
        rw [Forest.chain_openScope_new] at houter
        exact h.lt_of_mem_chain h.scope houter
      · have hbeyond : session.forest.scopes.length + 1 ≤ id :=
          Nat.lt_of_le_of_ne (Nat.le_of_not_lt hlast) (Ne.symm hnew)
        have hnone : (session.forest.openScope (some session.scope)).2.scopes[id]? = none := by
          apply List.getElem?_eq_none
          rw [Forest.openScope, List.length_append]
          exact hbeyond
        rw [Forest.chain, hnone] at houter
        cases houter
  · intro scope hscope
    rcases List.mem_append.1 hscope with hscope | hscope
    · exact h.entries scope hscope
    · rw [List.mem_singleton.1 hscope]
      simp
  · simp [Forest.openScope]

theorem onward_entered (session : Session) : session.Onward session.entered where
  scopes := by simp [Session.entered, Session.told, Forest.openScope]
  chains := fun _ hid => Forest.chain_openScope_lt _ _ hid
  blocks := fun _ hplace => hplace
  functions := fun _ _ block hmeaning => ⟨block, hmeaning⟩
  title := rfl

/-- Work inside a new scope that comes back to it can leave it again. -/
theorem Balanced.parent? {inside : Session} (h : session.Sound)
    (hinside : session.entered.Balanced inside) :
    inside.forest.parent? inside.scope = some session.scope := by
  have hnew : session.entered.scope < session.entered.forest.scopes.length := by
    simp [Session.entered, Session.told, Forest.openScope]
  unfold Forest.parent?
  rw [hinside.scope, hinside.chains _ hnew]
  have hchain : session.entered.forest.chain session.entered.scope =
      session.forest.scopes.length :: session.forest.chain session.scope :=
    Forest.chain_openScope_new _ _
  rw [hchain, List.getElem?_cons_succ, ← List.head?_eq_getElem?]
  exact h.heads session.scope h.scope

theorem Balanced.leftTo {inside : Session} (hinside : session.entered.Balanced inside) :
    session.Balanced (inside.leftTo session.scope) := by
  have hinside' : inside.Onward (inside.leftTo session.scope) :=
    ⟨Nat.le_refl _, fun _ _ => rfl, fun _ hplace => hplace, fun _ _ block h => ⟨block, h⟩, rfl⟩
  exact ⟨((onward_entered session).trans hinside.toOnward).trans hinside', rfl,
    hinside.procedures, hinside.kept⟩

theorem Sound.leftTo {inside : Session} (h : session.Sound) (hsound : inside.Sound)
    (hinside : session.entered.Balanced inside) : (inside.leftTo session.scope).Sound := by
  have hscope : session.scope < inside.forest.scopes.length :=
    Nat.lt_of_lt_of_le h.scope (hinside.leftTo).scopes
  unfold Session.leftTo
  apply Sound.told _ (by intro fault; simp)
  exact ⟨hsound.heads, hsound.outward, hsound.entries, hscope, hsound.meanings, hsound.procedures,
    hsound.cursor, hsound.here, hsound.log⟩

theorem Sound.added (h : session.Sound) (name : String) : (session.added name).Sound := by
  refine ⟨?_, ?_, ?_, ?_, ?_, ?_, h.cursor, ?_, h.log⟩
  · intro id hid
    unfold Session.added
    rw [Forest.chain_added]
    exact h.heads id (by simpa [Session.added, Forest.added] using hid)
  · intro id outer houter
    unfold Session.added at houter
    rw [Forest.chain_added] at houter
    exact h.outward id outer houter
  · intro scope hscope entry hentry
    obtain ⟨before, hbefore, hentries⟩ := Forest.mem_added hscope
    have hlength : (session.added name).forest.symbols.length =
        session.forest.symbols.length + 1 := by
      simp [Session.added, Forest.added]
    rw [hlength]
    rcases hentries entry hentry with hold | rfl
    · exact Nat.lt_succ_of_lt (h.entries before hbefore entry hold)
    · exact Nat.lt_succ_self _
  · simpa [Session.added, Forest.added] using h.scope
  · intro id meaning hmeaning
    unfold Session.added at hmeaning
    rw [Forest.meaning?_added] at hmeaning
    exact h.meanings id meaning hmeaning
  · intro id hid
    unfold Session.added
    rw [Forest.meaning?_added]
    exact h.procedures id hid
  · intro id hid
    unfold Session.added
    rw [Forest.meaning?_added]
    exact h.here id hid

theorem balanced_added (session : Session) (name : String) :
    session.Balanced (session.added name) := by
  refine ⟨⟨?_, ?_, fun _ hplace => hplace, ?_, rfl⟩, rfl, rfl, ?_⟩
  · simp [Session.added, Forest.added]
  · intro id _
    exact Forest.chain_added _ _ _ _
  · intro id function block hmeaning
    exact ⟨block, by unfold Session.added; rw [Forest.meaning?_added]; exact hmeaning⟩
  · intro id meaning _ hmeaning
    unfold Session.added
    rw [Forest.meaning?_added]
    exact hmeaning

/-- A symbol may be told what it stands for, but a procedure stays one. -/
theorem Sound.withSymbol (h : session.Sound) {id : SymbolId} {symbol : Symbol} {meaning : Meaning}
    (hid : id < session.forest.symbols.length) (hsymbol : symbol.meaning? = some meaning)
    (hmeaning : meaning.Sound session.builder.code)
    (hprocedure : ∀ function block,
      session.forest.meaning? id = some (.procedure function block) →
        ∃ last, meaning = .procedure function last)
    (hinnermost : id ∈ session.procedures.head? ∨ session.forest.meaning? id = none) :
    (session.withSymbol id symbol).Sound ∧ session.Balanced (session.withSymbol id symbol) := by
  have hkeeps : ∀ other function block,
      session.forest.meaning? other = some (.procedure function block) →
        ∃ last, (session.withSymbol id symbol).forest.meaning? other =
          some (.procedure function last) := by
    intro other function block hother
    unfold Session.withSymbol
    rw [Forest.meaning?_withSymbol hid]
    split
    · next heq =>
      subst heq
      obtain ⟨last, rfl⟩ := hprocedure function block hother
      exact ⟨last, hsymbol⟩
    · exact ⟨block, hother⟩
  refine ⟨⟨h.heads, h.outward, ?_, h.scope, ?_, ?_, h.cursor, ?_, h.log⟩,
    ⟨Nat.le_refl _, fun _ _ => rfl, fun _ hplace => hplace, hkeeps, rfl⟩, rfl, rfl, ?_⟩
  · intro scope hscope entry hentry
    simpa [Session.withSymbol, Forest.withSymbol] using h.entries scope hscope entry hentry
  · intro other found hfound
    unfold Session.withSymbol at hfound
    rw [Forest.meaning?_withSymbol hid] at hfound
    split at hfound
    · rw [hsymbol] at hfound
      cases hfound
      exact hmeaning
    · exact h.meanings other found hfound
  · intro other hother
    obtain ⟨function, block, hblock⟩ := h.procedures other hother
    exact ⟨function, hkeeps other function block hblock⟩
  · intro other hother
    obtain ⟨function, block, place, hblock, hcursor, hplace⟩ := h.here other hother
    obtain ⟨last, hlast⟩ := hkeeps other function block hblock
    exact ⟨function, last, place, hlast, hcursor, hplace⟩
  · intro other found hother hfound
    have hne : id ≠ other := by
      rintro rfl
      rcases hinnermost with hhead | hnone
      · exact hother hhead
      · simp [hnone] at hfound
    unfold Session.withSymbol
    rw [Forest.meaning?_withSymbol hid, if_neg hne]
    exact hfound

/-- A symbol that stands for nothing can be told a meaning. -/
theorem Sound.tellMeaning (h : session.Sound) {id : SymbolId}
    {found : Symbol} (hfound : session.forest.symbols[id]? = some found)
    (hnone : found.meaning? = none) {meaning : Meaning}
    (hmeaning : meaning.Sound session.builder.code) :
    (session.withSymbol id { found with meaning? := some meaning }).Sound ∧
      session.Balanced (session.withSymbol id { found with meaning? := some meaning }) := by
  have hunknown : session.forest.meaning? id = none := by
    simp [Forest.meaning?, hfound, hnone]
  refine h.withSymbol (List.getElem?_eq_some_iff.1 hfound).1 rfl hmeaning ?_ (.inr hunknown)
  intro function block hprocedure
  simp [hunknown] at hprocedure

theorem Sound.withGlobal (h : session.Sound) (name : String) (type : Ty) :
    (session.withGlobal name type).Sound := by
  refine ⟨h.heads, h.outward, h.entries, h.scope, ?_, h.procedures, h.cursor, h.here, h.log⟩
  intro id meaning hmeaning
  refine (h.meanings id meaning hmeaning).mono ?_ fun _ hplace => hplace
  simp [Session.withGlobal, Module.addGlobal]

theorem balanced_withGlobal (session : Session) (name : String) (type : Ty) :
    session.Balanced (session.withGlobal name type) :=
  ⟨⟨Nat.le_refl _, fun _ _ => rfl, fun _ h => h, fun _ _ block h => ⟨block, h⟩, rfl⟩, rfl, rfl,
    fun _ _ _ h => h⟩

theorem hasBlock_withFunction {name : String} {internal : Bool} {place : BlockRef}
    (h : session.builder.code.HasBlock place) :
    (session.withFunction name internal).builder.code.HasBlock place := by
  obtain ⟨function, hfunction, hblock⟩ := h
  have hlt := (List.getElem?_eq_some_iff.1 hfunction).1
  exact ⟨function, by simpa [Session.withFunction, List.getElem?_append_left hlt] using hfunction,
    hblock⟩

theorem hasBlock_withFunction_entry (session : Session) (name : String) (internal : Bool) :
    (session.withFunction name internal).builder.code.HasBlock
      ⟨session.builder.code.functions.length, 0⟩ := by
  refine ⟨(Function.bare (fresh session.builder.code.taken name) internal).redraft .entry, ?_, ?_⟩
  · simp [Session.withFunction]
  · exact Nat.zero_lt_one

theorem Sound.withFunction (h : session.Sound) (name : String) (internal : Bool) :
    (session.withFunction name internal).Sound := by
  refine ⟨h.heads, h.outward, h.entries, h.scope, ?_, h.procedures, ?_, h.here, h.log⟩
  · intro id meaning hmeaning
    exact (h.meanings id meaning hmeaning).mono (Nat.le_refl _) fun _ => hasBlock_withFunction
  · intro place hplace
    exact hasBlock_withFunction (h.cursor place hplace)

theorem moveEvent_ne_astray {code : Module} {place : BlockRef} (h : code.HasBlock place)
    (fault : Fault) : Compiler.moveEvent code place ≠ .cursorAstray fault := by
  obtain ⟨function, hfunction, hblock⟩ := h
  unfold Compiler.moveEvent
  rw [Module.function_eq_ok.2 hfunction,
    Module.block_eq_ok.2 ⟨function, hfunction, List.getElem?_eq_getElem hblock⟩]
  simp

/-- Arriving at a block of the procedure that is then the innermost open one. -/
theorem Sound.arrive (h : session.Sound) {procedures : List SymbolId} {place : BlockRef}
    (hprocedures : ∀ id ∈ procedures, ∃ function block,
      session.forest.meaning? id = some (.procedure function block))
    (hplace : session.builder.code.HasBlock place)
    (hhere : ∀ id ∈ procedures.head?, ∃ block,
      session.forest.meaning? id = some (.procedure place.function block)) :
    ((session.withProcedures procedures).movedTo place).Sound := by
  refine ⟨h.heads, h.outward, h.entries, h.scope, h.meanings, hprocedures, ?_, ?_, ?_⟩
  · intro other hother
    cases hother
    exact hplace
  · intro id hid
    obtain ⟨block, hblock⟩ := hhere id hid
    exact ⟨_, block, place, hblock, rfl, rfl⟩
  · intro fault hmem
    rcases List.mem_cons.1 hmem with heq | hmem
    · exact moveEvent_ne_astray hplace fault (Log.Entry.event.inj heq).symm
    · exact h.log fault hmem

end Session

end BlockLang
