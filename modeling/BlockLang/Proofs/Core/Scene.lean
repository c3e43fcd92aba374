import BlockLang.Proofs.Core.Program
import BlockLang.Proofs.Session.Sound

/-! What a session has declared, seen from its current scope. Where a procedure's next
instruction goes does not matter for what its name stands for, so a scene only changes
when something is declared. -/

namespace BlockLang

open Code Names BlockLang.Core

namespace Names

def Meaning.entity : Meaning → Entity
  | literal text => .literal text
  | procedure function _ => .procedure function
  | cell global type => .cell global type

namespace Forest

def entity? (forest : Forest) (id : SymbolId) : Option Entity :=
  (forest.meaning? id).map Meaning.entity

/-- What a scope itself declares. -/
def entries (forest : Forest) (scope : ScopeId) : List (String × SymbolId) :=
  (forest.scopes[scope]?.map Scope.entries).getD []

/-- What can be seen from a scope, scope by scope, the innermost first. -/
def scene (forest : Forest) (scope : ScopeId) : List (List (String × Option Entity)) :=
  (forest.chain scope).map fun id =>
    (forest.entries id).map fun entry => (entry.1, forest.entity? entry.2)

end Forest

end Names

private theorem lookup_map {α β : Type} (entries : List (String × α)) (change : α → β)
    (name : String) :
    (entries.map fun entry => (entry.1, change entry.2)).lookup name =
      (entries.lookup name).map change := by
  induction entries with
  | nil => rfl
  | cons entry rest ih =>
    rw [List.map_cons, List.lookup_cons, List.lookup_cons, ih]
    split <;> rfl

namespace Names.Forest

theorem declared?_eq (forest : Forest) (scope : ScopeId) (name : String) :
    forest.declared? scope name = (forest.entries scope).lookup name := by
  unfold declared? entries
  cases forest.scopes[scope]? <;> rfl

theorem findSome?_scene (forest : Forest) (scope : ScopeId) (name : String) :
    (forest.scene scope).findSome? (fun entries => entries.lookup name) =
      (forest.find? scope name).map forest.entity? := by
  unfold scene find?
  rw [List.findSome?_map, List.map_findSome?]
  congr 1
  funext id
  rw [Function.comp_apply, lookup_map, Function.comp_apply, declared?_eq]

end Names.Forest

namespace Core.Env

/-- The environment as a scene. -/
def known (env : Env) : List (List (String × Option Entity)) :=
  env.map fun scope => scope.map fun entry => (entry.1, some entry.2)

theorem findSome?_known (env : Env) (name : String) :
    env.known.findSome? (fun entries => entries.lookup name) = (env.find? name).map some := by
  unfold known find?
  rw [List.findSome?_map, List.map_findSome?]
  congr 1
  funext scope
  rw [Function.comp_apply, lookup_map]
  rfl

end Core.Env

namespace Session

/-- The session is sound, and what can be seen from its scope is what the environment says. -/
structure Sees (session : Session) (env : Env) : Prop where
  sound : session.Sound
  nodup : (session.forest.chain session.scope).Nodup
  inside : ∀ id ∈ session.forest.chain session.scope, id < session.forest.scopes.length
  scene : session.forest.scene session.scope = env.known

variable {session next : Session} {env : Env}

theorem Sees.find?_eq (h : session.Sees env) (name : String) :
    (session.forest.find? session.scope name).map session.forest.entity? =
      (env.find? name).map some := by
  rw [← Forest.findSome?_scene, h.scene, Env.findSome?_known]

theorem Sees.find?_eq_none (h : session.Sees env) {name : String} (hname : env.find? name = none) :
    session.forest.find? session.scope name = none := by
  have hfind := h.find?_eq name
  rw [hname] at hfind
  exact Option.map_eq_none_iff.1 hfind

theorem Sees.find?_eq_some (h : session.Sees env) {name : String} {entity : Entity}
    (hname : env.find? name = some entity) : ∃ id symbol meaning,
      session.forest.find? session.scope name = some id ∧
        session.forest.symbols[id]? = some symbol ∧ symbol.meaning? = some meaning ∧
          meaning.entity = entity := by
  have hfind := h.find?_eq name
  rw [hname] at hfind
  obtain ⟨id, hid, hentity⟩ := Option.map_eq_some_iff.1 hfind
  obtain ⟨meaning, hmeaning, rfl⟩ := Option.map_eq_some_iff.1 hentity
  obtain ⟨symbol, hsymbol, hmeaning⟩ := Forest.symbol_of_meaning? hmeaning
  exact ⟨id, symbol, meaning, hid, hsymbol, hmeaning, rfl⟩

theorem Sees.chain_eq (h : session.Sees env) :
    ∃ outer, session.forest.chain session.scope = session.scope :: outer := by
  have hhead := h.sound.heads session.scope h.sound.scope
  cases hchain : session.forest.chain session.scope with
  | nil => simp [hchain] at hhead
  | cons id outer =>
    rw [hchain, List.head?_cons, Option.some.injEq] at hhead
    exact ⟨outer, by rw [hhead]⟩

/-- The same scopes, and the same things in them. -/
theorem Sees.congr (h : session.Sees env) (hsound : next.Sound)
    (hscopes : next.forest.scopes = session.forest.scopes)
    (hentity : ∀ id, next.forest.entity? id = session.forest.entity? id)
    (hscope : next.scope = session.scope) : next.Sees env := by
  have hchain : next.forest.chain next.scope = session.forest.chain session.scope := by
    unfold Forest.chain
    rw [hscopes, hscope]
  have hscene : next.forest.scene next.scope = session.forest.scene session.scope := by
    unfold Forest.scene Forest.entries
    rw [hchain, hscopes]
    simp only [hentity]
  refine ⟨hsound, ?_, ?_, hscene.trans h.scene⟩
  · rw [hchain]
    exact h.nodup
  · rw [hchain, hscopes]
    exact h.inside

theorem entries_openScope (forest : Forest) (parent? : Option ScopeId) (id : ScopeId) :
    (forest.openScope parent?).2.entries id = forest.entries id := by
  unfold Forest.entries Forest.openScope
  dsimp only
  rw [List.getElem?_append]
  split
  · rfl
  · next hlength =>
    rw [List.getElem?_eq_none (Nat.le_of_not_lt hlength)]
    cases hnew : ([{ chain := forest.scopes.length :: (parent?.map forest.chain).getD [] }] :
        List Scope)[id - forest.scopes.length]? with
    | none => rfl
    | some scope =>
      rw [List.mem_singleton.1 (List.mem_of_getElem? hnew)]
      rfl

theorem Sees.entered (h : session.Sees env) : session.entered.Sees ([] :: env) := by
  have hchain : session.entered.forest.chain session.entered.scope =
      session.forest.scopes.length :: session.forest.chain session.scope :=
    Forest.chain_openScope_new _ _
  have hnew : session.forest.entries session.forest.scopes.length = [] := by
    simp [Forest.entries]
  refine ⟨h.sound.entered, ?_, ?_, ?_⟩
  · rw [hchain]
    refine List.nodup_cons.2 ⟨fun hmem => ?_, h.nodup⟩
    exact Nat.lt_irrefl _ (h.inside _ hmem)
  · rw [hchain]
    intro id hid
    have hlength : session.entered.forest.scopes.length = session.forest.scopes.length + 1 := by
      simp [Session.entered, Session.told, Forest.openScope]
    rw [hlength]
    rcases List.mem_cons.1 hid with rfl | hid
    · exact Nat.lt_succ_self _
    · exact Nat.lt_succ_of_lt (h.inside id hid)
  · unfold Forest.scene
    rw [hchain, List.map_cons]
    have hentries : ∀ id, session.entered.forest.entries id = session.forest.entries id :=
      entries_openScope _ _
    simp only [hentries, hnew]
    exact congrArg ([] :: ·) h.scene

/-- Leaving a scope takes what was declared in it out of sight. -/
theorem Sees.left {inside : Session} {inner : List (String × Entity)} (h : session.Sees env)
    (hinside : inside.Sees (inner :: env)) (hbalanced : session.entered.Balanced inside) :
    (inside.leftTo session.scope).Sees env := by
  have hnew : session.entered.scope < session.entered.forest.scopes.length :=
    h.sound.entered.scope
  have hchain : inside.forest.chain inside.scope =
      session.forest.scopes.length :: session.forest.chain session.scope := by
    rw [hbalanced.scope, hbalanced.chains _ hnew]
    exact Forest.chain_openScope_new _ _
  have houter : inside.forest.chain session.scope = session.forest.chain session.scope :=
    hbalanced.leftTo.chains _ h.sound.scope
  have hinsideNodup := hinside.nodup
  have hinsideScene := hinside.scene
  unfold Forest.scene at hinsideScene
  rw [hchain] at hinsideNodup hinsideScene
  refine ⟨h.sound.leftTo hinside.sound hbalanced, ?_, ?_, ?_⟩
  · exact houter ▸ (List.nodup_cons.1 hinsideNodup).2
  · intro id hid
    have hmem : id ∈ session.forest.chain session.scope := houter ▸ hid
    exact hinside.inside id (by rw [hchain]; exact List.mem_cons_of_mem _ hmem)
  · have hscene := (List.cons.inj hinsideScene).2
    rw [← houter] at hscene
    exact hscene

theorem entries_added_ne (forest : Forest) {scope id : ScopeId} (name : String) (h : scope ≠ id) :
    (forest.added scope name).entries id = forest.entries id := by
  simp [Forest.entries, Forest.added, h]

theorem entries_added (forest : Forest) {scope : ScopeId} (name : String)
    (h : scope < forest.scopes.length) : (forest.added scope name).entries scope =
      forest.entries scope ++ [(name, forest.symbols.length)] := by
  simp [Forest.entries, Forest.added, h]

theorem Sound.entries_lt (h : session.Sound) {scope : ScopeId} {entry : String × SymbolId}
    (hentry : entry ∈ session.forest.entries scope) :
    entry.2 < session.forest.symbols.length := by
  unfold Forest.entries at hentry
  cases hscope : session.forest.scopes[scope]? with
  | none => simp [hscope] at hentry
  | some found =>
    rw [hscope] at hentry
    exact h.entries found (List.mem_of_getElem? hscope) entry hentry

/-- The innermost scope of the session is that of the environment. -/
theorem Sees.innermost (h : session.Sees env) : ∃ inner outer, env = inner :: outer ∧
    ∀ name, (session.forest.declared? session.scope name).map session.forest.entity? =
      (inner.lookup name).map some := by
  obtain ⟨around, hchain⟩ := h.chain_eq
  have hscene := h.scene
  unfold Forest.scene at hscene
  rw [hchain, List.map_cons] at hscene
  cases env with
  | nil => cases hscene
  | cons inner outer =>
    refine ⟨inner, outer, rfl, fun name => ?_⟩
    have hhead := congrArg (List.lookup name) (List.cons.inj hscene).1
    rw [lookup_map, lookup_map] at hhead
    rw [Forest.declared?_eq]
    exact hhead

theorem Sees.declared?_of_some (h : session.Sees env) {name : String} {entity : Entity}
    {declared : Env} (henv : env.declare? name entity = some declared) :
    session.forest.declared? session.scope name = none := by
  obtain ⟨inner, outer, rfl, hlookup⟩ := h.innermost
  rw [Env.declare?_cons] at henv
  split at henv
  · cases henv
  · next hnone =>
    have hinner : inner.lookup name = none := Option.not_isSome_iff_eq_none.1 hnone
    have hdeclared := hlookup name
    rw [hinner] at hdeclared
    exact Option.map_eq_none_iff.1 hdeclared

theorem Sees.declared?_of_none (h : session.Sees env) {name : String} {entity : Entity}
    (henv : env.declare? name entity = none) :
    ∃ id, session.forest.declared? session.scope name = some id := by
  obtain ⟨inner, outer, rfl, hlookup⟩ := h.innermost
  rw [Env.declare?_cons] at henv
  split at henv
  · next hsome =>
    obtain ⟨found, hfound⟩ := Option.isSome_iff_exists.1 hsome
    have hdeclared := hlookup name
    rw [hfound] at hdeclared
    obtain ⟨id, hid, -⟩ := Option.map_eq_some_iff.1 hdeclared
    exact ⟨id, hid⟩
  · cases henv

/-- A new name, once it has been told what it stands for. -/
theorem Sees.declare (h : session.Sees env) {name : String} {entity : Entity} {declared : Env}
    (henv : env.declare? name entity = some declared) (hsound : next.Sound)
    (hscopes : next.forest.scopes = (session.forest.added session.scope name).scopes)
    (hentity : ∀ id, next.forest.entity? id =
      if id = session.forest.symbols.length then some entity else session.forest.entity? id)
    (hscope : next.scope = session.scope) : next.Sees declared := by
  have hchain : next.forest.chain next.scope = session.forest.chain session.scope := by
    rw [hscope, ← Forest.chain_added session.forest session.scope name session.scope]
    unfold Forest.chain
    rw [hscopes]
  -- What was declared before refers to older symbols, so it is as it was.
  have hold : ∀ id, ((session.forest.entries id).map fun entry =>
      (entry.1, next.forest.entity? entry.2)) =
        (session.forest.entries id).map fun entry =>
          (entry.1, session.forest.entity? entry.2) := by
    intro id
    apply List.map_congr_left
    intro entry hentry
    rw [hentity, if_neg (Nat.ne_of_lt (h.sound.entries_lt hentry))]
  have hentries : ∀ id, next.forest.entries id =
      (session.forest.added session.scope name).entries id := by
    intro id
    unfold Forest.entries
    rw [hscopes]
  obtain ⟨around, haround⟩ := h.chain_eq
  obtain ⟨inner, outer, rfl, -⟩ := h.innermost
  have hdeclared : declared = (inner ++ [(name, entity)]) :: outer := by
    rw [Env.declare?_cons] at henv
    split at henv
    · cases henv
    · exact (Option.some.inj henv).symm
  have hscene := h.scene
  have hnodup := h.nodup
  unfold Forest.scene at hscene
  rw [haround] at hscene hnodup
  obtain ⟨hhead, htail⟩ := List.cons.inj hscene
  dsimp only at hhead
  refine ⟨hsound, by rw [hchain]; exact h.nodup, ?_, ?_⟩
  · intro id hid
    rw [hchain] at hid
    rw [hscopes]
    simpa [Forest.added] using h.inside id hid
  · unfold Forest.scene
    rw [hchain, haround, List.map_cons, hdeclared]
    refine List.cons_eq_cons.2 ⟨?_, ?_⟩
    · rw [hentries, entries_added _ _ h.sound.scope, List.map_append, hold, hhead]
      simp [hentity]
    · refine (List.map_congr_left ?_).trans htail
      intro id hid
      have hne : session.scope ≠ id := by
        rintro rfl
        exact (List.nodup_cons.1 hnodup).1 hid
      rw [hentries, entries_added_ne _ _ hne, hold]

theorem Sees.tell (h : session.Sees env) {name : String} {meaning : Meaning} {declared : Env}
    (henv : env.declare? name meaning.entity = some declared) (hsound : next.Sound)
    (hforest : next.forest = (session.forest.added session.scope name).withSymbol
      session.forest.symbols.length { name, meaning? := some meaning })
    (hscope : next.scope = session.scope) : next.Sees declared := by
  refine h.declare henv hsound (by rw [hforest]; rfl) ?_ hscope
  intro id
  have hlength : session.forest.symbols.length <
      (session.forest.added session.scope name).symbols.length := by
    simp [Forest.added]
  unfold Forest.entity?
  rw [hforest, Forest.meaning?_withSymbol hlength, Forest.meaning?_added]
  by_cases hid : session.forest.symbols.length = id
  · simp [hid]
  · rw [if_neg hid, if_neg (Ne.symm hid)]

end Session

end BlockLang
