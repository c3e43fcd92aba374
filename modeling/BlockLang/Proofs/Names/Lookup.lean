import BlockLang.Proofs.Core.Scene
import Mathlib.Data.Set.Card

/-! Scopes over any number of deeds: they are opened inside one another and given names, in
any order. A name stands for its nearest addition, and one more addition is seen only from
where nothing nearer hides it. -/

namespace BlockLang.Names

/-- A forest and what it has answered: the scopes it opened, each with its parent, and the
symbols it gave for the names that were added to them. -/
structure Annals where
  forest : Forest := {}
  opened : List (ScopeId × Option ScopeId) := []
  added : List (ScopeId × String × SymbolId) := []

/-- What can be done to a forest. -/
inductive Deed where
  | openScope (parent? : Option ScopeId)
  | add (scope : ScopeId) (name : String) (location : Location)
  deriving Repr, DecidableEq

namespace Annals

def Opened (annals : Annals) (scope : ScopeId) : Prop :=
  ∃ parent?, (scope, parent?) ∈ annals.opened

instance (annals : Annals) : DecidablePred annals.Opened := fun scope =>
  decidable_of_iff (scope ∈ annals.opened.map Prod.fst) (by simp [Opened])

/-- The name has been added to the scope. -/
def Has (annals : Annals) (scope : ScopeId) (name : String) : Prop :=
  ∃ id, (scope, name, id) ∈ annals.added

def Parent (annals : Annals) (inner outer : ScopeId) : Prop :=
  (inner, some outer) ∈ annals.opened

/-- The second scope is an ancestor of the first. -/
def Above (annals : Annals) : ScopeId → ScopeId → Prop :=
  Relation.TransGen annals.Parent

/-- The second scope is the first or an ancestor of it. -/
def Within (annals : Annals) : ScopeId → ScopeId → Prop :=
  Relation.ReflTransGen annals.Parent

/-- The symbol was given for the name in the nearest scope that has the name. -/
inductive Nearest (annals : Annals) (name : String) : ScopeId → SymbolId → Prop
  | here {scope : ScopeId} {id : SymbolId} (hadded : (scope, name, id) ∈ annals.added) :
    Nearest annals name scope id
  | outward {scope outer : ScopeId} {id : SymbolId} (hnot : ¬ annals.Has scope name)
    (hparent : annals.Parent scope outer) (hnearest : Nearest annals name outer id) :
    Nearest annals name scope id

/-- On the way from a scope out to `scope`, the name is met nowhere before. -/
inductive Exposed (annals : Annals) (name : String) (scope : ScopeId) : ScopeId → Prop
  | here : Exposed annals name scope scope
  | inward {inner outer : ScopeId} (hnot : ¬ annals.Has inner name)
    (hparent : annals.Parent inner outer) (hexposed : Exposed annals name scope outer) :
    Exposed annals name scope inner

end Annals

namespace Deed

/-- The deed refers to no scope but those that have been opened. -/
def Uses (annals : Annals) : Deed → Prop
  | openScope parent? => ∀ parent ∈ parent?, annals.Opened parent
  | add scope _ _ => annals.Opened scope

instance (annals : Annals) : DecidablePred (Uses annals)
  | openScope parent? => inferInstanceAs (Decidable (∀ parent ∈ parent?, annals.Opened parent))
  | add scope _ _ => inferInstanceAs (Decidable (annals.Opened scope))

def run (annals : Annals) : Deed → Annals
  | openScope parent? =>
    let (scope, forest) := annals.forest.openScope parent?
    { annals with forest, opened := annals.opened ++ [(scope, parent?)] }
  | add scope name location =>
    match annals.forest.add scope name location with
    | .ok (id, forest) => { annals with forest, added := annals.added ++ [(scope, name, id)] }
    | .error _ => annals

theorem forest_openScope (annals : Annals) (parent? : Option ScopeId) :
    ((openScope parent?).run annals).forest = (annals.forest.openScope parent?).2 := rfl

end Deed

namespace Forest

variable {forest : Forest}

theorem declared?_openScope (forest : Forest) (parent? : Option ScopeId) (scope : ScopeId)
    (name : String) :
    (forest.openScope parent?).2.declared? scope name = forest.declared? scope name := by
  rw [declared?_eq, declared?_eq, Session.entries_openScope]

/-- Adding a name that is free declares it in that scope, and nothing else anywhere. -/
theorem declared?_added {scope : ScopeId} {name : String}
    (hscope : scope < forest.scopes.length) (hfree : forest.declared? scope name = none)
    (other : ScopeId) (word : String) :
    (forest.added scope name).declared? other word =
      if other = scope ∧ word = name then some forest.symbols.length
      else forest.declared? other word := by
  rw [declared?_eq, declared?_eq]
  rw [declared?_eq] at hfree
  by_cases hother : other = scope
  · subst hother
    rw [Session.entries_added forest name hscope, List.lookup_append]
    by_cases hword : word = name
    · rw [hword, hfree, if_pos ⟨rfl, rfl⟩]
      simp
    · rw [if_neg (fun h => hword h.2), List.lookup_cons, beq_false_of_ne hword]
      exact Option.or_none
  · rw [Session.entries_added_ne forest name (Ne.symm hother), if_neg (fun h => hother h.1)]

theorem lt_of_declared? {scope : ScopeId} {name : String} {id : SymbolId}
    (h : forest.declared? scope name = some id) : scope < forest.scopes.length := by
  obtain ⟨found, hfound, -⟩ := Option.bind_eq_some_iff.1 h
  exact (List.getElem?_eq_some_iff.1 hfound).1

@[simp] theorem length_added (forest : Forest) (scope : ScopeId) (name : String) :
    (forest.added scope name).scopes.length = forest.scopes.length := by
  simp [added]

theorem chain_eq_nil {scope : ScopeId} (h : ¬ scope < forest.scopes.length) :
    forest.chain scope = [] := by
  unfold chain
  rw [List.getElem?_eq_none (Nat.le_of_not_lt h)]
  rfl

end Forest

namespace Annals

/-- The annals tell what the forest is like. -/
structure Tell (annals : Annals) : Prop where
  opened : ∀ scope, annals.Opened scope ↔ scope < annals.forest.scopes.length
  chain : ∀ scope parent?, (scope, parent?) ∈ annals.opened →
    annals.forest.chain scope = scope :: (parent?.map annals.forest.chain).getD []
  /-- Parents are opened before what is opened inside them. -/
  older : ∀ inner outer, annals.Parent inner outer → outer < inner
  declared : ∀ scope name id,
    annals.forest.declared? scope name = some id ↔ (scope, name, id) ∈ annals.added
  given : ∀ scope name id, (scope, name, id) ∈ annals.added → id < annals.forest.symbols.length

/-- The annals once the scope has got a name it did not have. -/
def gaining (annals : Annals) (scope : ScopeId) (name : String) : Annals where
  forest := annals.forest.added scope name
  opened := annals.opened
  added := annals.added ++ [(scope, name, annals.forest.symbols.length)]

/-- Annals of any number of deeds, in any order. -/
inductive Grown : Annals → Prop
  | start : Grown {}
  | next {annals : Annals} (hgrown : Grown annals) (deed : Deed) (huses : deed.Uses annals) :
    Grown (deed.run annals)

variable {annals : Annals} {scope inner outer : ScopeId} {name : String} {id : SymbolId}

theorem Tell.declared?_eq_none (h : annals.Tell) :
    annals.forest.declared? scope name = none ↔ ¬ annals.Has scope name := by
  rw [← Option.not_isSome_iff_eq_none, Option.isSome_iff_exists]
  simp only [h.declared, Has]

theorem Tell.add_of_has (h : annals.Tell) (hhas : annals.Has scope name) (location : Location) :
    annals.forest.add scope name location = .error (.duplicate location name) := by
  obtain ⟨id, hid⟩ := hhas
  unfold Forest.add
  rw [Forest.add?_eq, (h.declared scope name id).2 hid]
  rfl

theorem Tell.add_of_not_has (h : annals.Tell) (hnot : ¬ annals.Has scope name)
    (location : Location) : annals.forest.add scope name location =
      .ok (annals.forest.symbols.length, annals.forest.added scope name) := by
  unfold Forest.add
  rw [Forest.add?_eq, h.declared?_eq_none.2 hnot]
  rfl

theorem tell_start : Tell {} := by
  constructor
  case opened => simp [Opened]
  case chain => exact fun _ _ h => absurd h List.not_mem_nil
  case older => exact fun _ _ h => absurd h List.not_mem_nil
  case declared => exact fun _ _ _ => ⟨nofun, fun h => absurd h List.not_mem_nil⟩
  case given => exact fun _ _ _ h => absurd h List.not_mem_nil

theorem Tell.lt_of_mem (h : annals.Tell) {parent? : Option ScopeId}
    (hmem : (scope, parent?) ∈ annals.opened) : scope < annals.forest.scopes.length :=
  (h.opened scope).1 ⟨parent?, hmem⟩

/-- A deed that keeps the chains of the scopes there are keeps what is told of them. -/
theorem Tell.chain_of_kept (h : annals.Tell) {forest : Forest}
    (hkept : ∀ id < annals.forest.scopes.length, forest.chain id = annals.forest.chain id)
    {parent? : Option ScopeId} (hmem : (scope, parent?) ∈ annals.opened) :
    forest.chain scope = scope :: (parent?.map forest.chain).getD [] := by
  have hscope := h.lt_of_mem hmem
  rw [hkept scope hscope, h.chain scope parent? hmem]
  cases parent? with
  | none => rfl
  | some parent =>
    have hparent := Nat.lt_trans (h.older scope parent hmem) hscope
    exact congrArg (scope :: ·) (hkept parent hparent).symm

theorem Tell.openScope (h : annals.Tell) {parent? : Option ScopeId}
    (huses : (Deed.openScope parent?).Uses annals) :
    ((Deed.openScope parent?).run annals).Tell := by
  have hkept : ∀ id < annals.forest.scopes.length,
      (annals.forest.openScope parent?).2.chain id = annals.forest.chain id :=
    fun id hid => Forest.chain_openScope_lt _ _ hid
  have hparent : ∀ parent ∈ parent?, parent < annals.forest.scopes.length :=
    fun parent hmem => (h.opened parent).1 (huses parent hmem)
  have hlength : (annals.forest.openScope parent?).2.scopes.length =
      annals.forest.scopes.length + 1 := by
    simp [Forest.openScope]
  have hmem : ∀ scope other?, (scope, other?) ∈ ((Deed.openScope parent?).run annals).opened ↔
      (scope, other?) ∈ annals.opened ∨ scope = annals.forest.scopes.length ∧ other? = parent? := by
    intro scope other?
    simp [Deed.run, Forest.openScope]
  constructor
  case opened =>
    intro scope
    rw [Deed.forest_openScope, hlength, Nat.lt_succ_iff_lt_or_eq, ← h.opened]
    simp only [Opened, hmem, exists_or, exists_and_left, exists_eq, and_true]
  case chain =>
    intro scope other? hother
    rcases (hmem scope other?).1 hother with hold | ⟨rfl, rfl⟩
    · exact h.chain_of_kept hkept hold
    · have hnew : (annals.forest.openScope other?).2.chain annals.forest.scopes.length =
          annals.forest.scopes.length :: (other?.map annals.forest.chain).getD [] := by
        simp [Forest.openScope, Forest.chain]
      refine hnew.trans ?_
      cases other? with
      | none => rfl
      | some parent => exact congrArg (_ :: ·) (hkept parent (hparent parent rfl)).symm
  case older =>
    intro inner outer hinner
    rcases (hmem inner (some outer)).1 hinner with hold | ⟨rfl, hsame⟩
    · exact h.older inner outer hold
    · exact hparent outer hsame.symm
  case declared =>
    intro scope name id
    rw [Deed.forest_openScope, Forest.declared?_openScope]
    exact h.declared scope name id
  case given => exact h.given

theorem Tell.declared?_gaining (h : annals.Tell) (hscope : annals.Opened scope)
    (hnot : ¬ annals.Has scope name) (other : ScopeId) (word : String) :
    (annals.gaining scope name).forest.declared? other word =
      if other = scope ∧ word = name then some annals.forest.symbols.length
      else annals.forest.declared? other word :=
  Forest.declared?_added ((h.opened scope).1 hscope) (h.declared?_eq_none.2 hnot) other word

theorem Tell.gaining (h : annals.Tell) (hscope : annals.Opened scope)
    (hnot : ¬ annals.Has scope name) : (annals.gaining scope name).Tell := by
  constructor
  case opened =>
    intro other
    rw [Annals.gaining, Forest.length_added]
    exact h.opened other
  case chain =>
    intro other parent? hother
    exact h.chain_of_kept (fun id _ => Forest.chain_added _ _ _ id) hother
  case older => exact h.older
  case declared =>
    intro other word id
    rw [h.declared?_gaining hscope hnot, Annals.gaining, List.mem_append, List.mem_singleton,
      ← h.declared]
    split
    next hsame =>
      obtain ⟨rfl, rfl⟩ := hsame
      rw [h.declared?_eq_none.2 hnot]
      simp [eq_comm]
    next hother =>
      have hne : (other, word, id) ≠ (scope, name, annals.forest.symbols.length) := by
        intro heq
        exact hother ⟨congrArg Prod.fst heq, congrArg (·.2.1) heq⟩
      exact (or_iff_left hne).symm
  case given =>
    intro other word id hid
    have hlength : (annals.gaining scope name).forest.symbols.length =
        annals.forest.symbols.length + 1 := by
      simp [Annals.gaining, Forest.added]
    rw [hlength]
    rcases List.mem_append.1 hid with hold | hnew
    · exact Nat.lt_succ_of_lt (h.given other word id hold)
    · obtain rfl : id = annals.forest.symbols.length :=
        congrArg (·.2.2) (List.mem_singleton.1 hnew)
      exact Nat.lt_succ_self _

theorem Tell.run_add_of_has (h : annals.Tell) (hhas : annals.Has scope name)
    (location : Location) : (Deed.add scope name location).run annals = annals := by
  rw [Deed.run, h.add_of_has hhas]

theorem Tell.run_add_of_not_has (h : annals.Tell) (hnot : ¬ annals.Has scope name)
    (location : Location) :
    (Deed.add scope name location).run annals = annals.gaining scope name := by
  rw [Deed.run, h.add_of_not_has hnot]
  rfl

theorem Tell.add (h : annals.Tell) {location : Location}
    (huses : (Deed.add scope name location).Uses annals) :
    ((Deed.add scope name location).run annals).Tell := by
  by_cases hhas : annals.Has scope name
  · rw [h.run_add_of_has hhas]
    exact h
  · rw [h.run_add_of_not_has hhas]
    exact h.gaining huses hhas

theorem Grown.tell (h : annals.Grown) : annals.Tell := by
  induction h with
  | start => exact tell_start
  | next _ deed huses ih =>
    cases deed with
    | openScope parent? => exact ih.openScope huses
    | add scope name location => exact ih.add huses

theorem Tell.find?_eq (h : annals.Tell) {parent? : Option ScopeId}
    (hmem : (scope, parent?) ∈ annals.opened) (name : String) :
    annals.forest.find? scope name = (annals.forest.declared? scope name).or
      (parent?.bind fun parent => annals.forest.find? parent name) := by
  unfold Forest.find?
  rw [h.chain scope parent? hmem, List.findSome?_cons]
  cases annals.forest.declared? scope name with
  | some id => rfl
  | none =>
    cases parent? with
    | none => rfl
    | some parent => rfl

theorem Tell.find?_of_not_opened (h : annals.Tell) (hscope : ¬ annals.Opened scope)
    (name : String) : annals.forest.find? scope name = none := by
  rw [h.opened] at hscope
  unfold Forest.find?
  rw [Forest.chain_eq_nil hscope]
  rfl

theorem Tell.nearest_of_find? (h : annals.Tell)
    (hfind : annals.forest.find? scope name = some id) : annals.Nearest name scope id := by
  induction scope using Nat.strong_induction_on with
  | _ scope ih =>
    by_cases hopened : annals.Opened scope
    case neg =>
      rw [h.find?_of_not_opened hopened] at hfind
      cases hfind
    obtain ⟨parent?, hmem⟩ := hopened
    rw [h.find?_eq hmem] at hfind
    cases hdeclared : annals.forest.declared? scope name with
    | some found =>
      rw [hdeclared] at hfind
      obtain rfl := Option.some.inj hfind
      exact .here ((h.declared scope name _).1 hdeclared)
    | none =>
      rw [hdeclared, Option.none_or] at hfind
      obtain ⟨parent, rfl, hparent⟩ := Option.bind_eq_some_iff.1 hfind
      exact .outward (h.declared?_eq_none.1 hdeclared) hmem
        (ih parent (h.older scope parent hmem) hparent)

theorem Tell.find?_of_nearest (h : annals.Tell) (hnearest : annals.Nearest name scope id) :
    annals.forest.find? scope name = some id := by
  induction hnearest with
  | here hadded =>
    have hdeclared := (h.declared _ _ _).2 hadded
    obtain ⟨parent?, hmem⟩ := (h.opened _).2 (Forest.lt_of_declared? hdeclared)
    rw [h.find?_eq hmem, hdeclared]
    rfl
  | outward hnot hparent _ ih =>
    rw [h.find?_eq hparent, h.declared?_eq_none.2 hnot]
    exact ih

/-- Wherever the name is met on the way out, there is a nearest place where it is. -/
theorem exists_nearest (hwithin : annals.Within scope outer) (hhas : annals.Has outer name) :
    ∃ id, annals.Nearest name scope id := by
  induction hwithin using Relation.ReflTransGen.head_induction_on with
  | refl =>
    obtain ⟨id, hid⟩ := hhas
    exact ⟨id, .here hid⟩
  | @head inner _ hparent _ ih =>
    by_cases hinner : annals.Has inner name
    · obtain ⟨id, hid⟩ := hinner
      exact ⟨id, .here hid⟩
    · obtain ⟨id, hid⟩ := ih
      exact ⟨id, .outward hinner hparent hid⟩

theorem Nearest.exists_within (h : annals.Nearest name scope id) :
    ∃ outer, annals.Within scope outer ∧ annals.Has outer name := by
  induction h with
  | here hadded => exact ⟨_, .refl, _, hadded⟩
  | outward _ hparent _ ih =>
    obtain ⟨outer, hwithin, hhas⟩ := ih
    exact ⟨outer, .head hparent hwithin, hhas⟩

theorem Tell.find?_eq_none (h : annals.Tell) :
    annals.forest.find? scope name = none ↔
      ∀ outer, annals.Within scope outer → ¬ annals.Has outer name := by
  constructor
  · intro hnone outer hwithin hhas
    obtain ⟨id, hnearest⟩ := exists_nearest hwithin hhas
    rw [h.find?_of_nearest hnearest] at hnone
    cases hnone
  · intro hnot
    refine Option.eq_none_iff_forall_ne_some.2 fun id hfind => ?_
    obtain ⟨outer, hwithin, hhas⟩ := (h.nearest_of_find? hfind).exists_within
    exact hnot outer hwithin hhas

theorem Tell.opened_of_parent (h : annals.Tell) (hparent : annals.Parent inner outer) :
    annals.Opened outer :=
  (h.opened outer).2 (Nat.lt_trans (h.older inner outer hparent) (h.lt_of_mem hparent))

/-- A scope has the parent it was opened with. -/
theorem Tell.parent?_eq (h : annals.Tell) {parent? : Option ScopeId}
    (hmem : (scope, parent?) ∈ annals.opened) : annals.forest.parent? scope = parent? := by
  unfold Forest.parent?
  rw [h.chain scope parent? hmem]
  cases parent? with
  | none => rfl
  | some parent =>
    obtain ⟨further?, hfurther⟩ := h.opened_of_parent hmem
    rw [Option.map_some, Option.getD_some, h.chain parent further? hfurther]
    rfl

theorem Tell.le_of_within (h : annals.Tell) (hwithin : annals.Within inner outer) :
    outer ≤ inner := by
  induction hwithin with
  | refl => exact Nat.le_refl _
  | tail _ hparent ih => exact Nat.le_trans (Nat.le_of_lt (h.older _ _ hparent)) ih

theorem Tell.mem_chain_iff (h : annals.Tell) (hopened : annals.Opened scope) :
    outer ∈ annals.forest.chain scope ↔ annals.Within scope outer := by
  induction scope using Nat.strong_induction_on with
  | _ scope ih =>
    obtain ⟨parent?, hmem⟩ := hopened
    rw [h.chain scope parent? hmem, List.mem_cons]
    constructor
    · rintro (rfl | hrest)
      · exact .refl
      · cases parent? with
        | none => cases hrest
        | some parent =>
          have hparent := ih parent (h.older scope parent hmem) (h.opened_of_parent hmem)
          exact .head hmem (hparent.1 hrest)
    · intro hwithin
      rcases hwithin.cases_head with rfl | ⟨parent, hparent, hrest⟩
      · exact .inl rfl
      · obtain rfl := (h.parent?_eq hmem).symm.trans (h.parent?_eq hparent)
        exact .inr ((ih parent (h.older scope parent hmem) (h.opened_of_parent hmem)).2 hrest)

theorem Tell.mem_tail_chain_iff (h : annals.Tell) (hopened : annals.Opened scope) :
    outer ∈ (annals.forest.chain scope).tail ↔ annals.Above scope outer := by
  obtain ⟨parent?, hmem⟩ := hopened
  rw [h.chain scope parent? hmem, List.tail_cons, Above, Relation.TransGen.head'_iff]
  constructor
  · intro hrest
    cases parent? with
    | none => cases hrest
    | some parent => exact ⟨parent, hmem, (h.mem_chain_iff (h.opened_of_parent hmem)).1 hrest⟩
  · rintro ⟨parent, hparent, hwithin⟩
    obtain rfl := (h.parent?_eq hmem).symm.trans (h.parent?_eq hparent)
    exact (h.mem_chain_iff (h.opened_of_parent hmem)).2 hwithin

theorem Tell.nodup_chain (h : annals.Tell) (hopened : annals.Opened scope) :
    (annals.forest.chain scope).Nodup := by
  induction scope using Nat.strong_induction_on with
  | _ scope ih =>
    obtain ⟨parent?, hmem⟩ := hopened
    rw [h.chain scope parent? hmem]
    cases parent? with
    | none => exact List.nodup_singleton scope
    | some parent =>
      have holder := h.older scope parent hmem
      have hparent := h.opened_of_parent hmem
      refine List.nodup_cons.2 ⟨fun hagain => ?_, ih parent holder hparent⟩
      exact Nat.not_le_of_lt holder (h.le_of_within ((h.mem_chain_iff hparent).1 hagain))

theorem Tell.depth_eq (h : annals.Tell) (hopened : annals.Opened scope) :
    annals.forest.depth scope = {outer | annals.Above scope outer}.ncard := by
  have hset : {outer | annals.Above scope outer} =
      ((annals.forest.chain scope).tail.toFinset : Set ScopeId) := by
    ext outer
    rw [Finset.mem_coe, List.mem_toFinset, h.mem_tail_chain_iff hopened]
    rfl
  rw [hset, Set.ncard_coe_finset, List.toFinset_card_of_nodup (h.nodup_chain hopened).tail,
    List.length_tail]
  rfl

theorem Exposed.nearest (h : annals.Exposed name scope inner) :
    (annals.gaining scope name).Nearest name inner annals.forest.symbols.length := by
  have hnew : (scope, name, annals.forest.symbols.length) ∈ (annals.gaining scope name).added :=
    List.mem_append_right _ (List.mem_singleton.2 rfl)
  induction h with
  | here => exact .here hnew
  | @inward inner outer hnot hparent _ ih =>
    by_cases hinner : inner = scope
    · rw [hinner]
      exact .here hnew
    · refine .outward ?_ hparent ih
      rintro ⟨id, hid⟩
      rcases List.mem_append.1 hid with hold | hlast
      · exact hnot ⟨id, hold⟩
      · exact hinner (congrArg Prod.fst (List.mem_singleton.1 hlast))

/-- From anywhere else, and for every other name, nothing has changed. -/
theorem Tell.find?_gaining (h : annals.Tell) (hscope : annals.Opened scope)
    (hnot : ¬ annals.Has scope name) {word : String}
    (hhidden : ¬ (word = name ∧ annals.Exposed name scope inner)) :
    (annals.gaining scope name).forest.find? inner word = annals.forest.find? inner word := by
  have hlater := h.gaining hscope hnot
  induction inner using Nat.strong_induction_on with
  | _ inner ih =>
    by_cases hopened : annals.Opened inner
    case neg =>
      rw [h.find?_of_not_opened hopened]
      exact hlater.find?_of_not_opened hopened word
    obtain ⟨parent?, hmem⟩ := hopened
    have hsame : (annals.gaining scope name).forest.declared? inner word =
        annals.forest.declared? inner word := by
      rw [h.declared?_gaining hscope hnot, if_neg]
      rintro ⟨rfl, rfl⟩
      exact hhidden ⟨rfl, .here⟩
    rw [hlater.find?_eq hmem, h.find?_eq hmem, hsame]
    cases hdeclared : annals.forest.declared? inner word with
    | some id => rfl
    | none =>
      cases parent? with
      | none => rfl
      | some parent =>
        refine ih parent (h.older inner parent hmem) ?_
        rintro ⟨rfl, hexposed⟩
        exact hhidden ⟨rfl, .inward (h.declared?_eq_none.1 hdeclared) hmem hexposed⟩

/-- The name is looked up from the scope as it should be. -/
structure Finds (annals : Annals) (scope : ScopeId) (name : String) : Prop where
  nearest : ∀ id, annals.forest.find? scope name = some id ↔ annals.Nearest name scope id
  nowhere : annals.forest.find? scope name = none ↔
    ∀ outer, annals.Within scope outer → ¬ annals.Has outer name
  found : ∀ location id, annals.forest.find scope name location = .ok id ↔
    annals.forest.find? scope name = some id
  unresolved : ∀ location, annals.forest.find scope name location =
    .error (.unresolved location name) ↔ annals.forest.find? scope name = none

/-- The name is added to the scope as it should be: never twice, and then it is seen from
wherever nothing nearer hides it, and nothing else is changed. -/
structure Adds (annals : Annals) (scope : ScopeId) (name : String) (location : Location) :
    Prop where
  duplicate : annals.Has scope name →
    annals.forest.add scope name location = .error (.duplicate location name) ∧
      ∀ inner word, ((Deed.add scope name location).run annals).forest.find? inner word =
        annals.forest.find? inner word
  new : ¬ annals.Has scope name → ∃ id next,
    annals.forest.add scope name location = .ok (id, next) ∧
      (∀ entry ∈ annals.added, entry.2.2 ≠ id) ∧
      (∀ inner, annals.Exposed name scope inner → next.find? inner name = some id) ∧
      ∀ inner word, ¬ (word = name ∧ annals.Exposed name scope inner) →
        next.find? inner word = annals.forest.find? inner word

theorem Tell.finds (h : annals.Tell) (scope : ScopeId) (name : String) :
    annals.Finds scope name := by
  constructor
  case nearest => exact fun _ => ⟨h.nearest_of_find?, h.find?_of_nearest⟩
  case nowhere => exact h.find?_eq_none
  case found =>
    intro location id
    unfold Forest.find
    cases annals.forest.find? scope name <;> simp
  case unresolved =>
    intro location
    unfold Forest.find
    cases annals.forest.find? scope name <;> simp

theorem Tell.adds (h : annals.Tell) (hscope : annals.Opened scope) (name : String)
    (location : Location) : annals.Adds scope name location := by
  constructor
  case duplicate =>
    intro hhas
    refine ⟨h.add_of_has hhas location, fun inner word => ?_⟩
    rw [h.run_add_of_has hhas]
  case new =>
    intro hnot
    refine ⟨_, _, h.add_of_not_has hnot location, ?_, ?_, ?_⟩
    · intro entry hentry
      exact Nat.ne_of_lt (h.given _ _ _ hentry)
    · intro inner hexposed
      exact (h.gaining hscope hnot).find?_of_nearest hexposed.nearest
    · intro inner word hhidden
      exact h.find?_gaining hscope hnot hhidden

/-- However scopes were opened and names added: a lookup finds the symbol of the nearest scope
that has the name, a name is added once to a scope and changes no more than the lookups that
now meet it first, and the depth of a scope is the number of its ancestors. -/
theorem grown_finds_nearest (hgrown : annals.Grown) (hscope : annals.Opened scope) :
    (∀ name, annals.Finds scope name) ∧ (∀ name location, annals.Adds scope name location) ∧
      annals.forest.depth scope = {outer | annals.Above scope outer}.ncard := by
  have htell := hgrown.tell
  exact ⟨htell.finds scope, htell.adds hscope, htell.depth_eq hscope⟩

/-- The outer scope gets a name when a scope stands inside it already, and that one gets the
same name when it has a scope inside. -/
def lateAdditions : Annals :=
  [Deed.openScope none, .openScope (some 0), .add 0 "X" (.top "s"), .openScope (some 1),
    .add 1 "X" (.top "s"), .add 0 "Y" (.top "s")].foldl Deed.run {}

theorem lateAdditions_found :
    lateAdditions.Grown ∧ lateAdditions.Opened 2 ∧ lateAdditions.Nearest "X" 2 1 ∧
      lateAdditions.Nearest "Y" 2 2 ∧ lateAdditions.forest.find? 0 "X" = some 0 ∧
      {outer | lateAdditions.Above 2 outer}.ncard = 2 := by
  have hgrown : lateAdditions.Grown := by
    simp only [lateAdditions, List.foldl_cons, List.foldl_nil]
    refine .next (.next (.next (.next (.next (.next .start _ ?_) _ ?_) _ ?_) _ ?_) _ ?_) _ ?_
    all_goals decide
  have hopened : lateAdditions.Opened 2 := ⟨some 1, by decide⟩
  obtain ⟨hfinds, -, hdepth⟩ := grown_finds_nearest hgrown hopened
  exact ⟨hgrown, hopened, ((hfinds "X").nearest 1).1 (by decide),
    ((hfinds "Y").nearest 2).1 (by decide), by decide, hdepth.symm.trans (by decide)⟩

end Annals

end BlockLang.Names
