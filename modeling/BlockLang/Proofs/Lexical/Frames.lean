import BlockLang.Proofs.Lexical.Regions
import Mathlib.Data.List.Nodup

/-! An environment that holds, for every scope around a position, what that scope has declared
before the position. In it a name stands for what it resolves to. -/

namespace BlockLang.Lexical

open Code BlockLang.Core

variable {marks : List Mark} {position : Nat} {region : Region}
  {frame : List (String × Entity)} {name : String} {entity : Entity}

/-- The frame holds what the scope has declared before a position. -/
structure Frame (marks : List Mark) (position : Nat) (region : Region)
    (frame : List (String × Entity)) : Prop where
  once : (frame.map Prod.fst).Nodup
  declared : ∀ name entity, (name, entity) ∈ frame →
    ∃ earlier < position, Declares marks region name earlier ∧ Created marks earlier entity
  known : ∀ name, ∀ earlier < position, Declares marks region name earlier →
    ∃ entity, (name, entity) ∈ frame ∧ Created marks earlier entity

theorem mem_of_lookup (h : frame.lookup name = some entity) : (name, entity) ∈ frame := by
  obtain ⟨before, after, rfl, -⟩ := List.lookup_eq_some_iff.1 h
  simp

theorem lookup_of_mem (honce : (frame.map Prod.fst).Nodup) (h : (name, entity) ∈ frame) :
    frame.lookup name = some entity := by
  obtain ⟨before, after, rfl⟩ := List.append_of_mem h
  refine List.lookup_eq_some_iff.2 ⟨before, after, rfl, ?_⟩
  intro entry hentry
  rw [List.map_append, List.map_cons, List.nodup_middle, List.nodup_cons] at honce
  rw [bne_iff_ne]
  rintro rfl
  exact honce.1 (List.mem_append_left _ (List.mem_map.2 ⟨entry, hentry, rfl⟩))

namespace Frame

theorem of_lookup (h : Frame marks position region frame) (hlookup : frame.lookup name = some entity) :
    ∃ earlier < position, Declares marks region name earlier ∧ Created marks earlier entity :=
  h.declared name entity (mem_of_lookup hlookup)

theorem lookup_eq (h : Frame marks position region frame) {earlier : Nat}
    (hearlier : earlier < position) (hdeclares : Declares marks region name earlier) :
    ∃ entity, frame.lookup name = some entity ∧ Created marks earlier entity := by
  obtain ⟨entity, hmem, hcreated⟩ := h.known name earlier hearlier hdeclares
  exact ⟨entity, lookup_of_mem h.once hmem, hcreated⟩

theorem lookup_eq_none (h : Frame marks position region frame) :
    frame.lookup name = none ↔ ∀ earlier < position, ¬Declares marks region name earlier := by
  constructor
  · intro hnone earlier hearlier hdeclares
    obtain ⟨entity, hsome, -⟩ := h.lookup_eq hearlier hdeclares
    rw [hnone] at hsome
    cases hsome
  · intro hnone
    cases hlookup : frame.lookup name with
    | none => rfl
    | some entity =>
      obtain ⟨earlier, hearlier, hdeclares, -⟩ := h.of_lookup hlookup
      exact (hnone earlier hearlier hdeclares).elim

/-- A scope that has just been opened has declared nothing. -/
theorem empty (hopened : position < region.opened) : Frame marks (position + 1) region [] := by
  refine ⟨List.nodup_nil, by simp, ?_⟩
  intro name earlier hearlier hdeclares
  have hbounds := regionsAt_bounds earlier region (List.mem_of_mem_head? hdeclares.region)
  omega

theorem mono (h : Frame marks position region frame)
    (hquiet : ∀ name, ¬Declares marks region name position) :
    Frame marks (position + 1) region frame := by
  refine ⟨h.once, ?_, ?_⟩
  · intro name entity hmem
    obtain ⟨earlier, hearlier, hrest⟩ := h.declared name entity hmem
    exact ⟨earlier, Nat.lt_succ_of_lt hearlier, hrest⟩
  · intro name earlier hearlier hdeclares
    rcases Nat.lt_succ_iff_lt_or_eq.1 hearlier with hlt | rfl
    · exact h.known name earlier hlt hdeclares
    · exact (hquiet name hdeclares).elim

theorem declare (h : Frame marks position region frame)
    (hdeclares : Declares marks region name position) (hcreated : Created marks position entity)
    (hnew : frame.lookup name = none) :
    Frame marks (position + 1) region (frame ++ [(name, entity)]) := by
  refine ⟨?_, ?_, ?_⟩
  · rw [List.map_append, List.map_singleton, List.nodup_append]
    refine ⟨h.once, List.nodup_singleton _, ?_⟩
    rintro other hother _ (_ | ⟨_, ⟨⟩⟩) rfl
    obtain ⟨entry, hentry, rfl⟩ := List.mem_map.1 hother
    have hne := List.lookup_eq_none_iff.1 hnew entry hentry
    simp at hne
  · intro other found hmem
    rcases List.mem_append.1 hmem with hmem | hmem
    · obtain ⟨earlier, hearlier, hrest⟩ := h.declared other found hmem
      exact ⟨earlier, Nat.lt_succ_of_lt hearlier, hrest⟩
    · cases List.mem_singleton.1 hmem
      exact ⟨position, Nat.lt_succ_self _, hdeclares, hcreated⟩
  · intro other earlier hearlier hother
    rcases Nat.lt_succ_iff_lt_or_eq.1 hearlier with hlt | rfl
    · obtain ⟨found, hmem, hfound⟩ := h.known other earlier hlt hother
      exact ⟨found, List.mem_append_left _ hmem, hfound⟩
    · cases hdeclares.mark.symm.trans hother.mark
      exact ⟨entity, by simp, hcreated⟩

end Frame

/-- The frames hold what the scopes around a position have declared. -/
abbrev Frames (marks : List Mark) (position : Nat) (regions : List Region) (env : Env) : Prop :=
  List.Forall₂ (Frame marks position) regions env

namespace Frames

variable {regions : List Region} {env : Env}

theorem of_find? (h : Frames marks position regions env) (hfind : env.find? name = some entity) :
    ∃ inner region outer earlier, regions = inner ++ region :: outer ∧ earlier < position ∧
      Declares marks region name earlier ∧ Created marks earlier entity ∧
      ∀ other ∈ inner, ∀ before < position, ¬Declares marks other name before := by
  induction h with
  | nil => cases hfind
  | @cons region frame regions env hframe _ ih =>
    unfold Env.find? at hfind
    rw [List.findSome?_cons] at hfind
    cases hlookup : frame.lookup name with
    | some found =>
      rw [hlookup] at hfind
      cases hfind
      obtain ⟨earlier, hearlier, hdeclares, hcreated⟩ := hframe.of_lookup hlookup
      exact ⟨[], region, regions, earlier, rfl, hearlier, hdeclares, hcreated, by simp⟩
    | none =>
      rw [hlookup] at hfind
      obtain ⟨inner, found, outer, earlier, rfl, hearlier, hdeclares, hcreated, hinner⟩ := ih hfind
      refine ⟨region :: inner, found, outer, earlier, rfl, hearlier, hdeclares, hcreated, ?_⟩
      rintro other (_ | ⟨_, hother⟩)
      · exact hframe.lookup_eq_none.1 hlookup
      · exact hinner other hother

theorem find?_eq (h : Frames marks position regions env) {inner outer : List Region} {earlier : Nat}
    (hregions : regions = inner ++ region :: outer) (hearlier : earlier < position)
    (hdeclares : Declares marks region name earlier)
    (hinner : ∀ other ∈ inner, ∀ before < position, ¬Declares marks other name before) :
    ∃ entity, env.find? name = some entity ∧ Created marks earlier entity := by
  induction h generalizing inner with
  | nil => simp at hregions
  | @cons first frame regions env hframe _ ih =>
    unfold Env.find?
    rw [List.findSome?_cons]
    cases inner with
    | nil =>
      obtain ⟨rfl, rfl⟩ := List.cons.inj hregions
      obtain ⟨entity, hlookup, hcreated⟩ := hframe.lookup_eq hearlier hdeclares
      rw [hlookup]
      exact ⟨entity, rfl, hcreated⟩
    | cons other inner =>
      obtain ⟨rfl, rfl⟩ := List.cons.inj hregions
      rw [hframe.lookup_eq_none.2 (hinner first List.mem_cons_self)]
      exact ih rfl fun other hother => hinner other (List.mem_cons_of_mem _ hother)

theorem mono (h : Frames marks position regions env)
    (hquiet : ∀ region ∈ regions, ∀ name, ¬Declares marks region name position) :
    Frames marks (position + 1) regions env := by
  induction h with
  | nil => exact .nil
  | cons hframe _ ih =>
    exact .cons (hframe.mono (hquiet _ List.mem_cons_self))
      (ih fun region hregion => hquiet region (List.mem_cons_of_mem _ hregion))

theorem quiet (h : Frames marks position regions env) {mark : Mark}
    (hmark : marks[position]? = some mark) (hquiet : mark.declared? = none) :
    Frames marks (position + 1) regions env := by
  refine h.mono fun region _ name hdeclares => ?_
  have hdeclared := hdeclares.mark
  rw [hmark, Option.bind_some, hquiet] at hdeclared
  cases hdeclared

theorem tail (h : Frames marks position regions env) :
    Frames marks position regions.tail env.tail := by
  cases h with
  | nil => exact .nil
  | cons _ hframes => exact hframes

/-- A declaration belongs to the innermost scope, and to no other one. -/
theorem declare (h : Frames marks position (regionsAt marks position) env) {declared : Env}
    (hmark : marks[position]?.bind Mark.declared? = some name)
    (hcreated : Created marks position entity)
    (hdeclared : env.declare? name entity = some declared) :
    Frames marks (position + 1) (regionsAt marks position) declared := by
  have hordered := @regionsAt_ordered marks position
  generalize hregions : regionsAt marks position = regions at h hordered ⊢
  cases h with
  | nil => cases hdeclared
  | @cons first frame outer env hframe hframes =>
    have hhead : (regionsAt marks position).head? = some first := by rw [hregions, List.head?_cons]
    rw [Env.declare?_cons] at hdeclared
    split at hdeclared
    · cases hdeclared
    · next hnew =>
      cases hdeclared
      refine .cons (hframe.declare ⟨hmark, hhead⟩ hcreated (Option.not_isSome_iff_eq_none.1 hnew))
        (mono hframes fun region hregion other hother => ?_)
      have hsame : region = first := Option.some.inj (hother.region.symm.trans hhead)
      have hlater := (List.pairwise_cons.1 hordered).1 region hregion
      rw [hsame] at hlater
      exact Nat.lt_irrefl _ hlater

theorem fresh_of_declare? (h : Frames marks position regions env) {declared : Env}
    (hdeclared : env.declare? name entity = some declared) (hhead : regions.head? = some region) :
    ∀ earlier < position, ¬Declares marks region name earlier := by
  cases h with
  | nil => cases hdeclared
  | cons hframe _ =>
    cases hhead
    rw [Env.declare?_cons] at hdeclared
    split at hdeclared
    · cases hdeclared
    · next hnew => exact hframe.lookup_eq_none.1 (Option.not_isSome_iff_eq_none.1 hnew)

theorem declare?_of_fresh (h : Frames marks position regions env) (entity : Entity)
    (hhead : regions.head? = some region)
    (hfresh : ∀ earlier < position, ¬Declares marks region name earlier) :
    ∃ declared, env.declare? name entity = some declared := by
  cases h with
  | nil => cases hhead
  | cons hframe _ =>
    cases hhead
    rw [Env.declare?_cons, hframe.lookup_eq_none.2 hfresh]
    exact ⟨_, rfl⟩

theorem resolves (h : Frames marks position (regionsAt marks position) env)
    (hfind : env.find? name = some entity) :
    ∃ origin, Resolves marks position name origin ∧ Created marks origin entity := by
  obtain ⟨inner, region, outer, origin, hregions, horigin, hdeclares, hcreated, hinner⟩ :=
    h.of_find? hfind
  exact ⟨origin, ⟨horigin, inner, region, outer, hregions, hdeclares, hinner⟩, hcreated⟩

theorem resolves_literal (h : Frames marks position (regionsAt marks position) env) {text : String}
    (hliteral : env.literal? name = some text) :
    ∃ origin, Resolves marks position name origin ∧ Created marks origin (.literal text) := by
  unfold Env.literal? at hliteral
  split at hliteral
  · next hfind =>
    cases hliteral
    exact h.resolves hfind
  · cases hliteral

theorem resolves_cell (h : Frames marks position (regionsAt marks position) env)
    {id : Nat} {type : IntType} (hcell : env.cell? name = some (id, type)) :
    ∃ origin, Resolves marks position name origin ∧ Created marks origin (.cell id type) := by
  unfold Env.cell? at hcell
  split at hcell
  · next hfind =>
    cases hcell
    exact h.resolves hfind
  · cases hcell

theorem resolves_procedure (h : Frames marks position (regionsAt marks position) env) {id : Nat}
    (hprocedure : env.procedure? name = some id) :
    ∃ origin, Resolves marks position name origin ∧ Created marks origin (.procedure id) := by
  unfold Env.procedure? at hprocedure
  split at hprocedure
  · next hfind =>
    cases hprocedure
    exact h.resolves hfind
  · cases hprocedure

theorem resolves_value (h : Frames marks position (regionsAt marks position) env) {value : Expr}
    (hvalue : env.value? name = some value) :
    ∃ origin, Resolves marks position name origin ∧
      ((∃ id type, value = .cell id type ∧ Created marks origin (.cell id type)) ∨
        ∃ text number, value = .number number ∧ Numeral.read? text = some number ∧
          Created marks origin (.literal text)) := by
  unfold Env.value? at hvalue
  split at hvalue
  · next text hfind =>
    obtain ⟨number, hread, rfl⟩ := Option.map_eq_some_iff.1 hvalue
    obtain ⟨origin, hresolves, hcreated⟩ := h.resolves hfind
    exact ⟨origin, hresolves, .inr ⟨text, number, rfl, hread, hcreated⟩⟩
  · next id type hfind =>
    cases hvalue
    obtain ⟨origin, hresolves, hcreated⟩ := h.resolves hfind
    exact ⟨origin, hresolves, .inl ⟨id, type, rfl, hcreated⟩⟩
  · cases hvalue

theorem find?_of_resolves (h : Frames marks position (regionsAt marks position) env)
    {origin : Nat} (hresolves : Resolves marks position name origin) :
    ∃ entity, env.find? name = some entity ∧ Created marks origin entity := by
  obtain ⟨horigin, inner, region, outer, hregions, hdeclares, hinner⟩ := hresolves
  exact h.find?_eq hregions horigin hdeclares hinner

end Frames

end BlockLang.Lexical
