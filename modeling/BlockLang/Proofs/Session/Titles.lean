import BlockLang.Proofs.Session.Met

/-! A symbol has the name that it is entered under, in every session that can be met, and the
session stays in the file that it was started for. -/

namespace BlockLang

open Code Names BlockLang.Tree

namespace Session

/-- Names lead to the symbols of these names. -/
def Titled (session : Session) : Prop :=
  ∀ scope ∈ session.forest.scopes, ∀ entry ∈ scope.entries,
    session.forest.symbols[entry.2]?.map Symbol.name = some entry.1

/-- The file is kept, and so is what names lead to. -/
structure KeepsTitles (before after : Session) : Prop where
  file : after.location.file = before.location.file
  titled : before.Titled → after.Titled

variable {before after : Session}

instance : IsPreorder Session KeepsTitles where
  refl _ := ⟨rfl, fun h => h⟩
  trans _ _ _ h h' := ⟨h'.file.trans h.file, fun hfirst => h'.titled (h.titled hfirst)⟩

theorem keepsTitles_of_same (hfile : after.location.file = before.location.file)
    (hforest : after.forest = before.forest) : KeepsTitles before after := by
  refine ⟨hfile, fun h => ?_⟩
  unfold Titled
  rwa [hforest]

theorem Titled.withSymbol (h : before.Titled) {id : SymbolId} {found changed : Symbol}
    (hfound : before.forest.symbols[id]? = some found) (hname : changed.name = found.name) :
    (before.withSymbol id changed).Titled := by
  intro scope hscope entry hentry
  rw [← h scope hscope entry hentry]
  change (before.forest.symbols.set id changed)[entry.2]?.map Symbol.name = _
  rw [List.getElem?_set]
  split
  · next hsame =>
    have hid := (List.getElem?_eq_some_iff.1 hfound).1
    rw [← hsame, hfound, if_pos hid, Option.map_some, Option.map_some, hname]
  · rfl

theorem Titled.added (h : before.Titled) (name : String) : (before.added name).Titled := by
  intro scope hscope entry hentry
  change (before.forest.symbols ++ [{ name := name }])[entry.2]?.map Symbol.name = some entry.1
  obtain ⟨old, hold, hentries⟩ := Forest.mem_added hscope
  rcases hentries entry hentry with hbefore | rfl
  · have htitle := h old hold entry hbefore
    obtain ⟨symbol, hsymbol, -⟩ := Option.map_eq_some_iff.1 htitle
    rwa [List.getElem?_append_left (List.getElem?_eq_some_iff.1 hsymbol).1]
  · simp

theorem Titled.openScope (h : before.Titled) : before.entered.Titled := by
  intro scope hscope entry hentry
  rcases List.mem_append.1 hscope with hscope | hscope
  · exact h scope hscope entry hentry
  · rw [List.mem_singleton.1 hscope] at hentry
    cases hentry

end Session

namespace Compiler

open Session (KeepsTitles keepsTitles_of_same)

theorem titles_modify {change : Session → Session}
    (h : ∀ session, KeepsTitles session (change session)) : Moves KeepsTitles (modify change) := h

theorem titles_locate (place : Place) : Moves KeepsTitles (locate place) :=
  titles_modify fun _ => keepsTitles_of_same rfl rfl

theorem titles_tell (entry : Log.Entry) : Moves KeepsTitles (tell entry) :=
  titles_modify fun _ => keepsTitles_of_same rfl rfl

theorem titles_build {α : Type} (step : Build α) : Moves KeepsTitles (build step) := by
  intro session
  unfold Session.after build
  cases step session.builder <;> exact keepsTitles_of_same rfl rfl

theorem titles_moveTo (block : BlockRef) : Moves KeepsTitles (moveTo block) :=
  fun _ => keepsTitles_of_same rfl rfl

theorem titles_enterScope : Moves KeepsTitles enterScope :=
  fun _ => ⟨rfl, fun h => h.openScope⟩

theorem titles_leaveScope : Moves KeepsTitles leaveScope := by
  intro session
  unfold Session.after
  cases hparent : session.forest.parent? session.scope with
  | some scope =>
    rw [leaveScope_eq hparent]
    exact keepsTitles_of_same rfl rfl
  | none =>
    unfold leaveScope
    rw [get_bind, hparent]
    exact keepsTitles_of_same rfl rfl

theorem titles_add (name : String) : Moves KeepsTitles (add name) := by
  intro session
  unfold Session.after
  cases hname : session.forest.declared? session.scope name with
  | some id =>
    rw [add_eq_error hname]
    exact refl_of KeepsTitles session
  | none =>
    rw [add_eq_ok hname]
    exact ⟨rfl, fun h => h.added name⟩

theorem titles_update (id : SymbolId) {change : Symbol → Except Fault Symbol}
    (h : ∀ symbol changed, change symbol = .ok changed → changed.name = symbol.name) :
    Moves KeepsTitles (update id change) := by
  intro session
  rcases update_cases session id change with ⟨failure, hrun⟩ | ⟨found, changed, hfound, hchange, hrun⟩
  · rw [after_error hrun]
    exact refl_of KeepsTitles session
  · rw [after_ok hrun]
    exact ⟨rfl, fun htitled => htitled.withSymbol hfound (h found changed hchange)⟩

theorem titles_declare (id : SymbolId) (meaning : Meaning) :
    Moves KeepsTitles (declare id meaning) := by
  apply titles_update
  intro symbol changed h
  unfold Symbol.declare at h
  split at h <;> cases h
  rfl

theorem titles_setBlock (id : SymbolId) (block : BlockRef) :
    Moves KeepsTitles (update id fun symbol => symbol.setBlock block) := by
  apply titles_update
  intro symbol changed h
  obtain ⟨_, -, hset⟩ := Except.exists_of_bind_eq_ok h
  cases hset
  rfl

theorem titles_openProcedure (id : SymbolId) (path : String) (internal : Bool) :
    Moves KeepsTitles (openProcedure id path internal) := by
  refine (titles_build _).bind fun function => (titles_build _).bind fun entry => ?_
  refine (titles_declare id _).bind fun _ => Moves.bind (titles_modify fun session => ?_) fun _ => ?_
  · exact keepsTitles_of_same rfl rfl
  · exact (titles_moveTo entry).bind fun _ => moves_get.bind fun _ => titles_tell _

theorem titles_beginProcedure (id : SymbolId) : Moves KeepsTitles (beginProcedure id) := by
  rw [beginProcedure_eq]
  refine (moves_symbol id).bind fun found => moves_get.bind fun session => ?_
  split
  · exact (titles_setBlock _ _).bind fun _ => titles_openProcedure id _ _
  · exact titles_openProcedure id _ _

theorem titles_endProcedure : Moves KeepsTitles endProcedure := by
  refine moves_get.bind fun session => ?_
  split
  · exact moves_fail _
  · exact (moves_symbol _).bind fun _ => titles_tell _
  · refine Moves.bind (titles_modify fun session => keepsTitles_of_same rfl rfl) fun _ => ?_
    refine (moves_symbol _).bind fun _ => (titles_tell _).bind fun _ => ?_
    exact (moves_symbol _).bind fun _ => (moves_orFault _).bind fun place => titles_moveTo place.2

/-- Names lead to their symbols whatever step is taken. -/
theorem Primitive.keepsTitles {α : Type} {step : Compiler α} (h : Primitive step) :
    Moves KeepsTitles step := by
  cases h with
  | locate place => exact titles_locate place
  | tell entry => exact titles_tell entry
  | enterScope => exact titles_enterScope
  | leaveScope => exact titles_leaveScope
  | add name => exact titles_add name
  | declareLiteral id text =>
    exact (moves_symbol id).bind fun _ => (titles_tell _).bind fun _ => titles_declare id _
  | declareCell id htype =>
    refine (moves_symbol id).bind fun _ => moves_get.bind fun session => ?_
    refine (titles_build _).bind fun _ => (titles_build _).bind fun _ => (titles_tell _).bind fun _ => ?_
    exact (titles_declare id _).bind fun _ => moves_pure _
  | beginProcedure id => exact titles_beginProcedure id
  | endProcedure => exact titles_endProcedure
  | setCurrentBlock block =>
    exact moves_currentProcedure.bind fun id =>
      (titles_setBlock id block).bind fun _ => titles_moveTo block
  | appendBlock label =>
    exact moves_currentProcedure.bind fun id => (moves_symbol id).bind fun symbol =>
      (moves_orFault _).bind fun place => titles_build _
  | freshRegister type => exact titles_build _
  | emit instr => exact titles_build _

end Compiler

namespace Session.Reached

variable {file : String} {session : Session}

theorem keepsTitles (h : session.Reached file) : KeepsTitles (.start file) session := by
  induction h with
  | start => exact refl_of KeepsTitles _
  | step _ hstep ih => exact trans_of KeepsTitles ih (hstep.keepsTitles _)

theorem file_eq (h : session.Reached file) : session.location.file = file := h.keepsTitles.file

theorem titled (h : session.Reached file) : session.Titled := by
  apply h.keepsTitles.titled
  intro scope hscope entry hentry
  rw [List.mem_singleton.1 hscope] at hentry
  cases hentry

/-- A symbol that is found has the name it was looked for. -/
theorem name_eq (h : session.Reached file) {name : String} {id : SymbolId} {symbol : Symbol}
    (hid : session.forest.find? session.scope name = some id)
    (hsymbol : session.forest.symbols[id]? = some symbol) : symbol.name = name := by
  obtain ⟨scope, -, hdeclared⟩ := List.exists_of_findSome?_eq_some hid
  obtain ⟨found, hfound, hlookup⟩ := Option.bind_eq_some_iff.1 hdeclared
  obtain ⟨before, after, hentries, -⟩ := List.lookup_eq_some_iff.1 hlookup
  have htitle := h.titled found (List.mem_of_getElem? hfound) (name, id) (by simp [hentries])
  rw [hsymbol] at htitle
  exact Option.some.inj htitle

end Session.Reached

end BlockLang
