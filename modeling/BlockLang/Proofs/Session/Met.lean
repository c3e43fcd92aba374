import BlockLang.Proofs.Session.Reached

/-! The sessions that anyone can bring about who holds one, by steps in any order and with
any arguments. In each of them, what is open as a procedure is one. -/

namespace BlockLang

open Code Names

/-- Whatever the holder of a session can do to it. -/
inductive Compiler.Offered : {α : Type} → Compiler α → Prop
  | locate (place : Place) : Offered (locate place)
  | tell (entry : Log.Entry) : Offered (tell entry)
  | enterScope : Offered enterScope
  | leaveScope : Offered leaveScope
  | add (name : String) : Offered (add name)
  | declare (id : SymbolId) (meaning : Meaning) : Offered (declare id meaning)
  | declareLiteral (id : SymbolId) (text : String) : Offered (declareLiteral id text)
  | declareCell (id : SymbolId) (type : IntType) : Offered (declareCell id type)
  | setBlock (id : SymbolId) (block : BlockRef) :
    Offered (update id fun symbol => symbol.setBlock block)
  | beginProcedure (id : SymbolId) : Offered (beginProcedure id)
  | endProcedure : Offered endProcedure
  | setCurrentBlock (block : BlockRef) : Offered (setCurrentBlock block)
  | appendBlock (label : String) : Offered (appendBlock label)
  | build {α : Type} (step : Build α) : Offered (build step)

namespace Session

/-- The session comes about from a new one in any number of steps, of which some may fail. -/
inductive Met (file : String) : Session → Prop
  | start : Met file (.start file)
  | step {α : Type} {session : Session} {step : Compiler α} (h : Met file session)
    (hstep : Compiler.Offered step) : Met file (session.after step)

/-- The symbol is a procedure with the given function. -/
def StandsFor (session : Session) (id : SymbolId) (function : FunctionId) : Prop :=
  ∃ block, session.forest.meaning? id = some (.procedure function block)

/-- Neither what symbols stand for nor open procedures nor code are touched. -/
structure SameWork (before after : Session) : Prop where
  meanings : ∀ id, after.forest.meaning? id = before.forest.meaning? id
  procedures : after.procedures = before.procedures
  builder : after.builder = before.builder

end Session

namespace Compiler

variable {leads : Session → Session → Prop}

section

variable (halike : ∀ before after : Session, before.SameWork after → leads before after)

include halike

theorem leads_locate (place : Place) : Moves leads (locate place) :=
  fun _ => halike _ _ ⟨fun _ => rfl, rfl, rfl⟩

theorem leads_tell (entry : Log.Entry) : Moves leads (tell entry) :=
  fun _ => halike _ _ ⟨fun _ => rfl, rfl, rfl⟩

theorem leads_enterScope : Moves leads enterScope :=
  fun _ => halike _ _ ⟨fun _ => rfl, rfl, rfl⟩

theorem leads_leaveScope : Moves leads leaveScope := by
  intro session
  apply halike
  unfold Session.after
  cases hparent : session.forest.parent? session.scope with
  | some scope =>
    rw [leaveScope_eq hparent]
    exact ⟨fun _ => rfl, rfl, rfl⟩
  | none =>
    unfold leaveScope
    rw [get_bind, hparent]
    exact ⟨fun _ => rfl, rfl, rfl⟩

theorem leads_add (name : String) : Moves leads (add name) := by
  intro session
  apply halike
  unfold Session.after
  cases hname : session.forest.declared? session.scope name with
  | some id =>
    rw [add_eq_error hname]
    exact ⟨fun _ => rfl, rfl, rfl⟩
  | none =>
    rw [add_eq_ok hname]
    exact ⟨fun id => Forest.meaning?_added _ _ _ id, rfl, rfl⟩

variable [IsPreorder Session leads]

theorem leads_declareLiteral {id : SymbolId} {text : String}
    (hdeclare : Moves leads (declare id (.literal text))) :
    Moves leads (declareLiteral id text) :=
  (moves_symbol id).bind fun _ => (leads_tell halike _).bind fun _ => hdeclare

theorem leads_declareCell {id : SymbolId} {type : IntType}
    (hglobal : ∀ name, Moves leads (build (Build.createGlobal name (.int type.width))))
    (hdeclare : ∀ global, Moves leads (declare id (.cell global type))) :
    Moves leads (declareCell id type) := by
  refine (moves_symbol id).bind fun symbol => moves_get.bind fun session => ?_
  refine (hglobal _).bind fun global => (moves_build_view _).bind fun made => ?_
  refine (leads_tell halike _).bind fun _ => ?_
  exact (hdeclare global).bind fun _ => moves_pure _

end

theorem after_ok {α : Type} {step : Compiler α} {session next : Session} {value : α}
    (h : step session = .ok value next) : session.after step = next := by
  rw [Session.after, h]

theorem after_error {α : Type} {step : Compiler α} {session next : Session} {failure : Failure}
    (h : step session = .error failure next) : session.after step = next := by
  rw [Session.after, h]

/-- A symbol is replaced by what it is changed to, or nothing happens. -/
theorem update_cases (session : Session) (id : SymbolId) (change : Symbol → Except Fault Symbol) :
    (∃ failure, update id change session = .error failure session) ∨ ∃ found changed,
      session.forest.symbols[id]? = some found ∧ change found = .ok changed ∧
        update id change session = .ok () (session.withSymbol id changed) := by
  cases hupdate : session.forest.update id change with
  | error fault =>
    left
    refine ⟨.fault fault, ?_⟩
    unfold update
    rw [get_bind, hupdate]
    rfl
  | ok forest =>
    right
    obtain ⟨found, hfound, hrest⟩ := Except.exists_of_bind_eq_ok hupdate
    obtain ⟨changed, hchange, -⟩ := Except.exists_of_bind_eq_ok hrest
    have hsymbol := fetch_eq_ok.1 hfound
    exact ⟨found, changed, hsymbol, hchange, update_eq hsymbol hchange⟩

theorem declare_cases (session : Session) (id : SymbolId) (meaning : Meaning) :
    (∃ failure, declare id meaning session = .error failure session) ∨ ∃ found,
      session.forest.symbols[id]? = some found ∧ found.meaning? = none ∧
        declare id meaning session =
          .ok () (session.withSymbol id { found with meaning? := some meaning }) := by
  rcases update_cases session id (·.declare meaning) with hfails | ⟨found, changed, hfound, hchange, h⟩
  · exact .inl hfails
  · unfold Symbol.declare at hchange
    split at hchange
    · next hnone =>
      cases hchange
      exact .inr ⟨found, hfound, hnone, h⟩
    · cases hchange

theorem setBlock_cases (session : Session) (id : SymbolId) (block : BlockRef) :
    (∃ failure, update id (fun symbol => symbol.setBlock block) session = .error failure session) ∨
      ∃ found function old, session.forest.symbols[id]? = some found ∧
        found.meaning? = some (.procedure function old) ∧
          update id (fun symbol => symbol.setBlock block) session = .ok () (session.withSymbol id
            { found with meaning? := some (.procedure function block) }) := by
  rcases update_cases session id (·.setBlock block) with hfails | ⟨found, changed, hfound, hchange, h⟩
  · exact .inl hfails
  · obtain ⟨⟨function, old⟩, hprocedure, hset⟩ := Except.exists_of_bind_eq_ok hchange
    unfold Symbol.procedure at hprocedure
    split at hprocedure
    · next hmeaning =>
      cases hprocedure
      cases hset
      exact .inr ⟨found, _, _, hfound, hmeaning, h⟩
    · cases hprocedure

end Compiler

namespace Session

/-- Procedures keep their functions, and what is opened is a procedure. -/
structure Upholds (before after : Session) : Prop where
  functions : ∀ id function, before.StandsFor id function → after.StandsFor id function
  procedures : ∀ id ∈ after.procedures, id ∈ before.procedures ∨ ∃ function,
    after.StandsFor id function

variable {before after : Session}

instance : IsPreorder Session Upholds where
  refl _ := ⟨fun _ _ h => h, fun _ h => .inl h⟩
  trans _ _ _ h h' := by
    refine ⟨fun id function hfirst => h'.functions id function (h.functions id function hfirst), ?_⟩
    intro id hid
    rcases h'.procedures id hid with hmiddle | hopened
    · rcases h.procedures id hmiddle with hfirst | ⟨function, hopened⟩
      · exact .inl hfirst
      · exact .inr ⟨function, h'.functions id function hopened⟩
    · exact .inr hopened

/-- Symbols stand for what they did, and no procedure is opened. -/
theorem upholds_of_same (hforest : ∀ id, after.forest.meaning? id = before.forest.meaning? id)
    (hprocedures : after.procedures ⊆ before.procedures) : Upholds before after := by
  refine ⟨fun id function h => ?_, fun id hid => .inl (hprocedures hid)⟩
  obtain ⟨block, hblock⟩ := h
  exact ⟨block, (hforest id).trans hblock⟩

theorem SameWork.upholds (h : before.SameWork after) : Upholds before after :=
  upholds_of_same h.meanings (h.procedures ▸ List.Subset.refl _)

/-- A symbol is told something, or where its code goes on. -/
theorem upholds_withSymbol {id : SymbolId} {found changed : Symbol}
    (hfound : before.forest.symbols[id]? = some found)
    (h : ∀ function block, found.meaning? = some (.procedure function block) →
      ∃ last, changed.meaning? = some (.procedure function last)) :
    Upholds before (before.withSymbol id changed) := by
  have hid := (List.getElem?_eq_some_iff.1 hfound).1
  refine ⟨fun other function hother => ?_, fun _ hopen => .inl hopen⟩
  obtain ⟨block, hblock⟩ := hother
  unfold StandsFor
  change ∃ last, (before.forest.withSymbol id changed).meaning? other = _
  rw [Forest.meaning?_withSymbol hid]
  by_cases hsame : id = other
  · subst hsame
    rw [if_pos rfl]
    apply h function block
    unfold Forest.meaning? at hblock
    rwa [hfound] at hblock
  · rw [if_neg hsame]
    exact ⟨block, hblock⟩

end Session

namespace Compiler

open Session (Upholds)

theorem upholds_build {α : Type} (step : Build α) : Moves Upholds (build step) := by
  intro session
  unfold Session.after build
  cases step session.builder <;>
    exact Session.upholds_of_same (fun _ => rfl) (List.Subset.refl _)

theorem upholds_moveTo (block : BlockRef) : Moves Upholds (moveTo block) :=
  fun _ => Session.upholds_of_same (fun _ => rfl) (List.Subset.refl _)

theorem upholds_tell (entry : Log.Entry) : Moves Upholds (tell entry) :=
  leads_tell (fun _ _ h => h.upholds) entry

theorem upholds_declare (id : SymbolId) (meaning : Meaning) :
    Moves Upholds (declare id meaning) := by
  intro session
  rcases declare_cases session id meaning with ⟨failure, h⟩ | ⟨found, hfound, hnone, h⟩
  · rw [after_error h]
    exact refl_of Upholds session
  · rw [after_ok h]
    apply Session.upholds_withSymbol hfound
    intro function block hmeaning
    rw [hnone] at hmeaning
    cases hmeaning

theorem upholds_setBlock (id : SymbolId) (block : BlockRef) :
    Moves Upholds (update id fun symbol => symbol.setBlock block) := by
  intro session
  rcases setBlock_cases session id block with ⟨failure, h⟩ | ⟨found, function, old, hfound, hold, h⟩
  · rw [after_error h]
    exact refl_of Upholds session
  · rw [after_ok h]
    apply Session.upholds_withSymbol hfound
    intro other before hmeaning
    rw [hold] at hmeaning
    cases hmeaning
    exact ⟨block, rfl⟩

/-- A symbol that becomes a procedure is opened. -/
theorem upholds_open (id : SymbolId) (function : FunctionId) (entry : BlockRef) (path : String) :
    Moves Upholds (do
      declare id (.procedure function entry)
      modify fun session => { session with procedures := id :: session.procedures }
      moveTo entry
      record (.procedureBegun path (← get).procedures.length)) := by
  intro session
  have hdeclare := upholds_declare id (.procedure function entry) session
  rcases declare_cases session id (.procedure function entry) with
    ⟨failure, hrun⟩ | ⟨found, hfound, -, hrun⟩
  · rw [after_error (bind_eq_error hrun)]
    exact refl_of Upholds session
  · rw [after_ok hrun] at hdeclare
    have hnow : (session.withSymbol id
        { found with meaning? := some (.procedure function entry) }).StandsFor id function := by
      refine ⟨entry, ?_⟩
      change (session.forest.withSymbol id _).meaning? id = _
      rw [Forest.meaning?_withSymbol (List.getElem?_eq_some_iff.1 hfound).1, if_pos rfl]
    rw [after_bind_ok hrun]
    refine ⟨hdeclare.functions, fun other hother => ?_⟩
    rcases List.mem_cons.1 hother with rfl | hbefore
    · exact .inr ⟨function, hnow⟩
    · exact .inl hbefore

theorem upholds_openProcedure (id : SymbolId) (path : String) (internal : Bool) :
    Moves Upholds (openProcedure id path internal) := by
  refine (upholds_build _).bind fun function => (upholds_build _).bind fun entry => ?_
  exact upholds_open id function entry path

theorem upholds_beginProcedure (id : SymbolId) : Moves Upholds (beginProcedure id) := by
  rw [beginProcedure_eq]
  refine (moves_symbol id).bind fun found => moves_get.bind fun session => ?_
  split
  · exact (upholds_setBlock _ _).bind fun _ => upholds_openProcedure id _ _
  · exact upholds_openProcedure id _ _

theorem upholds_endProcedure : Moves Upholds endProcedure := by
  intro session
  cases hprocedures : session.procedures with
  | nil =>
    have hfails : endProcedure session =
        .error (.error (.internal "end of procedure with none open")) session := by
      unfold endProcedure
      rw [get_bind, hprocedures]
      rfl
    rw [after_error hfails]
    exact refl_of Upholds session
  | cons id outer =>
    cases outer with
    | nil =>
      have hlast : Moves Upholds (do record (.outermostEnded (← symbol id).name)) :=
        (moves_symbol id).bind fun _ => upholds_tell _
      have hrun : endProcedure session =
          (do record (.outermostEnded (← symbol id).name) : Compiler Unit) session := by
        unfold endProcedure
        rw [get_bind, hprocedures]
      unfold Session.after
      rw [hrun]
      exact hlast session
    | cons outer rest =>
      have hclose : Moves Upholds (do
          record (.procedureEnded (← symbol id).name)
          let place ← orFault (← symbol outer).procedure
          moveTo place.2 : Compiler Unit) := by
        refine (moves_symbol id).bind fun _ => (upholds_tell _).bind fun _ => ?_
        refine (moves_symbol outer).bind fun _ => (moves_orFault _).bind fun place => ?_
        exact upholds_moveTo place.2
      have hleft : Upholds session (session.withProcedures (outer :: rest)) := by
        refine Session.upholds_of_same (fun _ => rfl) ?_
        rw [hprocedures]
        exact List.subset_cons_self id (outer :: rest)
      have hrun : endProcedure session = (do
          record (.procedureEnded (← symbol id).name)
          let place ← orFault (← symbol outer).procedure
          moveTo place.2 : Compiler Unit) (session.withProcedures (outer :: rest)) := by
        unfold endProcedure
        rw [get_bind, hprocedures]
        rfl
      unfold Session.after
      rw [hrun]
      exact trans_of Upholds hleft (hclose _)

theorem Offered.upholds {α : Type} {step : Compiler α} (h : Offered step) : Moves Upholds step := by
  have halike (before after : Session) (h : before.SameWork after) : Upholds before after := h.upholds
  cases h with
  | locate place => exact leads_locate halike place
  | tell entry => exact leads_tell halike entry
  | enterScope => exact leads_enterScope halike
  | leaveScope => exact leads_leaveScope halike
  | add name => exact leads_add halike name
  | declare id meaning => exact upholds_declare id meaning
  | declareLiteral id text => exact leads_declareLiteral halike (upholds_declare id _)
  | declareCell id type =>
    exact leads_declareCell halike (fun _ => upholds_build _) fun _ => upholds_declare id _
  | setBlock id block => exact upholds_setBlock id block
  | beginProcedure id => exact upholds_beginProcedure id
  | endProcedure => exact upholds_endProcedure
  | setCurrentBlock block =>
    exact moves_currentProcedure.bind fun id =>
      (upholds_setBlock id block).bind fun _ => upholds_moveTo block
  | appendBlock label =>
    exact moves_currentProcedure.bind fun id => (moves_symbol id).bind fun symbol =>
      (moves_orFault _).bind fun place => upholds_build _
  | build step => exact upholds_build step

end Compiler

theorem Session.Met.standsFor {file : String} {session : Session} (h : session.Met file) :
    ∀ id ∈ session.procedures, ∃ function, session.StandsFor id function := by
  induction h with
  | start => nofun
  | @step _ before _ _ hstep ih =>
    intro id hid
    have hupholds := hstep.upholds before
    rcases hupholds.procedures id hid with hbefore | hopened
    · obtain ⟨function, hfunction⟩ := ih id hbefore
      exact ⟨function, hupholds.functions id function hfunction⟩
    · exact hopened

end BlockLang
