import BlockLang.Proofs.Checking
import BlockLang.Proofs.Code.Made
import BlockLang.Proofs.Session.Met

/-! The code of a session comes about by edits of a store, whatever is done and wherever it breaks
off. So it is the code that a store with registers of 32 bits would hold, as long as no function
has more of them. -/

namespace BlockLang

open Code Names

namespace Session

variable {name : String} {before after : Session}

/-- Code that was made by edits stays so. -/
def Crafts (name : String) (before after : Session) : Prop :=
  before.builder.code.Made name → after.builder.code.Made name

instance (name : String) : IsPreorder Session (Crafts name) where
  refl _ h := h
  trans _ _ _ h h' hmade := h' (h hmade)

theorem crafts_of_same (h : after.builder.code = before.builder.code) : Crafts name before after :=
  fun hmade => h ▸ hmade

theorem SameWork.crafts (h : before.SameWork after) : Crafts name before after :=
  crafts_of_same (congrArg Builder.code h.builder)

end Session

namespace Compiler

open Session (Crafts)

variable {α : Type} {name : String}

/-- A change of the code that is an edit. -/
theorem crafts_change {action : Module → Except Fault (α × Module)}
    (h : ∀ code value next, action code = .ok (value, next) →
      ∃ (edit : Edit) (handle : Handle), edit.run code = .ok (handle, next)) :
    Moves (Crafts name) (build (Build.change action)) := by
  intro session
  cases haction : action session.builder.code with
  | error fault =>
    rw [after_build_change_error haction]
    exact refl_of (Crafts name) session
  | ok result =>
    obtain ⟨value, next⟩ := result
    obtain ⟨edit, handle, hrun⟩ := h _ _ _ haction
    rw [after_build_change_ok haction]
    exact fun hmade => hmade.edit hrun

theorem crafts_createGlobal (base : String) (type : Ty) :
    Moves (Crafts name) (build (Build.createGlobal base type)) := by
  apply crafts_change
  rintro code value next ⟨⟩
  exact ⟨.addGlobal base type, _, rfl⟩

theorem crafts_createFunction (base : String) (internal : Bool) :
    Moves (Crafts name) (build (Build.createFunction base internal)) := by
  apply crafts_change
  rintro code value next ⟨⟩
  exact ⟨.addFunction base internal, _, rfl⟩

theorem crafts_build_appendBlock (function : FunctionId) (label : String) :
    Moves (Crafts name) (build (Build.appendBlock function label)) := by
  apply crafts_change
  intro code value next h
  refine ⟨.appendBlock function label, .block value, ?_⟩
  rw [Edit.run, h]
  rfl

theorem crafts_freshRegister (type : Ty) :
    Moves (Crafts name) (build (Build.freshRegister type)) := by
  refine moves_build_bind ?_ fun block => crafts_change ?_
  · grind [Build.here]
  · intro code value next h
    refine ⟨.freshRegister block.function type, .register block.function value, ?_⟩
    rw [Edit.run, h]
    rfl

theorem crafts_emit (instr : Instr) : Moves (Crafts name) (build (Build.emit instr)) := by
  refine moves_build_bind ?_ fun block => crafts_change ?_
  · grind [Build.here]
  · intro code value next h
    obtain ⟨pushed, hpush, hnext⟩ := Except.exists_of_bind_eq_ok h
    cases hnext
    refine ⟨.push block instr, .nothing, ?_⟩
    rw [Edit.run, hpush]
    rfl

theorem crafts_update (id : SymbolId) (change : Symbol → Except Fault Symbol) :
    Moves (Crafts name) (update id change) := by
  intro session
  rcases update_cases session id change with ⟨failure, h⟩ | ⟨found, changed, -, -, h⟩
  · rw [after_error h]
    exact refl_of (Crafts name) session
  · rw [after_ok h]
    exact Session.crafts_of_same rfl

theorem crafts_moveTo (block : BlockRef) : Moves (Crafts name) (moveTo block) :=
  fun _ => Session.crafts_of_same rfl

theorem crafts_record (event : Log.Event) : Moves (Crafts name) (record event) :=
  fun _ => Session.crafts_of_same rfl

theorem crafts_openProcedure (id : SymbolId) (path : String) (internal : Bool) :
    Moves (Crafts name) (openProcedure id path internal) := by
  refine (crafts_createFunction path internal).bind fun function => ?_
  refine (crafts_build_appendBlock function "entry").bind fun entry => ?_
  refine (crafts_update id _).bind fun _ => ?_
  refine Moves.bind (fun _ => Session.crafts_of_same rfl) fun _ => ?_
  exact (crafts_moveTo entry).bind fun _ => moves_get.bind fun _ => crafts_record _

theorem crafts_beginProcedure (id : SymbolId) : Moves (Crafts name) (beginProcedure id) := by
  rw [beginProcedure_eq]
  refine (moves_symbol id).bind fun found => moves_get.bind fun session => ?_
  split
  · exact (crafts_update _ _).bind fun _ => crafts_openProcedure id _ _
  · exact crafts_openProcedure id _ _

theorem crafts_endProcedure : Moves (Crafts name) endProcedure := by
  refine moves_get.bind fun session => ?_
  split
  · exact moves_fail _
  · exact (moves_symbol _).bind fun _ => crafts_record _
  · refine Moves.bind (fun _ => Session.crafts_of_same rfl) fun _ => ?_
    refine (moves_symbol _).bind fun _ => (crafts_record _).bind fun _ => ?_
    exact (moves_symbol _).bind fun _ => (moves_orFault _).bind fun _ => crafts_moveTo _

theorem Primitive.crafts {step : Compiler α} (h : Primitive step) : Moves (Crafts name) step := by
  have halike (before after : Session) (h : before.SameWork after) : Crafts name before after :=
    h.crafts
  cases h with
  | locate place => exact leads_locate halike place
  | tell entry => exact leads_tell halike entry
  | enterScope => exact leads_enterScope halike
  | leaveScope => exact leads_leaveScope halike
  | add name => exact leads_add halike name
  | declareLiteral id text => exact leads_declareLiteral halike (crafts_update id _)
  | declareCell id htype =>
    exact leads_declareCell halike (fun _ => crafts_createGlobal _ _) fun _ => crafts_update id _
  | beginProcedure id => exact crafts_beginProcedure id
  | endProcedure => exact crafts_endProcedure
  | setCurrentBlock block =>
    exact moves_currentProcedure.bind fun id =>
      (crafts_update id _).bind fun _ => crafts_moveTo block
  | appendBlock label =>
    exact moves_currentProcedure.bind fun id => (moves_symbol id).bind fun symbol =>
      (moves_orFault _).bind fun place => crafts_build_appendBlock place.1 label
  | freshRegister type => exact crafts_freshRegister type
  | emit instr => exact crafts_emit instr

theorem stays_takeUnit (file source : String) : Moves (Session.Onto file) (takeUnit source) := by
  have htake : Moves (Session.Onto file) (takeSource source) :=
    moves_get.bind fun session => (moves_orFail _).bind fun tokens =>
      (Tree.Program.stays_emit (Tree.Program.declarable_ofTokens tokens) :
        Moves (Session.Onto file) (takeTokens tokens))
  refine moves_get.bind fun session => (stays_tell _).bind fun _ => htake.bind fun _ => ?_
  exact moves_get.bind fun last => (stays_record _).bind fun _ => stays_tell _

end Compiler

/-- The code of a session that can be met was made by edits. -/
theorem Session.Reached.made {file : String} {session : Session} (h : session.Reached file) :
    session.builder.code.Made file := by
  induction h with
  | start => exact ⟨[], [], .done _⟩
  | step _ hstep ih => exact hstep.crafts _ ih

/-- The code of a source is that of a store whose registers have 32 bits, unless a function has more
of them. -/
theorem compile_bounded {file source : String} {scrutiny : Scrutiny} {code : Module}
    (h : outcome (compile file source scrutiny) = .ok code)
    (hbound : ∀ (id : FunctionId) function, code.functions[id]? = some function →
      function.nextRegister < UInt32.size) :
    ∃ edits, ∃ narrow : Ledger UInt32, Ledger.Runs ⟨{ name := file }, []⟩ edits narrow ∧
      narrow.code.widen = code := by
  obtain ⟨session, hread, rfl⟩ := readUnit_of_outcome h
  have hreached := Compiler.stays_takeUnit file source (.start file) .start
  unfold readUnit at hread
  rw [Compiler.after_ok hread] at hreached
  exact hreached.made.bounded hbound

end BlockLang
