import BlockLang.Proofs.Core.Writing
import BlockLang.Proofs.Fallible
import BlockLang.Proofs.Unit

/-! Every unit that is taken in has code that passes the check, whichever functions are
checked. So the check never decides what a compilation gives. -/

namespace BlockLang

open Code Names Compiler

namespace Code

/-- A block that has been left passes if its instructions do. -/
theorem Block.check_eq {code : Module} {function : Function} {block : Block}
    (hfinished : block.Finished) (h : ∀ instr ∈ block.instrs, instr.check code function = .ok ()) :
    block.check code function = .ok () := by
  obtain ⟨body, last, hinstrs, hlast, hbody⟩ := hfinished
  have hnonempty : block.instrs.isEmpty = false := by simp [hinstrs]
  have hterminated : block.isTerminated = true := by simp [Block.isTerminated, hinstrs, hlast]
  have hearly : block.instrs.dropLast.any Instr.isTerminator = false := by
    simp only [hinstrs, List.dropLast_concat, List.any_eq_false, Bool.not_eq_true]
    exact hbody
  unfold Block.check
  rw [hnonempty, hterminated, hearly]
  refine forM_eq_ok_iff.2 fun instr hinstr => ?_
  rw [h instr hinstr]
  rfl

end Code

namespace Code.Module

variable {code : Module} {program : Core.Program}

theorem Implements.check_function (h : code.Implements program) (hformed : program.Formed)
    {id : FunctionId} {function : Function} (hfunction : code.functions[id]? = some function) :
    function.check code = .ok () := by
  obtain ⟨body, hbody, hsketch⟩ := h.function hfunction
  have hblocks : function.blocks = body.draft.blocks := congrArg Prod.fst hsketch
  have hfits := hformed.bodies body (List.mem_of_getElem? hbody)
  have hsound := Core.Stmt.sound_draft hformed.cells hfits
  have hfinished := Core.Stmt.finished_draft hformed.cells hfits
  have hnonempty : function.blocks.isEmpty = false := by
    rw [hblocks, List.isEmpty_eq_false_iff]
    exact List.ne_nil_of_length_pos (Core.Stmt.length_draft hformed.cells hfits)
  unfold Function.check
  rw [hnonempty]
  refine forM_eq_ok_iff.2 fun block hblock => ?_
  rw [hblocks] at hblock
  refine Block.check_eq (hfinished block hblock) fun instr hinstr => ?_
  refine Instr.check_eq h.globals ?_
  rw [h.length, hblocks]
  exact hsound.fits block hblock instr hinstr

/-- All functions of a program's code pass the check. -/
theorem Implements.checkFunction_eq (h : code.Implements program) (hformed : program.Formed)
    {id : FunctionId} (hid : id < code.functions.length) : code.checkFunction id = .ok () := by
  have hfunction := List.getElem?_eq_getElem hid
  unfold Module.checkFunction
  rw [hfunction]
  dsimp only
  rw [h.check_function hformed hfunction]
  rfl

end Code.Module

/-- What a compilation gives, apart from the session it leaves. -/
def outcome {α : Type} : EStateM.Result Failure Session α → Except Failure α
  | .ok value _ => .ok value
  | .error failure _ => .error failure

theorem readUnit_checkFunction {file source : String} {session : Session}
    (h : readUnit file source = .ok () session) {id : FunctionId}
    (hid : id < session.builder.code.functions.length) :
    session.builder.code.checkFunction id = .ok () := by
  obtain ⟨program, -, hformed, -, hholds⟩ := readUnit_ok h
  exact hholds.code.checkFunction_eq hformed hid

theorem readUnit_check {file source : String} {session : Session}
    (h : readUnit file source = .ok () session) : session.builder.code.check = .ok () :=
  forM_eq_ok_iff.2 fun _ hid => readUnit_checkFunction h (List.mem_range.1 hid)

private theorem orFail_eq_ok {session : Session} {result : Except Error Unit}
    (h : result = .ok ()) : orFail result session = .ok () session := by
  rw [h]
  rfl

/-- However much is checked, the check passes and changes no code. -/
theorem Compiler.check_eq {file source : String} {session : Session}
    (h : readUnit file source = .ok () session) (scrutiny : Scrutiny) :
    ∃ last, check scrutiny session = .ok () last ∧ last.builder = session.builder := by
  cases scrutiny with
  | none => exact ⟨session, rfl, rfl⟩
  | outermost =>
    obtain ⟨program, -, -, hsound, hholds⟩ := readUnit_ok h
    obtain ⟨id, block, hprocedures, hmeaning⟩ := hholds.outermost
    obtain ⟨found, hfound, hprocedure⟩ := Forest.symbol_of_meaning? hmeaning
    obtain ⟨hblock, function, hfunction, -⟩ := hsound.meanings id _ hmeaning
    rw [hblock] at hfunction
    have hchecked := readUnit_checkFunction h (List.getElem?_eq_some_iff.1 hfunction).1
    have houtermost : outermostProcedure session = .ok id session := by
      unfold outermostProcedure
      rw [get_bind, hprocedures]
      rfl
    refine ⟨session.told (.event (.checkingEntry found.name)), ?_, rfl⟩
    refine (bind_eq_ok houtermost).trans ((bind_eq_ok (symbol_eq hfound)).trans ?_)
    refine (bind_eq_ok (record_eq _)).trans ?_
    refine (bind_eq_ok (orFault_eq_ok _ (procedure_eq hprocedure))).trans ?_
    exact orFail_eq_ok hchecked
  | all =>
    refine ⟨session.told (.event .checkingAll), ?_, rfl⟩
    have hchecked := readUnit_check h
    refine (bind_eq_ok (record_eq _)).trans ?_
    exact orFail_eq_ok hchecked

/-- Checking makes no difference to what a compilation gives. -/
theorem outcome_compile (file source : String) (scrutiny : Scrutiny) :
    outcome (compile file source scrutiny) = match readUnit file source with
      | .ok _ session => .ok session.builder.code
      | .error failure _ => .error failure := by
  unfold compile compileUnit
  cases hread : readUnit file source with
  | ok value session =>
    obtain ⟨last, hcheck, hbuilder⟩ := Compiler.check_eq hread scrutiny
    rw [bind_eq_ok (show takeUnit source (.start file) = .ok value session from hread),
      bind_eq_ok hcheck, get_bind]
    exact congrArg (fun builder => Except.ok (Builder.code builder)) hbuilder
  | error failure session =>
    rw [bind_eq_error (show takeUnit source (.start file) = .error failure session from hread)]
    rfl

theorem readUnit_of_outcome {file source : String} {scrutiny : Scrutiny} {code : Module}
    (h : outcome (compile file source scrutiny) = .ok code) :
    ∃ session, readUnit file source = .ok () session ∧ session.builder.code = code := by
  rw [outcome_compile] at h
  cases hread : readUnit file source with
  | ok value session =>
    rw [hread] at h
    exact ⟨session, rfl, Except.ok.inj h⟩
  | error failure session =>
    rw [hread] at h
    cases h

/-- A unit that is taken in passes the check, in all its functions. So what a compilation
gives does not depend on how much is checked, and it is never a failed check. -/
theorem readUnit_passes_every_check (file source : String) :
    (∀ session, readUnit file source = .ok () session → session.builder.code.check = .ok () ∧
      ∀ id < session.builder.code.functions.length,
        session.builder.code.checkFunction id = .ok ()) ∧
    (∀ first second, outcome (compile file source first) = outcome (compile file source second)) ∧
    ∀ scrutiny function message,
      outcome (compile file source scrutiny) ≠ .error (.error (.rejected function message)) := by
  refine ⟨fun session h => ⟨readUnit_check h, fun _ hid => readUnit_checkFunction h hid⟩, ?_, ?_⟩
  · intro first second
    rw [outcome_compile, outcome_compile]
  · intro scrutiny function message hrejected
    have hends := ends_takeUnit file source
    unfold Ends at hends
    rw [outcome_compile, readUnit] at hrejected
    split at hends
    · next hrun =>
      rw [hrun] at hrejected
      cases hrejected
    · next hrun =>
      rw [hrun] at hrejected
      cases hrejected
      exact hends.2 function message rfl
    · exact hends

/-- Statements after a return, in a procedure and in the one around it. -/
def returnEarly : String :=
  "PROCEDURE OUTER; VAR X : INT16; " ++
  "PROCEDURE INNER; BEGIN RETURN; X := 1 END; " ++
  "BEGIN INNER; RETURN; IF X > 0 THEN INNER ELSE RETURN; X := -X END END."

theorem returnEarly_passes :
    ∃ session, readUnit "unit" returnEarly = .ok () session ∧
      session.builder.code.functions.length = 2 ∧ session.builder.code.check = .ok () ∧
      outcome (compile "unit" returnEarly .none) = outcome (compile "unit" returnEarly .all) := by
  have hreads : readsTo "unit" returnEarly fun session =>
      session.builder.code.functions.length == 2 := by decide +kernel
  obtain ⟨session, h, hlength⟩ := readsTo_iff.1 hreads
  obtain ⟨hpasses, hsame, -⟩ := readUnit_passes_every_check "unit" returnEarly
  exact ⟨session, h, by simpa using hlength, (hpasses session h).1, hsame .none .all⟩

end BlockLang
