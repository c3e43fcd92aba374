import BlockLang.Proofs.Code.Computes

/-! Runs of many steps. A machine has at most one run, so of a run that ends in a stop the
first part is known, and a machine that gets stuck never stops. -/

namespace BlockLang.Code

namespace Module

variable {code : Module} {first second third : Machine} {memory : List Word}

/-- Some run leads from the first machine to the second. -/
def Reaches (code : Module) (first second : Machine) : Prop :=
  ∃ steps, code.run steps first = some second

/-- No run of the machine ends in a stop. -/
def Stuck (code : Module) (machine : Machine) : Prop :=
  ∀ steps memory, code.run steps machine ≠ some ⟨memory, []⟩

theorem run_add (code : Module) (steps more : Nat) (machine : Machine) :
    code.run (steps + more) machine = code.run steps machine >>= code.run more := by
  induction steps generalizing machine with
  | zero =>
    rw [Nat.zero_add]
    rfl
  | succ steps ih =>
    rw [Nat.succ_add, run, run, bind_assoc]
    exact congrArg _ (funext fun next => ih next)

theorem run_step (h : code.step first = some second) (steps : Nat) :
    code.run (steps + 1) first = code.run steps second := by
  rw [run, h]
  rfl

theorem run_of_run {steps : Nat} (h : code.run steps first = some second) (more : Nat) :
    code.run (steps + more) first = code.run more second := by
  rw [run_add, h]
  rfl

theorem Reaches.refl (machine : Machine) : code.Reaches machine machine := ⟨0, rfl⟩

theorem Reaches.trans (h : code.Reaches first second) (h' : code.Reaches second third) :
    code.Reaches first third := by
  obtain ⟨steps, hsteps⟩ := h
  obtain ⟨more, hmore⟩ := h'
  exact ⟨steps + more, (run_of_run hsteps more).trans hmore⟩

theorem Reaches.of_step (h : code.step first = some second) : code.Reaches first second :=
  ⟨1, (run_step h 0).trans rfl⟩

/-- A stopped machine stays where it is for no step, and has no other run. -/
theorem run_stopped (code : Module) (steps : Nat) (memory : List Word) :
    code.run (steps + 1) ⟨memory, []⟩ = none := rfl

/-- A run that ends in a stop passes through everything the machine reaches before. -/
theorem run_rest {steps total : Nat} (hfirst : code.run steps first = some second)
    (htotal : code.run total first = some ⟨memory, []⟩) :
    ∃ more, total = steps + more ∧ code.run more second = some ⟨memory, []⟩ := by
  rcases Nat.le_total steps total with hle | hle
  · obtain ⟨more, rfl⟩ := Nat.exists_eq_add_of_le hle
    exact ⟨more, rfl, (run_of_run hfirst more).symm.trans htotal⟩
  · obtain ⟨extra, rfl⟩ := Nat.exists_eq_add_of_le hle
    rw [run_of_run htotal] at hfirst
    cases extra with
    | zero =>
      cases hfirst
      exact ⟨0, rfl, rfl⟩
    | succ extra =>
      rw [run_stopped] at hfirst
      cases hfirst

theorem Reaches.rest {total : Nat} (h : code.Reaches first second)
    (htotal : code.run total first = some ⟨memory, []⟩) :
    ∃ more ≤ total, code.run more second = some ⟨memory, []⟩ := by
  obtain ⟨steps, hsteps⟩ := h
  obtain ⟨more, rfl, hmore⟩ := run_rest hsteps htotal
  exact ⟨more, Nat.le_add_left _ _, hmore⟩

/-- After a step, the rest of the run is shorter. -/
theorem rest_of_step {total : Nat} (h : code.step first = some second)
    (htotal : code.run total first = some ⟨memory, []⟩) :
    ∃ more < total, code.run more second = some ⟨memory, []⟩ := by
  obtain ⟨more, rfl, hmore⟩ := run_rest (run_step h 0) htotal
  exact ⟨more, Nat.lt_add_of_pos_left (Nat.zero_lt_succ 0), hmore⟩

theorem Stuck.of_reaches (hreaches : code.Reaches first second) (h : code.Stuck second) :
    code.Stuck first := by
  intro total memory htotal
  obtain ⟨more, -, hmore⟩ := hreaches.rest htotal
  exact h more memory hmore

/-- A machine with a call under way gets stuck if it has no next step. -/
theorem stuck_of_step {frame : Frame} {outer : List Frame}
    (h : code.step ⟨memory, frame :: outer⟩ = none) : code.Stuck ⟨memory, frame :: outer⟩ := by
  intro steps last hrun
  cases steps with
  | zero => cases hrun
  | succ steps =>
    rw [run, h] at hrun
    cases hrun

end Module

variable {code : Module} {memory : List Word} {function : FunctionId} {registers : Registers}
  {outer : List Frame} {cells : List IntType} {known : List Value} {next : Nat}

/-- An instruction that defines a register does nothing else. -/
theorem Module.step_define {instr : Instr} {dest : Value} (h : instr.dest? = some dest)
    (rest : List Instr) :
    code.step ⟨memory, ⟨function, instr :: rest, registers⟩ :: outer⟩ =
      (instr.compute? memory registers).map fun next =>
        ⟨memory, ⟨function, rest, next⟩ :: outer⟩ := by
  cases instr with
  | load dest source => exact Option.map_eq_bind.symm
  | binary dest op left right => exact Option.map_eq_bind.symm
  | compare dest predicate left right => exact Option.map_eq_bind.symm
  | cast dest op value => exact Option.map_eq_bind.symm
  | store value target => cases h
  | call callee => cases h
  | jump target => cases h
  | fork condition yes no => cases h
  | ret => cases h

/-- Code that computes something is run to its end. -/
theorem Module.run_computeAll {instrs : List Instr}
    (hneat : Neat cells known next instrs) {last : Registers}
    (h : computeAll? memory instrs registers = some last) (rest : List Instr) :
    code.run instrs.length ⟨memory, ⟨function, instrs ++ rest, registers⟩ :: outer⟩ =
      some ⟨memory, ⟨function, rest, last⟩ :: outer⟩ := by
  induction instrs generalizing registers known next with
  | nil =>
    cases h
    rfl
  | cons instr instrs ih =>
    obtain ⟨-, -, type, hdest, hrest⟩ := hneat
    obtain ⟨middle, hmiddle, hlast⟩ := Option.bind_eq_some_iff.1 h
    rw [List.length_cons, List.cons_append, run, step_define hdest, hmiddle]
    exact ih hrest hlast

/-- Code that computes nothing gets stuck. -/
theorem Module.stuck_computeAll {instrs : List Instr}
    (hneat : Neat cells known next instrs)
    (h : computeAll? memory instrs registers = none) (rest : List Instr) :
    code.Stuck ⟨memory, ⟨function, instrs ++ rest, registers⟩ :: outer⟩ := by
  induction instrs generalizing registers known next with
  | nil => cases h
  | cons instr instrs ih =>
    obtain ⟨-, -, type, hdest, hrest⟩ := hneat
    rw [List.cons_append]
    cases hmiddle : instr.compute? memory registers with
    | none =>
      apply stuck_of_step
      rw [step_define hdest, hmiddle]
      rfl
    | some middle =>
      have hstep : code.step ⟨memory, ⟨function, instr :: (instrs ++ rest), registers⟩ :: outer⟩ =
          some ⟨memory, ⟨function, instrs ++ rest, middle⟩ :: outer⟩ := by
        rw [step_define hdest, hmiddle]
        rfl
      rw [computeAll?, hmiddle] at h
      exact (ih hrest h).of_reaches (.of_step hstep)

theorem Straight.Computes.reaches {α ρ : Type} {straight : Straight α} {found : ρ}
    {done : ρ → Nat → Registers → α → Prop}
    (h : straight.Computes memory next registers (some found) done)
    (hneat : Neat cells known next (straight.instrs next)) (rest : List Instr) :
    ∃ last, done found (straight.after next) last (straight.value next) ∧
      code.Reaches ⟨memory, ⟨function, straight.instrs next ++ rest, registers⟩ :: outer⟩
        ⟨memory, ⟨function, rest, last⟩ :: outer⟩ := by
  obtain ⟨last, hlast, -, hdone⟩ := h
  exact ⟨last, hdone, _, Module.run_computeAll hneat hlast rest⟩

theorem Straight.Computes.stuck {α ρ : Type} {straight : Straight α}
    {done : ρ → Nat → Registers → α → Prop}
    (h : straight.Computes memory next registers none done)
    (hneat : Neat cells known next (straight.instrs next)) (rest : List Instr) :
    code.Stuck ⟨memory, ⟨function, straight.instrs next ++ rest, registers⟩ :: outer⟩ :=
  Module.stuck_computeAll hneat h rest

end BlockLang.Code
