import BlockLang.Session

/-! How a step of a compilation ends: with a value, or with an error of the program.
A step that can end in a fault meets no such statement. -/

namespace BlockLang.Compiler

variable {α β : Type}

/-- Run in `session`, the step gives a value and a session for which `done` holds, or
an error of the program and a session for which `failed` holds. -/
def Ends (step : Compiler α) (session : Session) (failed : Error → Session → Prop)
    (done : α → Session → Prop) : Prop :=
  match step session with
  | .ok value next => done value next
  | .error (.error error) next => failed error next
  | .error (.fault _) _ => False

section

variable {session : Session} {failed failed' : Error → Session → Prop}

theorem Ends.imp {step : Compiler α} {done done' : α → Session → Prop}
    (h : Ends step session failed done)
    (hfailed : ∀ error next, failed error next → failed' error next)
    (hdone : ∀ value next, done value next → done' value next) :
    Ends step session failed' done' := by
  unfold Ends at h ⊢
  split at h
  · exact hdone _ _ h
  · exact hfailed _ _ h
  · exact h

theorem Ends.mono {step : Compiler α} {done done' : α → Session → Prop}
    (h : Ends step session failed done)
    (hdone : ∀ value next, done value next → done' value next) :
    Ends step session failed done' :=
  h.imp (fun _ _ herror => herror) hdone

theorem Ends.and {step : Compiler α} {done done' : α → Session → Prop}
    (h : Ends step session failed done) (h' : Ends step session failed' done') :
    Ends step session (fun error next => failed error next ∧ failed' error next)
      fun value next => done value next ∧ done' value next := by
  unfold Ends at h h' ⊢
  split at h
  · next hrun => exact ⟨h, by rwa [hrun] at h'⟩
  · next hrun => exact ⟨h, by rwa [hrun] at h'⟩
  · exact h

theorem ends_bind_iff {step : Compiler α} {next : α → Compiler β} {done : β → Session → Prop} :
    Ends (step >>= next) session failed done ↔
      Ends step session failed fun value after => Ends (next value) after failed done := by
  have hrun : (step >>= next) session = EStateM.bind step next session := rfl
  unfold Ends
  rw [hrun, EStateM.bind]
  cases step session with
  | ok value after => rfl
  | error failure after => cases failure <;> rfl

/-- Steps are taken one after the other. -/
theorem Ends.bind {step : Compiler α} {next : α → Compiler β} {middle : α → Session → Prop}
    {done : β → Session → Prop} (h : Ends step session failed middle)
    (hnext : ∀ value after, middle value after → Ends (next value) after failed done) :
    Ends (step >>= next) session failed done :=
  ends_bind_iff.2 (h.mono hnext)

theorem Ends.map {step : Compiler α} {done : β → Session → Prop} (change : α → β)
    (h : Ends step session failed fun value after => done (change value) after) :
    Ends (change <$> step) session failed done := by
  have hrun : change <$> step = step >>= fun value => pure (change value) := rfl
  rw [hrun]
  exact h.bind fun _ _ hdone => hdone

theorem Ends.discard {step : Compiler α} {done : Unit → Session → Prop}
    (h : Ends step session failed fun _ after => done () after) :
    Ends (discard step) session failed done :=
  h.map _

theorem ends_of_ok {step : Compiler α} {value : α} {next : Session}
    {done : α → Session → Prop} (hstep : step session = .ok value next) (h : done value next) :
    Ends step session failed done := by
  unfold Ends
  rw [hstep]
  exact h

theorem ends_of_error {step : Compiler α} {error : Error} {next : Session}
    {done : α → Session → Prop} (hstep : step session = .error (.error error) next)
    (h : failed error next) : Ends step session failed done := by
  unfold Ends
  rw [hstep]
  exact h

theorem Ends.of_ok {step : Compiler α} {done : α → Session → Prop} {value : α} {next : Session}
    (h : Ends step session failed done) (hstep : step session = .ok value next) :
    done value next := by
  unfold Ends at h
  rwa [hstep] at h

theorem Ends.of_error {step : Compiler α} {done : α → Session → Prop} {error : Error}
    {next : Session} (h : Ends step session failed done)
    (hstep : step session = .error (.error error) next) : failed error next := by
  unfold Ends at h
  rwa [hstep] at h

/-- A first step whose end is known. -/
theorem ends_bind_of_ok {step : Compiler α} {next : α → Compiler β} {value : α} {after : Session}
    {done : β → Session → Prop} (hstep : step session = .ok value after)
    (h : Ends (next value) after failed done) : Ends (step >>= next) session failed done := by
  rw [ends_bind_iff]
  exact ends_of_ok hstep h

end

section

variable {session : Session} {failed : Error → Session → Prop} {done : α → Session → Prop}

theorem ends_fail {error : Error} (h : failed error session) :
    Ends (fail error) session failed done := h

theorem ends_get_bind {next : Session → Compiler α} (h : Ends (next session) session failed done) :
    Ends (get >>= next) session failed done := h

end

end BlockLang.Compiler
