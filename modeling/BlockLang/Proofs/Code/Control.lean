import BlockLang.Proofs.Code.Running
import BlockLang.Proofs.Code.Wording
import Mathlib.Logic.Relation

/-! Where control can go in code that passed the check. What registers and globals hold is
left open at every step, so that either way out of a fork can be taken; still no run comes to
the end of a block without leaving it, or to something that is not there. -/

namespace BlockLang.Code

/-- The blocks that an instruction can lead to. -/
def Instr.targets : Instr → List BlockId
  | jump target => [target]
  | fork _ yes no => [yes, no]
  | load .. | store .. | binary .. | compare .. | cast .. | call _ | ret => []

/-- The global that an instruction loads from or stores to, and the type at which it does. -/
def Instr.touches? : Instr → Option (GlobalId × Ty)
  | load dest source => some (source, dest.type)
  | store value target => some (target, value.type)
  | binary .. | compare .. | cast .. | call _ | jump _ | fork .. | ret => none

def Instr.callee? : Instr → Option FunctionId
  | call callee => some callee
  | load .. | store .. | binary .. | compare .. | cast .. | jump _ | fork .. | ret => none

namespace Module

/-- A step as control sees it, with any contents of the registers and the globals before it
and after it. -/
inductive Goes (code : Module) : Machine → Machine → Prop
  | on {memory later : List Word} {function : FunctionId} {instr : Instr} {rest : List Instr}
    {registers others : Registers} {outer : List Frame} (hstays : instr.isTerminator = false)
    (hhere : instr.callee? = none) :
    Goes code ⟨memory, ⟨function, instr :: rest, registers⟩ :: outer⟩
      ⟨later, ⟨function, rest, others⟩ :: outer⟩
  | call {memory later : List Word} {function callee : FunctionId} {instr : Instr}
    {rest entry : List Instr} {registers others fresh : Registers} {outer : List Frame}
    (hcallee : instr.callee? = some callee) (hentry : code.instrsAt? callee 0 = some entry) :
    Goes code ⟨memory, ⟨function, instr :: rest, registers⟩ :: outer⟩
      ⟨later, ⟨callee, entry, fresh⟩ :: ⟨function, rest, others⟩ :: outer⟩
  | leave {memory later : List Word} {function : FunctionId} {instr : Instr}
    {rest next : List Instr} {registers others : Registers} {outer : List Frame}
    {target : BlockId} (htarget : target ∈ instr.targets)
    (hnext : code.instrsAt? function target = some next) :
    Goes code ⟨memory, ⟨function, instr :: rest, registers⟩ :: outer⟩
      ⟨later, ⟨function, next, others⟩ :: outer⟩
  | ret {memory later : List Word} {function : FunctionId} {rest : List Instr}
    {registers : Registers} {outer : List Frame} :
    Goes code ⟨memory, ⟨function, .ret :: rest, registers⟩ :: outer⟩ ⟨later, outer⟩

/-- Any number of such steps. -/
def Wanders (code : Module) : Machine → Machine → Prop :=
  Relation.ReflTransGen code.Goes

end Module

/-- What must not be: an instruction of the given function is next, `rest` stands behind it in
its block, and it cannot be carried out as it should. -/
inductive Instr.Mishap (code : Module) (function : FunctionId) (rest : List Instr) : Instr → Prop
  | leftOver {instr : Instr} (hleaves : instr.isTerminator = true) (hrest : rest ≠ []) :
    Mishap code function rest instr
  | noBlock {instr : Instr} {target : BlockId} (htarget : target ∈ instr.targets)
    (hnone : code.instrsAt? function target = none) : Mishap code function rest instr
  | noFunction {instr : Instr} {callee : FunctionId} (hcallee : instr.callee? = some callee)
    (hnone : code.instrsAt? callee 0 = none) : Mishap code function rest instr
  | noGlobal {instr : Instr} {id : GlobalId} {type : Ty}
    (htouches : instr.touches? = some (id, type)) (hnone : code.globals[id]? = none) :
    Mishap code function rest instr
  | otherType {instr : Instr} {id : GlobalId} {type : Ty} {global : Global}
    (htouches : instr.touches? = some (id, type)) (hglobal : code.globals[id]? = some global)
    (htype : global.type ≠ type) : Mishap code function rest instr
  | noBit {condition : Value} {yes no : BlockId} (htype : condition.type ≠ .int 1) :
    Mishap code function rest (.fork condition yes no)

/-- The machine has come to the end of a block, or is about to meet with a mishap. -/
def Module.Wrong (code : Module) (machine : Machine) : Prop :=
  match machine.frames with
  | [] => False
  | ⟨_, [], _⟩ :: _ => True
  | ⟨function, instr :: rest, _⟩ :: _ => instr.Mishap code function rest

/-- What the frame has still to do is the end of a block of its function, and not nothing. -/
def Frame.Stands (code : Module) (frame : Frame) : Prop :=
  ∃ function block, code.functions[frame.function]? = some function ∧ block ∈ function.blocks ∧
    frame.rest <:+ block.instrs ∧ frame.rest ≠ []

def Machine.Stands (code : Module) (machine : Machine) : Prop :=
  ∀ frame ∈ machine.frames, frame.Stands code

theorem Instr.Proper.touches {code : Module} {function : Function} {instr : Instr}
    (h : instr.Proper code function) {id : GlobalId} {type : Ty}
    (htouches : instr.touches? = some (id, type)) :
    ∃ global, code.globals[id]? = some global ∧ global.type = type := by
  cases instr with
  | load dest source =>
    obtain ⟨rfl, rfl⟩ := Prod.mk.inj (Option.some.inj htouches)
    exact h
  | store value target =>
    obtain ⟨rfl, rfl⟩ := Prod.mk.inj (Option.some.inj htouches)
    exact h
  | _ => cases htouches

namespace Module.Checked

variable {code : Module}

theorem stands_at (h : code.Checked) {id : FunctionId} {target : BlockId} {instrs : List Instr}
    (hinstrs : code.instrsAt? id target = some instrs) (registers : Registers) :
    Frame.Stands code ⟨id, instrs, registers⟩ := by
  obtain ⟨function, hfunction, hrest⟩ := Option.bind_eq_some_iff.1 hinstrs
  obtain ⟨block, hblock, hlast⟩ := Option.bind_eq_some_iff.1 hrest
  cases hlast
  have hmem := List.mem_of_getElem? hblock
  obtain ⟨body, last, hfinished, -⟩ :=
    h.finished function (List.mem_of_getElem? hfunction) block hmem
  exact ⟨function, block, hfunction, hmem, List.suffix_rfl, by simp [hfinished]⟩

/-- Exactly the last instruction of a block leaves it, and all of them refer to what is there. -/
theorem next (h : code.Checked) {id : FunctionId} {instr : Instr} {rest : List Instr}
    {registers : Registers} (hstands : Frame.Stands code ⟨id, instr :: rest, registers⟩) :
    (instr.isTerminator = true ↔ rest = []) ∧
      ∃ function, code.functions[id]? = some function ∧ instr.Proper code function := by
  obtain ⟨function, block, hfunction, hblock, hsuffix, -⟩ := hstands
  have hmem := List.mem_of_getElem? hfunction
  obtain ⟨body, last, hinstrs, hlast, hbody⟩ := h.finished function hmem block hblock
  have hproper := h.proper function hmem block hblock instr (hsuffix.subset List.mem_cons_self)
  refine ⟨?_, function, hfunction, hproper⟩
  obtain ⟨front, hfront⟩ := hsuffix
  rw [hinstrs] at hfront
  rcases List.eq_nil_or_concat rest with rfl | ⟨others, final, rfl⟩
  · have hsame := List.append_inj_right' hfront rfl
    rw [List.singleton_inj.1 hsame]
    exact iff_of_true hlast rfl
  · have hsplit : (front ++ instr :: others) ++ [final] = body ++ [last] := by
      simpa using hfront
    have hsame := List.append_inj_left' hsplit rfl
    rw [hbody instr (hsame ▸ List.mem_append_right _ List.mem_cons_self)]
    simp

theorem instrsAt?_entry (h : code.Checked) {id : FunctionId} (hid : id < code.functions.length) :
    ∃ entry, code.instrsAt? id 0 = some entry := by
  have hfunction := List.getElem?_eq_getElem hid
  have hnonempty := h.entry _ (List.getElem_mem hid)
  obtain ⟨first, others, hblocks⟩ := List.exists_cons_of_ne_nil hnonempty
  exact ⟨first.instrs, by simp [instrsAt?, hfunction, hblocks]⟩

theorem instrsAt?_target {id : FunctionId} {function : Function}
    (hfunction : code.functions[id]? = some function) {instr : Instr}
    (hproper : instr.Proper code function) {target : BlockId} (htarget : target ∈ instr.targets) :
    ∃ instrs, code.instrsAt? id target = some instrs := by
  have hlt : target < function.blocks.length := by
    cases instr with
    | jump other => exact List.mem_singleton.1 htarget ▸ hproper
    | fork condition yes no =>
      rcases List.mem_pair.1 htarget with rfl | rfl
      · exact hproper.2.1
      · exact hproper.2.2
    | _ => cases htarget
  exact ⟨function.blocks[target].instrs,
    by simp [instrsAt?, hfunction, List.getElem?_eq_getElem hlt]⟩

theorem instrsAt?_callee (h : code.Checked) {function : Function} {instr : Instr}
    (hproper : instr.Proper code function) {callee : FunctionId}
    (hcallee : instr.callee? = some callee) :
    ∃ entry, code.instrsAt? callee 0 = some entry := by
  cases instr with
  | call other =>
    obtain rfl := Option.some.inj hcallee
    exact h.instrsAt?_entry hproper
  | _ => cases hcallee

theorem not_mishap (h : code.Checked) {id : FunctionId} {instr : Instr} {rest : List Instr}
    {registers : Registers} (hstands : Frame.Stands code ⟨id, instr :: rest, registers⟩) :
    ¬ instr.Mishap code id rest := by
  obtain ⟨hlast, function, hfunction, hproper⟩ := h.next hstands
  intro hmishap
  cases hmishap with
  | leftOver hleaves hrest => exact hrest (hlast.1 hleaves)
  | noBlock htarget hnone =>
    obtain ⟨instrs, hinstrs⟩ := instrsAt?_target hfunction hproper htarget
    rw [hnone] at hinstrs
    cases hinstrs
  | noFunction hcallee hnone =>
    obtain ⟨entry, hentry⟩ := h.instrsAt?_callee hproper hcallee
    rw [hnone] at hentry
    cases hentry
  | noGlobal htouches hnone =>
    obtain ⟨global, hglobal, -⟩ := hproper.touches htouches
    rw [hnone] at hglobal
    cases hglobal
  | otherType htouches hglobal htype =>
    obtain ⟨global, hfound, hsame⟩ := hproper.touches htouches
    obtain rfl := Option.some.inj (hfound.symm.trans hglobal)
    exact htype hsame
  | noBit htype => exact htype hproper.1

theorem not_wrong (h : code.Checked) {machine : Machine} (hstands : machine.Stands code) :
    ¬ code.Wrong machine := by
  obtain ⟨memory, frames⟩ := machine
  match frames with
  | [] => exact id
  | ⟨function, [], registers⟩ :: outer =>
    obtain ⟨-, -, -, -, -, hnonempty⟩ := hstands _ List.mem_cons_self
    exact fun _ => hnonempty rfl
  | ⟨function, instr :: rest, registers⟩ :: outer =>
    exact h.not_mishap (hstands _ List.mem_cons_self)

theorem stands_of_goes (h : code.Checked) {machine later : Machine}
    (hstands : machine.Stands code) (hgoes : code.Goes machine later) : later.Stands code := by
  -- A frame that stays in its block has more to do, since it has not come to the last one.
  have hrest : ∀ {id : FunctionId} {instr : Instr} {rest : List Instr}
      {registers others : Registers}, Frame.Stands code ⟨id, instr :: rest, registers⟩ →
        instr.isTerminator = false → Frame.Stands code ⟨id, rest, others⟩ := by
    intro id instr rest registers others hframe hstays
    have hmore : rest ≠ [] := fun hnil => by
      rw [(h.next hframe).1.2 hnil] at hstays
      cases hstays
    obtain ⟨function, block, hfunction, hblock, hsuffix, -⟩ := hframe
    exact ⟨function, block, hfunction, hblock, (List.suffix_cons _ _).trans hsuffix, hmore⟩
  cases hgoes with
  | on hstays _ =>
    obtain ⟨hframe, houter⟩ := List.forall_mem_cons.1 hstands
    exact List.forall_mem_cons.2 ⟨hrest hframe hstays, houter⟩
  | @call _ _ _ _ instr _ _ _ _ _ _ hcallee hentry =>
    obtain ⟨hframe, houter⟩ := List.forall_mem_cons.1 hstands
    have hstays : instr.isTerminator = false := by
      cases instr <;> first | rfl | cases hcallee
    refine List.forall_mem_cons.2 ⟨h.stands_at hentry _, List.forall_mem_cons.2 ⟨?_, houter⟩⟩
    exact hrest hframe hstays
  | leave _ hnext =>
    obtain ⟨-, houter⟩ := List.forall_mem_cons.1 hstands
    exact List.forall_mem_cons.2 ⟨h.stands_at hnext _, houter⟩
  | ret => exact (List.forall_mem_cons.1 hstands).2

/-- A machine with a call under way always has a way on. -/
theorem exists_goes (h : code.Checked) {machine : Machine} (hstands : machine.Stands code) :
    machine.frames = [] ∨ ∃ later, code.Goes machine later := by
  obtain ⟨memory, frames⟩ := machine
  match frames with
  | [] => exact .inl rfl
  | ⟨function, [], registers⟩ :: outer =>
    obtain ⟨-, -, -, -, -, hnonempty⟩ := hstands _ List.mem_cons_self
    exact (hnonempty rfl).elim
  | ⟨id, instr :: rest, registers⟩ :: outer =>
    obtain ⟨-, function, hfunction, hproper⟩ := h.next (hstands _ List.mem_cons_self)
    right
    cases instr with
    | call callee =>
      obtain ⟨entry, hentry⟩ := h.instrsAt?_callee hproper rfl
      exact ⟨⟨memory, ⟨callee, entry, registers⟩ :: ⟨id, rest, registers⟩ :: outer⟩,
        .call rfl hentry⟩
    | jump target =>
      obtain ⟨next, hnext⟩ := instrsAt?_target hfunction hproper List.mem_cons_self
      exact ⟨⟨memory, ⟨id, next, registers⟩ :: outer⟩, .leave List.mem_cons_self hnext⟩
    | fork condition yes no =>
      obtain ⟨next, hnext⟩ := instrsAt?_target hfunction hproper List.mem_cons_self
      exact ⟨⟨memory, ⟨id, next, registers⟩ :: outer⟩, .leave List.mem_cons_self hnext⟩
    | ret => exact ⟨⟨memory, outer⟩, .ret⟩
    | _ => exact ⟨⟨memory, ⟨id, rest, registers⟩ :: outer⟩, .on rfl rfl⟩

theorem stands_of_wanders (h : code.Checked) {machine later : Machine}
    (hstands : machine.Stands code) (hwanders : code.Wanders machine later) :
    later.Stands code := by
  induction hwanders with
  | refl => exact hstands
  | tail _ hgoes ih => exact h.stands_of_goes ih hgoes

end Module.Checked

namespace Module

variable {code : Module}

/-- What the machine does is among what control can do. -/
theorem goes_of_step {machine later : Machine} (h : code.step machine = some later) :
    code.Goes machine later := by
  obtain ⟨memory, frames⟩ := machine
  match frames with
  | [] => cases h
  | ⟨function, [], registers⟩ :: outer => cases h
  | ⟨function, instr :: rest, registers⟩ :: outer =>
    cases instr with
    | store value target =>
      obtain ⟨old, -, hrest⟩ := Option.bind_eq_some_iff.1 h
      obtain ⟨bits, -, hlast⟩ := Option.bind_eq_some_iff.1 hrest
      cases hlast
      exact .on rfl rfl
    | call callee =>
      obtain ⟨entry, hentry, hlast⟩ := Option.bind_eq_some_iff.1 h
      cases hlast
      exact .call rfl hentry
    | jump target =>
      obtain ⟨next, hnext, hlast⟩ := Option.bind_eq_some_iff.1 h
      cases hlast
      exact .leave List.mem_cons_self hnext
    | fork condition yes no =>
      obtain ⟨bit, -, hrest⟩ := Option.bind_eq_some_iff.1 h
      obtain ⟨next, hnext, hlast⟩ := Option.bind_eq_some_iff.1 hrest
      cases hlast
      refine .leave ?_ hnext
      split <;> simp [Instr.targets]
    | ret =>
      cases h
      exact .ret
    | _ =>
      obtain ⟨next, -, hlast⟩ := Option.bind_eq_some_iff.1 h
      cases hlast
      exact .on rfl rfl

theorem Reaches.wanders {machine later : Machine} (h : code.Reaches machine later) :
    code.Wanders machine later := by
  obtain ⟨steps, hsteps⟩ := h
  induction steps generalizing machine with
  | zero =>
    cases hsteps
    exact .refl
  | succ steps ih =>
    obtain ⟨next, hstep, hrest⟩ := Option.bind_eq_some_iff.1 hsteps
    exact .head (goes_of_step hstep) (ih hrest)

/-- Code that passes the check has a listing, and every function of it a block to start in.
Started there with any contents of registers and globals, and with any contents at every step
on the way, a run never goes wrong and always has a way on until all calls have returned. The
machine's own runs are among these. -/
theorem check_guards_control (h : code.check = .ok ()) :
    (∃ text, code.listing = .ok text) ∧
      (∀ id < code.functions.length, ∃ entry, code.instrsAt? id 0 = some entry ∧
        ∀ memory registers machine, code.Wanders ⟨memory, [⟨id, entry, registers⟩]⟩ machine →
          ¬ code.Wrong machine ∧ (machine.frames = [] ∨ ∃ later, code.Goes machine later)) ∧
      ∀ first last, code.Reaches first last → code.Wanders first last := by
  have hchecked := checked_of_check h
  refine ⟨⟨_, hchecked.listing_eq⟩, fun id hid => ?_, fun _ _ hreaches => hreaches.wanders⟩
  obtain ⟨entry, hentry⟩ := hchecked.instrsAt?_entry hid
  refine ⟨entry, hentry, fun memory registers machine hwanders => ?_⟩
  have hstart : Machine.Stands code ⟨memory, [⟨id, entry, registers⟩]⟩ := by
    intro frame hframe
    rw [List.mem_singleton.1 hframe]
    exact hchecked.stands_at hentry registers
  have hstands := hchecked.stands_of_wanders hstart hwanders
  exact ⟨hchecked.not_wrong hstands, hchecked.exists_goes hstands⟩

/-- A loop that calls a function, which returns. -/
def rounds : Module where
  name := "rounds"
  globals := [⟨"N", .int 8⟩]
  functions := [
    { name := "MAIN", internal := false, nextRegister := 3,
      blocks := [
        ⟨"entry", [.jump 1]⟩,
        ⟨"while.cond", [.fork (.register (.int 1) 1) 2 3,
          .compare (.register (.int 1) 1) .ne (.register (.int 8) 0) (.const (.int 8) 0),
          .load (.register (.int 8) 0) 0]⟩,
        ⟨"while.body", [.jump 1, .call 1]⟩,
        ⟨"while.end", [.ret]⟩] },
    { name := "MAIN.STEP", internal := true, nextRegister := 2,
      blocks := [⟨"entry", [.ret, .store (.register (.int 8) 1) 0,
        .binary (.register (.int 8) 1) .sub (.register (.int 8) 0) (.const (.int 8) 1),
        .load (.register (.int 8) 0) 0]⟩] }]

theorem rounds_guarded :
    rounds.check = .ok () ∧ (∃ text, rounds.listing = .ok text) ∧
      ∀ memory registers machine,
        rounds.Wanders ⟨memory, [⟨0, [.jump 1], registers⟩]⟩ machine → ¬ rounds.Wrong machine := by
  have hcheck : rounds.check = .ok () := by rfl
  obtain ⟨hlisting, hruns, -⟩ := check_guards_control hcheck
  refine ⟨hcheck, hlisting, fun memory registers machine hwanders => ?_⟩
  obtain ⟨entry, hentry, hguarded⟩ := hruns 0 (by decide)
  obtain rfl : [.jump 1] = entry := Option.some.inj hentry
  exact (hguarded memory registers machine hwanders).1

end Module

end BlockLang.Code
