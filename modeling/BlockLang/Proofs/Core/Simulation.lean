import BlockLang.Proofs.Code.Running
import BlockLang.Proofs.Core.Evaluation
import BlockLang.Proofs.Core.Placement

/-! The code of a program runs as the program does. Every run of a statement is a run of
the machine from the statement's code to what comes after it. In the other direction, a
machine that is in a statement and stops has first come to what is after the statement, in
no more steps, so the induction is on the number of steps. -/

namespace BlockLang

open Code

namespace Core

variable {cells : List IntType} {store last : Store}

theorem Store.words_set {target : Nat} {type : IntType} (h : cells[target]? = some type)
    (store : Store) (value : Int) :
    (store.set target value).words cells =
      (store.words cells).set target ⟨type.width, .ofInt type.width value⟩ := by
  apply List.ext_getElem?
  intro id
  by_cases hid : id = target
  · subst hid
    have hlength : id < (store.words cells).length := by
      simpa [Store.words] using (List.getElem?_eq_some_iff.1 h).1
    rw [Store.words_getElem? _ h, List.getElem?_set_self hlength]
    simp [Store.set]
  · rw [List.getElem?_set_ne (Ne.symm hid)]
    simp [Store.words, Store.set, hid]

theorem Store.Within.set (h : store.Within cells) {target : Nat} {type : IntType}
    (htarget : cells[target]? = some type) {value : Int} (hvalue : type.Contains value) :
    (store.set target value).Within cells := by
  intro id other hother
  unfold Store.set
  split
  · next heq =>
    subst heq
    cases htarget.symm.trans hother
    exact hvalue
  · exact h id other hother

/-- What is asked of the code of a program: the bodies are well formed, and laid out from
the start of their functions on. -/
structure Program.Ready (program : Program) (code : Module) : Prop extends program.Formed where
  laid : ∀ (id : Nat) (body : Stmt), program.procedures[id]? = some body →
    ∃ entry behind, code.instrsAt? id 0 = some entry ∧
      body.Laid (code.instrsAt? id) entry (.ret :: behind)

variable {program : Program} {code : Module} {stmt : Stmt} {exit : Exit}

theorem Stmt.Fits.chosen {procedures : Nat} {condition : Cond} {yes no : Stmt}
    (h : (Stmt.branch condition yes no).Fits cells procedures) (holds : Bool) :
    (if holds then yes else no).Fits cells procedures := by
  cases holds with
  | true => exact h.2.1
  | false => exact h.2.2

theorem Stmt.Runs.within (hcode : program.Ready code)
    (h : stmt.Runs program.procedures store exit last)
    (hfits : stmt.Fits program.cells program.procedures.length)
    (hstore : store.Within program.cells) : last.Within program.cells := by
  induction h with
  | skip => exact hstore
  | seq _ _ ihfirst ihsecond => exact ihsecond hfits.2 (ihfirst hfits.1 hstore)
  | seqReturned _ ih => exact ih hfits.1 hstore
  | assign hvalue => exact hstore.set hfits.1 (IntType.contains_wrap _ _)
  | call hcallee _ ih => exact ih (hcode.bodies _ (List.mem_of_getElem? hcallee)) hstore
  | branch _ _ ih => exact ih (hfits.chosen _) hstore
  | loopDone _ => exact hstore
  | loopAgain _ _ _ ihbody ihrest => exact ihrest hfits (ihbody hfits.2 hstore)
  | loopReturned _ _ ih => exact ih hfits.2 hstore
  | ret => exact hstore

variable {function : FunctionId} {registers : Registers} {outer : List Frame}

section

variable (hcells : ∀ type ∈ cells, type ∈ IntType.declarable) {value : Expr} {target : Nat}
  {type : IntType} (htarget : cells[target]? = some type) (hvalue : value.Fits cells)
  (hstore : store.Within cells) (next : Nat) (after : List Instr)
include hcells htarget hvalue hstore

theorem reaches_assign {number : Int} (h : value.eval store = some number) :
    ∃ last, code.Reaches
      ⟨store.words cells, ⟨function, (value.codeAs type).instrs next ++
        .store ((value.codeAs type).value next) target :: after, registers⟩ :: outer⟩
      ⟨(store.set target (type.wrap number)).words cells, ⟨function, after, last⟩ :: outer⟩ := by
  have htype := hcells type (List.mem_of_getElem? htarget)
  have hleaves : (value.codeAs type).Leaves cells [] _ := Expr.leaves_codeAs hcells hvalue htype
  have hcomputes := Expr.computes_codeAs hcells hvalue hstore htype next registers
  rw [h] at hcomputes
  obtain ⟨last, hholds, hreaches⟩ := hcomputes.reaches (hleaves next).1 _
  refine ⟨last, hreaches.trans (.of_step ?_)⟩
  rw [Store.words_set htarget, IntType.ofInt_wrap]
  simp only [Module.step, store.words_getElem? htarget]
  change (Value.read? last _ type.width >>= _) = _
  rw [hholds.read]
  rfl

theorem stuck_assign (h : value.eval store = none) :
    code.Stuck ⟨store.words cells, ⟨function, (value.codeAs type).instrs next ++
      .store ((value.codeAs type).value next) target :: after, registers⟩ :: outer⟩ := by
  have htype := hcells type (List.mem_of_getElem? htarget)
  have hleaves : (value.codeAs type).Leaves cells [] _ := Expr.leaves_codeAs hcells hvalue htype
  have hcomputes := Expr.computes_codeAs hcells hvalue hstore htype next registers
  rw [h] at hcomputes
  exact hcomputes.stuck (hleaves next).1 _

end

section

variable (hcells : ∀ type ∈ cells, type ∈ IntType.declarable) {condition : Cond}
  (hcondition : condition.Fits cells) (hstore : store.Within cells) (next : Nat)
  (yes no : BlockId) (behind : List Instr)
include hcells hcondition hstore

theorem reaches_fork {holds : Bool} (h : condition.eval store = some holds) {chosen : List Instr}
    (hchosen : code.instrsAt? function (if holds then yes else no) = some chosen) :
    ∃ last, code.Reaches
      ⟨store.words cells, ⟨function, condition.code.instrs next ++
        .fork (condition.code.value next) yes no :: behind, registers⟩ :: outer⟩
      ⟨store.words cells, ⟨function, chosen, last⟩ :: outer⟩ := by
  have hleaves : condition.code.Leaves cells [] _ := Cond.leaves_code hcells hcondition
  have hcomputes := Cond.computes_code hcells hcondition hstore next registers
  rw [h] at hcomputes
  obtain ⟨last, hread, hreaches⟩ := hcomputes.reaches (hleaves next).1 _
  refine ⟨last, hreaches.trans (.of_step ?_)⟩
  have hbit : (BitVec.ofBool holds = 1) = (holds = true) := by cases holds <;> decide
  simp only [Module.step, hread, bind, Option.bind, hbit, hchosen]
  rfl

theorem stuck_fork (h : condition.eval store = none) :
    code.Stuck ⟨store.words cells, ⟨function, condition.code.instrs next ++
      .fork (condition.code.value next) yes no :: behind, registers⟩ :: outer⟩ := by
  have hleaves : condition.code.Leaves cells [] _ := Cond.leaves_code hcells hcondition
  have hcomputes := Cond.computes_code hcells hcondition hstore next registers
  rw [h] at hcomputes
  exact hcomputes.stuck (hleaves next).1 _

end

/-- The machine once a statement has been run: at what is after it, or out of its function. -/
def Exit.Arrives (cells : List IntType) (function : FunctionId) (after : List Instr)
    (outer : List Frame) (store : Store) : Exit → Machine → Prop
  | finished, machine =>
    ∃ registers, machine = ⟨store.words cells, ⟨function, after, registers⟩ :: outer⟩
  | returned, machine => machine = ⟨store.words cells, outer⟩

/-- A jump after the statement is made too. -/
theorem Exit.Arrives.jump {machine : Machine} {target : BlockId} {behind after : List Instr}
    (h : exit.Arrives cells function (.jump target :: behind) outer store machine)
    (htarget : code.instrsAt? function target = some after) :
    ∃ next, exit.Arrives cells function after outer store next ∧ code.Reaches machine next := by
  cases exit with
  | finished =>
    obtain ⟨registers, rfl⟩ := h
    refine ⟨_, ⟨registers, rfl⟩, .of_step ?_⟩
    simp only [Module.step, htarget]
    rfl
  | returned => exact ⟨machine, h, .refl machine⟩

/-- A return after the statement leaves the function in any case. -/
theorem Exit.Arrives.ret {machine : Machine} {behind : List Instr}
    (h : exit.Arrives cells function (.ret :: behind) outer store machine) :
    code.Reaches machine ⟨store.words cells, outer⟩ := by
  cases exit with
  | finished =>
    obtain ⟨registers, rfl⟩ := h
    exact .of_step rfl
  | returned =>
    cases h
    exact .refl _

theorem step_jump {memory : List Word} {target : BlockId} {next : List Instr}
    (h : code.instrsAt? function target = some next) (behind : List Instr) :
    code.step ⟨memory, ⟨function, .jump target :: behind, registers⟩ :: outer⟩ =
      some ⟨memory, ⟨function, next, registers⟩ :: outer⟩ := by
  simp only [Module.step, h]
  rfl

theorem step_call {memory : List Word} {callee : FunctionId} {entry : List Instr}
    (h : code.instrsAt? callee 0 = some entry) (after : List Instr) :
    code.step ⟨memory, ⟨function, .call callee :: after, registers⟩ :: outer⟩ =
      some ⟨memory, ⟨callee, entry, fun _ => none⟩ :: ⟨function, after, registers⟩ :: outer⟩ := by
  simp only [Module.step, h]
  rfl

theorem Stmt.Runs.reaches (hcode : program.Ready code)
    (h : stmt.Runs program.procedures store exit last)
    (hfits : stmt.Fits program.cells program.procedures.length)
    (hstore : store.Within program.cells) {here after : List Instr}
    (hlaid : stmt.Laid (code.instrsAt? function) here after) (registers : Registers)
    (outer : List Frame) :
    ∃ machine, exit.Arrives program.cells function after outer last machine ∧
      code.Reaches ⟨store.words program.cells, ⟨function, here, registers⟩ :: outer⟩ machine := by
  induction h generalizing function here after registers outer with
  | skip =>
    cases hlaid
    exact ⟨_, ⟨registers, rfl⟩, .refl _⟩
  | seq hfirst hsecond ihfirst ihsecond =>
    cases hlaid with
    | seq hlaidFirst hlaidSecond =>
      obtain ⟨_, ⟨middle, rfl⟩, hreaches⟩ := ihfirst hfits.1 hstore hlaidFirst registers outer
      obtain ⟨machine, harrives, hreaches'⟩ :=
        ihsecond hfits.2 (hfirst.within hcode hfits.1 hstore) hlaidSecond middle outer
      exact ⟨machine, harrives, hreaches.trans hreaches'⟩
  | seqReturned hfirst ih =>
    cases hlaid with
    | seq hlaidFirst _ => exact ih hfits.1 hstore hlaidFirst registers outer
  | assign hvalue =>
    cases hlaid with
    | assign next =>
      obtain ⟨last, hreaches⟩ := reaches_assign hcode.cells hfits.1 hfits.2 hstore next after hvalue
      exact ⟨_, ⟨last, rfl⟩, hreaches⟩
  | call hcallee hbody ih =>
    cases hlaid
    obtain ⟨entry, behind, hentry, hlaidBody⟩ := hcode.laid _ _ hcallee
    obtain ⟨machine, harrives, hreaches⟩ :=
      ih (hcode.bodies _ (List.mem_of_getElem? hcallee)) hstore hlaidBody (fun _ => none)
        (⟨function, after, registers⟩ :: outer)
    refine ⟨_, ⟨registers, rfl⟩, ?_⟩
    exact (Module.Reaches.of_step (step_call hentry after)).trans (hreaches.trans harrives.ret)
  | @branch condition yes no _ _ _ holds hcondition hchosen ih =>
    obtain ⟨next, first, second, behind, rfl, hparts⟩ := hlaid.branch_inv
    obtain ⟨chosen, target, _, hblock, hlaidPart, htarget⟩ := hparts holds
    obtain ⟨middle, hfork⟩ :=
      reaches_fork hcode.cells hfits.1 hstore next first second behind hcondition hblock
    obtain ⟨machine, harrives, hreaches⟩ := ih (hfits.chosen holds) hstore hlaidPart middle outer
    obtain ⟨final, harrives', hjump⟩ := harrives.jump htarget
    exact ⟨final, harrives', hfork.trans (hreaches.trans hjump)⟩
  | loopDone hcondition =>
    cases hlaid with
    | loop next htest hfirst hlast hbody =>
      obtain ⟨middle, hfork⟩ :=
        reaches_fork hcode.cells hfits.1 hstore next _ _ _ hcondition hlast
      exact ⟨_, ⟨middle, rfl⟩, (Module.Reaches.of_step (step_jump htest _)).trans hfork⟩
  | loopAgain hcondition hbody hrest ihbody ihrest =>
    cases hlaid with
    | loop next htest hfirst hlast hlaidBody =>
      obtain ⟨middle, hfork⟩ :=
        reaches_fork hcode.cells hfits.1 hstore next _ _ _ hcondition hfirst
      obtain ⟨_, ⟨again, rfl⟩, hreaches⟩ := ihbody hfits.2 hstore hlaidBody middle outer
      obtain ⟨machine, harrives, hreaches'⟩ :=
        ihrest hfits (hbody.within hcode hfits.2 hstore) (.loop next htest hfirst hlast hlaidBody)
          again outer
      refine ⟨machine, harrives, (Module.Reaches.of_step (step_jump htest _)).trans ?_⟩
      exact hfork.trans (hreaches.trans hreaches')
  | loopReturned hcondition hbody ih =>
    cases hlaid with
    | loop next htest hfirst hlast hlaidBody =>
      obtain ⟨middle, hfork⟩ :=
        reaches_fork hcode.cells hfits.1 hstore next _ _ _ hcondition hfirst
      obtain ⟨machine, harrives, hreaches⟩ := ih hfits.2 hstore hlaidBody middle outer
      refine ⟨machine, harrives, (Module.Reaches.of_step (step_jump htest _)).trans ?_⟩
      exact hfork.trans hreaches
  | ret =>
    cases hlaid
    exact ⟨_, rfl, .of_step rfl⟩

/-- A machine that is in the statement and stops after so many steps has run the statement
first, in no more steps. -/
def Stmt.Traced (program : Program) (code : Module) (steps : Nat) (stmt : Stmt) : Prop :=
  ∀ ⦃function : FunctionId⦄ ⦃here after : List Instr⦄ ⦃store : Store⦄ ⦃registers : Registers⦄
    ⦃outer : List Frame⦄ ⦃memory : List Word⦄, store.Within program.cells →
    stmt.Laid (code.instrsAt? function) here after →
    code.run steps ⟨store.words program.cells, ⟨function, here, registers⟩ :: outer⟩ =
      some ⟨memory, []⟩ →
    ∃ exit last machine, stmt.Runs program.procedures store exit last ∧
      exit.Arrives program.cells function after outer last machine ∧
      ∃ fewer ≤ steps, code.run fewer machine = some ⟨memory, []⟩

theorem Stmt.Traced.seq (hcode : program.Ready code) {first second : Stmt} {steps : Nat}
    (hfits : first.Fits program.cells program.procedures.length)
    (hfirst : first.Traced program code steps)
    (hsecond : ∀ fewer ≤ steps, second.Traced program code fewer) :
    (Stmt.seq first second).Traced program code steps := by
  intro function here after store registers outer memory hstore hlaid hrun
  cases hlaid with
  | seq hlaidFirst hlaidSecond =>
    obtain ⟨exit, middle, machine, hruns, harrives, fewer, hle, hrest⟩ :=
      hfirst hstore hlaidFirst hrun
    cases exit with
    | finished =>
      obtain ⟨registers, rfl⟩ := harrives
      obtain ⟨exit, last, machine, hruns', harrives, least, hle', hrest⟩ :=
        hsecond fewer hle (hruns.within hcode hfits hstore) hlaidSecond hrest
      exact ⟨exit, last, machine, .seq hruns hruns', harrives, least, Nat.le_trans hle' hle, hrest⟩
    | returned => exact ⟨_, middle, machine, .seqReturned hruns, harrives, fewer, hle, hrest⟩

theorem Stmt.traced_assign (hcode : program.Ready code) {target : Nat} {type : IntType}
    {value : Expr} (htarget : program.cells[target]? = some type)
    (hvalue : value.Fits program.cells) (steps : Nat) :
    (Stmt.assign target type value).Traced program code steps := by
  intro function here after store registers outer memory hstore hlaid hrun
  cases hlaid with
  | assign next =>
    cases hresult : value.eval store with
    | none =>
      exact absurd hrun (stuck_assign hcode.cells htarget hvalue hstore next after hresult _ _)
    | some number =>
      obtain ⟨last, hreaches⟩ :=
        reaches_assign hcode.cells htarget hvalue hstore next after hresult
      exact ⟨_, _, _, .assign hresult, ⟨last, rfl⟩, hreaches.rest hrun⟩

theorem Stmt.traced_call (hcode : program.Ready code) {callee steps : Nat}
    (hcallee : callee < program.procedures.length)
    (hbody : ∀ body ∈ program.procedures, ∀ fewer < steps, body.Traced program code fewer) :
    (Stmt.call callee).Traced program code steps := by
  intro function here after store registers outer memory hstore hlaid hrun
  cases hlaid
  have hprocedure := List.getElem?_eq_getElem hcallee
  obtain ⟨entry, behind, hentry, hlaidBody⟩ := hcode.laid _ _ hprocedure
  obtain ⟨fewer, hlt, hrest⟩ := Module.rest_of_step (step_call hentry after) hrun
  obtain ⟨exit, last, machine, hruns, harrives, least, hle, hleast⟩ :=
    hbody _ (List.getElem_mem hcallee) fewer hlt hstore hlaidBody hrest
  obtain ⟨steps, hsteps, hback⟩ := harrives.ret.rest hleast
  exact ⟨_, last, _, .call hprocedure hruns, ⟨registers, rfl⟩, steps, by omega, hback⟩

theorem Stmt.Traced.branch (hcode : program.Ready code) {condition : Cond} {yes no : Stmt}
    {steps : Nat} (hcondition : condition.Fits program.cells)
    (hpart : ∀ (holds : Bool), ∀ fewer ≤ steps,
      (if holds then yes else no).Traced program code fewer) :
    (Stmt.branch condition yes no).Traced program code steps := by
  intro function here after store registers outer memory hstore hlaid hrun
  obtain ⟨next, first, second, behind, rfl, hparts⟩ := hlaid.branch_inv
  cases hresult : condition.eval store with
  | none =>
    exact absurd hrun (stuck_fork hcode.cells hcondition hstore next first second behind hresult _ _)
  | some holds =>
    obtain ⟨chosen, target, _, hblock, hlaidPart, htarget⟩ := hparts holds
    obtain ⟨middle, hfork⟩ :=
      reaches_fork hcode.cells hcondition hstore next first second behind hresult hblock
    obtain ⟨fewer, hle, hrest⟩ := hfork.rest hrun
    obtain ⟨exit, last, machine, hruns, harrives, least, hle', hleast⟩ :=
      hpart holds fewer hle hstore hlaidPart hrest
    obtain ⟨final, harrives, hjump⟩ := harrives.jump htarget
    obtain ⟨steps, hsteps, hend⟩ := hjump.rest hleast
    exact ⟨exit, last, final, .branch hresult hruns, harrives, steps, by omega, hend⟩

/-- The jump to the test is a step, so what follows it may be known for shorter runs only. -/
theorem Stmt.traced_loop (hcode : program.Ready code) {condition : Cond} {body : Stmt}
    {steps : Nat} (hfits : (Stmt.loop condition body).Fits program.cells program.procedures.length)
    (hshorter : ∀ fewer < steps, body.Traced program code fewer ∧
      (Stmt.loop condition body).Traced program code fewer) :
    (Stmt.loop condition body).Traced program code steps := by
  intro function here after store registers outer memory hstore hlaid hrun
  cases hlaid with
  | loop next htest hfirst hlast hbody =>
    obtain ⟨fewer, hlt, hrest⟩ := Module.rest_of_step (step_jump htest _) hrun
    cases hresult : condition.eval store with
    | none => exact absurd hrest (stuck_fork hcode.cells hfits.1 hstore next _ _ _ hresult _ _)
    | some holds =>
      cases holds with
      | false =>
        obtain ⟨last, hfork⟩ := reaches_fork hcode.cells hfits.1 hstore next _ _ _ hresult hlast
        obtain ⟨least, hle, hleast⟩ := hfork.rest hrest
        exact ⟨_, store, _, .loopDone hresult, ⟨last, rfl⟩, least, by omega, hleast⟩
      | true =>
        obtain ⟨inside, hfork⟩ := reaches_fork hcode.cells hfits.1 hstore next _ _ _ hresult hfirst
        obtain ⟨less, hle, hless⟩ := hfork.rest hrest
        obtain ⟨exit, middle, machine, hruns, harrives, least, hle', hleast⟩ :=
          (hshorter less (by omega)).1 hstore hbody hless
        cases exit with
        | finished =>
          obtain ⟨registers, rfl⟩ := harrives
          obtain ⟨exit, last, machine, hruns', harrives, final, hle'', hfinal⟩ :=
            (hshorter least (by omega)).2 (hruns.within hcode hfits.2 hstore)
              (.loop next htest hfirst hlast hbody) hleast
          exact ⟨exit, last, machine, .loopAgain hresult hruns hruns', harrives, final,
            by omega, hfinal⟩
        | returned =>
          exact ⟨_, middle, machine, .loopReturned hresult hruns, harrives, least, by omega, hleast⟩

theorem Stmt.traced (hcode : program.Ready code) (steps : Nat)
    (hfits : stmt.Fits program.cells program.procedures.length) :
    stmt.Traced program code steps := by
  -- Calls and loops go on to other statements, but in fewer steps; the parts of a statement
  -- are smaller, but may take as many steps as the whole.
  induction steps using Nat.strongRecOn generalizing stmt with
  | ind steps ih =>
    have hwhole : ∀ fewer ≤ steps, stmt.Traced program code fewer := by
      induction stmt with
      | skip =>
        intro fewer _ function here after store registers outer memory hstore hlaid hrun
        cases hlaid
        exact ⟨_, store, _, .skip, ⟨registers, rfl⟩, fewer, Nat.le_refl _, hrun⟩
      | seq first second ihfirst ihsecond =>
        intro fewer hle
        refine .seq hcode hfits.1 (ihfirst hfits.1 fewer hle) fun least hleast => ?_
        exact ihsecond hfits.2 least (Nat.le_trans hleast hle)
      | assign target type value => exact fun fewer _ => traced_assign hcode hfits.1 hfits.2 fewer
      | call callee =>
        intro fewer hle
        refine traced_call hcode hfits fun body hbody least hlt => ?_
        exact ih least (Nat.lt_of_lt_of_le hlt hle) (hcode.bodies body hbody)
      | branch condition yes no ihyes ihno =>
        intro fewer hle
        refine .branch hcode hfits.1 fun holds least hleast => ?_
        cases holds with
        | true => exact ihyes hfits.2.1 least (Nat.le_trans hleast hle)
        | false => exact ihno hfits.2.2 least (Nat.le_trans hleast hle)
      | loop condition body ihbody =>
        intro fewer hle
        refine traced_loop hcode hfits fun least hlt => ?_
        have hleast := Nat.lt_of_lt_of_le hlt hle
        exact ⟨ih least hleast hfits.2, ih least hleast hfits⟩
      | ret =>
        intro fewer _ function here after store registers outer memory hstore hlaid hrun
        cases hlaid
        exact ⟨_, store, _, .ret, rfl, (Module.Reaches.of_step rfl).rest hrun⟩
    exact hwhole steps (Nat.le_refl _)

end Core

end BlockLang
