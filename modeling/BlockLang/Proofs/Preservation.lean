import BlockLang.Proofs.Core.Simulation
import BlockLang.Proofs.Tree.Whole
import BlockLang.Proofs.Unit

/-! The code of a unit means what its source means: run from its outermost procedure, it
stops with certain words in its globals exactly if the program ends with those numbers in
its cells. -/

namespace BlockLang

open Code

namespace Code.Module

variable {code : Module} {program : Core.Program}

/-- The blocks of a function are those of its procedure's draft. -/
theorem Implements.instrsAt?_eq (h : code.Implements program) {id : Nat} {body : Core.Stmt}
    (hbody : program.procedures[id]? = some body) : code.instrsAt? id = body.draft.block? := by
  have hsketch : (code.functions.map Function.sketch)[id]? = some body.sketch := by
    rw [h.functions, List.getElem?_map, hbody]
    rfl
  rw [List.getElem?_map] at hsketch
  obtain ⟨function, hfunction, hsame⟩ := Option.map_eq_some_iff.1 hsketch
  have hblocks : function.blocks = body.draft.blocks := congrArg Prod.fst hsame
  funext block
  unfold instrsAt? Draft.block?
  rw [hfunction, ← hblocks]
  change (function.blocks[block]? >>= fun block => pure block.instrs) = _
  exact Option.map_eq_bind.symm

theorem Implements.ready (h : code.Implements program) (hformed : program.Formed) :
    program.Ready code := by
  refine ⟨hformed, fun id body hbody => ?_⟩
  rw [h.instrsAt?_eq hbody]
  exact body.laid_draft

/-- The code starts with the numbers that the program starts with. -/
theorem Implements.memory_eq (h : code.Implements program) :
    code.globals.map (fun global => Word.mk global.type.bits 0) =
      Core.Store.words (fun _ => 0) program.cells := by
  have hwords : code.globals.map (fun global => Word.mk global.type.bits 0) =
      (code.globals.map Global.type).map fun type => Word.mk type.bits 0 := by
    rw [List.map_map]
    rfl
  rw [hwords, h.globals]
  apply List.ext_getElem?
  intro id
  simp only [Core.Store.words, List.getElem?_map, List.getElem?_mapIdx]
  cases program.cells[id]? <;> rfl

theorem run_from_stopped {steps : Nat} {first last : List Word}
    (h : code.run steps ⟨first, []⟩ = some ⟨last, []⟩) : first = last := by
  cases steps with
  | zero =>
    cases h
    rfl
  | succ steps =>
    rw [run_stopped] at h
    cases h

/-- The code stops with the same numbers as the program. -/
theorem Implements.stops_iff (h : code.Implements program) (hformed : program.Formed)
    (memory : List Word) : code.Stops 0 memory ↔
      ∃ store, program.Ends store ∧ memory = store.words program.cells := by
  have hready := h.ready hformed
  have hzero : Core.Store.Within program.cells fun _ => 0 := by
    intro id type _
    have hwrap := type.contains_wrap 0
    rwa [show type.wrap 0 = 0 by simp [IntType.wrap]] at hwrap
  constructor
  · rintro ⟨machine, steps, hboot, hrun⟩
    obtain ⟨start, hstart, hmachine⟩ := Option.bind_eq_some_iff.1 hboot
    obtain ⟨function, hfunction, -⟩ := Option.bind_eq_some_iff.1 hstart
    obtain ⟨body, hbody, -⟩ := h.function hfunction
    obtain ⟨entry, behind, hentry, hlaid⟩ := hready.laid 0 body hbody
    cases hstart.symm.trans hentry
    cases hmachine
    rw [h.memory_eq] at hrun
    have hfits := hformed.bodies body (List.mem_of_getElem? hbody)
    obtain ⟨exit, store, machine, hruns, harrives, fewer, -, hfewer⟩ :=
      Core.Stmt.traced hready steps hfits hzero hlaid hrun
    obtain ⟨rest, -, hrest⟩ := harrives.ret.rest hfewer
    exact ⟨store, ⟨body, exit, hbody, hruns⟩, (run_from_stopped hrest).symm⟩
  · rintro ⟨store, ⟨body, exit, hbody, hruns⟩, rfl⟩
    obtain ⟨entry, behind, hentry, hlaid⟩ := hready.laid 0 body hbody
    obtain ⟨machine, harrives, hreaches⟩ :=
      hruns.reaches hready (hformed.bodies body (List.mem_of_getElem? hbody)) hzero hlaid
        (fun _ => none) []
    obtain ⟨steps, hsteps⟩ := hreaches.trans harrives.ret
    refine ⟨_, steps, ?_, hsteps⟩
    rw [boot?, hentry, h.memory_eq]
    rfl

end Code.Module

/-- The code of a unit that was taken in preserves the meaning of its source. The tokens of
the source spell one tree, and the tree stands for a program. For every cell of the program
the code has a global of the cell's type. Run from the function of the outermost procedure,
with 0 in all globals, the code stops with the given words in the globals exactly if the
program ends with the numbers they stand for in its cells. -/
theorem readUnit_preserves_meaning (file source : String) (session : Session)
    (h : readUnit file source = .ok () session) :
    ∃ tokens span tree program, Token.scan source = .ok (tokens ++ [⟨.eof, span⟩]) ∧
      tree.decls.Spells tokens ∧ (∀ decls : Tree.Decls, decls.Spells tokens → decls = tree.decls) ∧
      Tree.Program.resolve tree = some program ∧
      session.builder.code.globals.map Global.type = program.cells.map IntType.backend ∧
      ∃ id function block, session.procedures = [id] ∧
        session.forest.meaning? id = some (.procedure function block) ∧
        ∀ memory, session.builder.code.Stops function memory ↔
          ∃ store, program.Ends store ∧ memory = store.words program.cells := by
  obtain ⟨program, hprogram, hformed, -, hcode, id, block, hprocedures, hmeaning⟩ := readUnit_ok h
  obtain ⟨tokens, htokens, hresolve⟩ := Option.bind_eq_some_iff.1 hprogram
  have hscan : Token.scan source = .ok tokens := by
    cases hscan : Token.scan source with
    | error error =>
      rw [hscan] at htokens
      cases htokens
    | ok others =>
      rw [hscan] at htokens
      cases htokens
      rfl
  obtain ⟨body, span, rfl, hendless⟩ := Token.scanFrom_ends _ _ _ hscan
  obtain ⟨hspells, hunique⟩ := Tree.Program.spells_ofTokens hendless hresolve
  exact ⟨body, span, _, program, hscan, hspells, hunique, hresolve, hcode.globals, id, 0, block,
    hprocedures, hmeaning, hcode.stops_iff hformed⟩

/-- Whether the code, run from the outermost procedure, stops after so many steps with the
given words. -/
def Session.stopsAfter (steps : Nat) (memory : List Word) (session : Session) : Bool :=
  match session.procedures.head?.bind session.forest.meaning? with
  | some (.procedure function _) =>
    match session.builder.code.boot? function >>= session.builder.code.run steps with
    | some ⟨last, []⟩ => last == memory
    | _ => false
  | _ => false

/-- A loop that calls a procedure, which once returns early. -/
def countdown : String :=
  "VAR S: INT32; PROCEDURE P; VAR N: UINT8; " ++
  "PROCEDURE Q; BEGIN IF N=1 THEN RETURN; S := 0 END; S := S-N END; " ++
  "BEGIN N := 2; WHILE N>0 DO Q; N := N-1 END END."

theorem countdown_ends :
    ∃ session tree program store, readUnit "unit" countdown = .ok () session ∧
      Tree.Program.resolve tree = some program ∧ program.Ends store ∧
      store.words program.cells = [⟨32, -2⟩, ⟨8, 0⟩] := by
  have hreads : readsTo "unit" countdown (Session.stopsAfter 45 [⟨32, -2⟩, ⟨8, 0⟩]) := by
    decide +kernel
  obtain ⟨session, h, hstops⟩ := readsTo_iff.1 hreads
  obtain ⟨tokens, span, tree, program, -, -, -, hresolve, -, id, function, block, hprocedures,
    hmeaning, hiff⟩ := readUnit_preserves_meaning "unit" countdown session h
  unfold Session.stopsAfter at hstops
  rw [hprocedures, List.head?_cons, Option.bind_some, hmeaning] at hstops
  dsimp only at hstops
  split at hstops
  · next last hrun =>
    obtain ⟨machine, hboot, hrun⟩ := Option.bind_eq_some_iff.1 hrun
    obtain rfl := eq_of_beq hstops
    obtain ⟨store, hends, hwords⟩ := (hiff _).1 ⟨machine, 45, hboot, hrun⟩
    exact ⟨session, tree, program, store, h, hresolve, hends, hwords.symm⟩
  · cases hstops

end BlockLang
