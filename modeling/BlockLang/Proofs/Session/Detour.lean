import BlockLang.Proofs.Balance
import BlockLang.Proofs.Code.Machine
import BlockLang.Proofs.Code.Store
import BlockLang.Proofs.Session.Met

/-! Procedures that are opened inside another one. However deep they go, nothing is done to
the procedures around them, and closing one goes back to where the one around it was. -/

namespace BlockLang

open Code Names

/-- The calls that add an instruction at the cursor. -/
inductive Code.Build.Instructs : {α : Type} → Build α → Prop
  | load (source : GlobalId) : Instructs (load source)
  | store (value : Value) (target : GlobalId) : Instructs (store value target)
  | binary (op : BinOp) (left right : Value) : Instructs (binary op left right)
  | compare (predicate : Predicate) (left right : Value) :
    Instructs (compare predicate left right)
  | intCast (value : Value) (type : Ty) (signed : Bool) : Instructs (intCast value type signed)
  | call (callee : FunctionId) : Instructs (call callee)
  | jump (target : BlockRef) : Instructs (jump target)
  | fork (condition : Value) (yes no : BlockRef) : Instructs (fork condition yes no)
  | ret : Instructs ret

namespace Session

/-- The symbol is there and stands for nothing yet. -/
def Untold (session : Session) (id : SymbolId) : Prop :=
  ∃ symbol, session.forest.symbols[id]? = some symbol ∧ symbol.meaning? = none

/-- What can be done in one step while a procedure is open, without opening another one. -/
inductive Allows (session : Session) : {α : Type} → Compiler α → Prop
  | enterScope : Allows session Compiler.enterScope
  | leaveScope : Allows session Compiler.leaveScope
  | add (name : String) : Allows session (Compiler.add name)
  | declareLiteral {id : SymbolId} (text : String) (h : session.Untold id) :
    Allows session (Compiler.declareLiteral id text)
  | declareCell {id : SymbolId} (type : IntType) (h : session.Untold id) :
    Allows session (Compiler.declareCell id type)
  | appendBlock (label : String) : Allows session (Compiler.appendBlock label)
  | setCurrentBlock {block : BlockRef} (h : session.Owns block) :
    Allows session (Compiler.setCurrentBlock block)
  | build {α : Type} {step : Build α} (h : step.Instructs) : Allows session (Compiler.build step)

/-- Work in the innermost open procedure, in the course of which others are opened and closed
again. It is listed with the session before and the session after each of its steps. -/
inductive Works : Session → List (Session × Session) → Session → Prop
  | done (session : Session) : Works session [] session
  | step {α : Type} {session last : Session} {step : Compiler α}
    {moments : List (Session × Session)} (hstep : session.Allows step)
    (hrest : Works (session.after step) moments last) :
    Works session ((session, session.after step) :: moments) last
  | detour {session middle last : Session} {id : SymbolId} {inner moments : List (Session × Session)}
    (hid : session.Untold id)
    (hinner : Works (session.after (Compiler.beginProcedure id)) inner middle)
    (hrest : Works (middle.after Compiler.endProcedure) moments last) :
    Works session ((session, session.after (Compiler.beginProcedure id)) :: inner ++
      (middle, middle.after Compiler.endProcedure) :: moments) last

/-- The function of the innermost open procedure. -/
def Inside (session : Session) (function : FunctionId) : Prop :=
  ∃ id rest, session.procedures = id :: rest ∧ session.StandsFor id function

/-- The instructions at `place`; there are none where there is no block. -/
def written (session : Session) (place : BlockRef) : List Instr :=
  (session.builder.code.instrsAt? place.function place.block).getD []

end Session

/-- The instructions of a block of the function. -/
def Code.Function.instrsAt (function : Function) (block : BlockId) : List Instr :=
  (function.blocks[block]?.map Block.instrs).getD []

namespace Session

variable {home : FunctionId} {session before after : Session}

theorem written_eq (session : Session) (place : BlockRef) :
    session.written place = (session.builder.code.functions[place.function]?.map
      fun function => function.instrsAt place.block).getD [] := by
  unfold written Module.instrsAt? Function.instrsAt
  cases session.builder.code.functions[place.function]? with
  | none => rfl
  | some function =>
    cases hblock : function.blocks[place.block]? <;> simp [hblock]

/-- The innermost open procedure has the function `home`, and the cursor stands there. -/
structure Home (session : Session) (home : FunctionId) : Prop where
  inside : session.Inside home
  cursor : ∃ place, session.builder.cursor = some place ∧ place.function = home
  made : home < session.builder.code.functions.length

/-- What work in a procedure with the function `home` leaves as it was. -/
structure Around (home : FunctionId) (before after : Session) : Prop where
  procedures : after.procedures = before.procedures
  meanings : ∀ id meaning, id ∉ before.procedures.head? →
    before.forest.meaning? id = some meaning → after.forest.meaning? id = some meaning
  functions : ∀ id function, id ≠ home → before.builder.code.functions[id]? = some function →
    after.builder.code.functions[id]? = some function
  made : before.builder.code.functions.length ≤ after.builder.code.functions.length

/-- Blocks gain instructions at their end, and only those of the function `home` do. -/
def Emits (home : FunctionId) (before after : Session) : Prop :=
  ∀ place, ∃ emitted, after.written place = before.written place ++ emitted ∧
    (emitted ≠ [] → place.function = home)

/-- Work that starts in the function `home` stays there. -/
def Abides (home : FunctionId) (before after : Session) : Prop :=
  before.Home home → after.Home home ∧ before.Around home after ∧ before.Emits home after

theorem Around.refl (home : FunctionId) (session : Session) : session.Around home session :=
  ⟨rfl, fun _ _ _ h => h, fun _ _ _ h => h, Nat.le_refl _⟩

theorem Around.trans {middle : Session} (h : before.Around home middle)
    (h' : middle.Around home after) : before.Around home after where
  procedures := h'.procedures.trans h.procedures
  meanings := by
    intro id meaning hid hmeaning
    apply h'.meanings id meaning (h.procedures ▸ hid)
    exact h.meanings id meaning hid hmeaning
  functions := by
    intro id function hid hfunction
    exact h'.functions id function hid (h.functions id function hid hfunction)
  made := Nat.le_trans h.made h'.made

theorem emits_of_written (h : ∀ place, after.written place = before.written place) :
    before.Emits home after := by
  intro place
  refine ⟨[], ?_, fun hne => absurd rfl hne⟩
  rw [h place, List.append_nil]

theorem Emits.trans {middle : Session} (h : before.Emits home middle)
    (h' : middle.Emits home after) : before.Emits home after := by
  intro place
  obtain ⟨first, hfirst, hhome⟩ := h place
  obtain ⟨second, hsecond, hhome'⟩ := h' place
  refine ⟨first ++ second, ?_, fun hne => ?_⟩
  · rw [hsecond, hfirst, List.append_assoc]
  · by_cases hempty : first = []
    · apply hhome'
      rintro rfl
      exact hne (by rw [hempty, List.append_nil])
    · exact hhome hempty

instance : IsPreorder Session (Abides home) where
  refl session hhome := ⟨hhome, .refl home session, emits_of_written fun _ => rfl⟩
  trans _ _ _ h h' hhome := by
    obtain ⟨hmiddle, haround, hemits⟩ := h hhome
    obtain ⟨hlast, haround', hemits'⟩ := h' hmiddle
    exact ⟨hlast, haround.trans haround', hemits.trans hemits'⟩

/-- The code is the same, the procedures are, and so is what symbols stand for but for the block
that the innermost procedure has reached. -/
theorem abides_of_code (hcode : after.builder.code.functions = before.builder.code.functions)
    (hprocedures : after.procedures = before.procedures)
    (hcursor : (∃ place, before.builder.cursor = some place ∧ place.function = home) →
      ∃ place, after.builder.cursor = some place ∧ place.function = home)
    (hinside : before.Inside home → after.Inside home)
    (hmeanings : ∀ id meaning, id ∉ before.procedures.head? →
      before.forest.meaning? id = some meaning → after.forest.meaning? id = some meaning) :
    Abides home before after := by
  intro hhome
  refine ⟨⟨hinside hhome.inside, hcursor hhome.cursor, by rw [hcode]; exact hhome.made⟩,
    ⟨hprocedures, hmeanings, fun id function _ h => by rw [hcode]; exact h,
      Nat.le_of_eq (congrArg List.length hcode).symm⟩, emits_of_written fun place => ?_⟩
  rw [written_eq, written_eq, hcode]

theorem SameWork.abides (h : before.SameWork after) : Abides home before after := by
  apply abides_of_code (by rw [h.builder]) h.procedures
  · rw [h.builder]
    exact id
  · rintro ⟨id, rest, hopen, block, hblock⟩
    exact ⟨id, rest, h.procedures.trans hopen, block, (h.meanings id).trans hblock⟩
  · intro id meaning _ hmeaning
    exact (h.meanings id).trans hmeaning

/-- A symbol is told something, or the innermost procedure is told where it has got to. -/
theorem abides_withSymbol {id : SymbolId} {found changed : Symbol}
    (hfound : before.forest.symbols[id]? = some found)
    (h : ∀ meaning, found.meaning? = some meaning → id ∈ before.procedures.head? ∧
      ∀ function block, meaning = .procedure function block →
        ∃ last, changed.meaning? = some (.procedure function last)) :
    Abides home before (before.withSymbol id changed) := by
  have hid := (List.getElem?_eq_some_iff.1 hfound).1
  have hbefore : before.forest.meaning? id = found.meaning? := by
    unfold Forest.meaning?
    rw [hfound]
    rfl
  have hafter (other : SymbolId) : (before.withSymbol id changed).forest.meaning? other =
      if id = other then changed.meaning? else before.forest.meaning? other :=
    Forest.meaning?_withSymbol hid changed other
  refine abides_of_code rfl rfl (fun hcursor => hcursor) ?_ ?_
  · rintro ⟨head, rest, hopen, block, hblock⟩
    refine ⟨head, rest, hopen, ?_⟩
    unfold StandsFor
    rw [hafter]
    by_cases hsame : id = head
    · subst hsame
      rw [if_pos rfl]
      exact (h _ (hbefore.symm.trans hblock)).2 home block rfl
    · rw [if_neg hsame]
      exact ⟨block, hblock⟩
  · intro other meaning hother hmeaning
    rw [hafter, if_neg]
    · exact hmeaning
    · rintro rfl
      exact hother (h meaning (hbefore.symm.trans hmeaning)).1

/-- The function `home` is changed, and its blocks gain instructions at most. -/
theorem abides_modifyFunction {change : Function → Function}
    (h : ∀ function block, ∃ emitted,
      (change function).instrsAt block = function.instrsAt block ++ emitted) :
    Abides home before
      { before with builder.code := before.builder.code.modifyFunction home change } := by
  intro hhome
  have hfunctions (id : FunctionId) :
      (before.builder.code.modifyFunction home change).functions[id]? =
        if home = id then before.builder.code.functions[id]?.map change
        else before.builder.code.functions[id]? :=
    Module.functions_modifyFunction change id
  have hlength : (before.builder.code.modifyFunction home change).functions.length =
      before.builder.code.functions.length := by
    simp [Module.modifyFunction]
  refine ⟨⟨hhome.inside, hhome.cursor, ?_⟩, ⟨rfl, fun _ _ _ hmeaning => hmeaning, ?_, ?_⟩, ?_⟩
  · exact hlength ▸ hhome.made
  · intro id function hid hfunction
    rw [hfunctions, if_neg (Ne.symm hid)]
    exact hfunction
  · exact Nat.le_of_eq hlength.symm
  · intro place
    rw [written_eq, written_eq, hfunctions]
    by_cases hplace : home = place.function
    · rw [if_pos hplace]
      cases before.builder.code.functions[place.function]? with
      | none => exact ⟨[], rfl, fun hne => absurd rfl hne⟩
      | some function =>
        obtain ⟨emitted, hemitted⟩ := h function place.block
        exact ⟨emitted, hemitted, fun _ => hplace.symm⟩
    · rw [if_neg hplace]
      exact ⟨[], (List.append_nil _).symm, fun hne => absurd rfl hne⟩

end Session

namespace Code.Function

theorem instrsAt_of_blocks {first second : Function} (h : first.blocks = second.blocks)
    (block : BlockId) : first.instrsAt block = second.instrsAt block := by
  rw [instrsAt, h, instrsAt]

/-- A new block is empty. -/
theorem instrsAt_addBlock (function : Function) (label : String) (block : BlockId) :
    (function.addBlock label).instrsAt block = function.instrsAt block := by
  unfold instrsAt addBlock
  dsimp only
  rw [List.getElem?_append]
  split
  · rfl
  · next hlength =>
    rw [List.getElem?_eq_none (Nat.le_of_not_lt hlength)]
    rcases block - function.blocks.length with _ | _ <;> rfl

theorem instrsAt_push (function : Function) (target : BlockId) (instr : Instr) (block : BlockId) :
    ∃ emitted, (function.push target instr).instrsAt block = function.instrsAt block ++ emitted := by
  unfold instrsAt push
  dsimp only
  rw [List.getElem?_modify]
  by_cases htarget : target = block
  · cases function.blocks[block]? with
    | none => exact ⟨[], rfl⟩
    | some found => exact ⟨[instr], by simp [htarget]⟩
  · refine ⟨[], ?_⟩
    cases function.blocks[block]? <;> simp [htarget]

end Code.Function

namespace Compiler

open Session (Abides)

variable {home : FunctionId} {session : Session}

/-- The code of the function under the cursor is changed, or the change is refused. -/
theorem abides_build_here {α : Type} {action : BlockRef → Module → Except Fault (α × Module)}
    (h : ∀ place code value next, action place code = .ok (value, next) → ∃ change,
      next = code.modifyFunction place.function change ∧ ∀ function block, ∃ emitted,
        (change function).instrsAt block = function.instrsAt block ++ emitted) :
    Moves (Abides home) (build (Build.here >>= fun place => Build.change (action place))) := by
  intro session hhome
  obtain ⟨place, hcursor, hplace⟩ := hhome.cursor
  have hhere : build Build.here session = .ok place session := by
    rw [build_eq_ok (Build.here_of_cursor hcursor)]
  rw [build_bind, after_bind_ok hhere]
  cases haction : action place session.builder.code with
  | error fault =>
    rw [after_build_change_error haction]
    exact refl_of (Abides home) session hhome
  | ok result =>
    obtain ⟨value, next⟩ := result
    obtain ⟨change, rfl, hchange⟩ := h place _ value next haction
    rw [after_build_change_ok haction, hplace]
    exact Session.abides_modifyFunction hchange hhome

theorem abides_freshRegister (type : Ty) : Moves (Abides home) (build (Build.freshRegister type)) := by
  apply abides_build_here
  intro place code value next h
  obtain ⟨function, -, hnext⟩ := Except.exists_of_bind_eq_ok h
  cases hnext
  refine ⟨_, rfl, fun function block => ⟨[], ?_⟩⟩
  rw [List.append_nil]
  exact Function.instrsAt_of_blocks rfl block

theorem abides_emit (instr : Instr) : Moves (Abides home) (build (Build.emit instr)) := by
  apply abides_build_here
  intro place code value next h
  obtain ⟨pushed, hpush, hnext⟩ := Except.exists_of_bind_eq_ok h
  obtain ⟨_, -, hpushed⟩ := Except.exists_of_bind_eq_ok hpush
  cases hnext
  cases hpushed
  exact ⟨_, rfl, fun function block => function.instrsAt_push place.block instr block⟩

theorem abides_instructs {α : Type} {step : Build α} (h : step.Instructs) :
    Moves (Abides home) (build step) := by
  have hdefine (type : Ty) (instr : Value → Instr) : Moves (Abides home) (build do
      let dest ← Build.freshRegister type
      Build.emit (instr dest)
      return dest) :=
    moves_build_bind (abides_freshRegister type) fun dest =>
      moves_build_bind (abides_emit _) fun _ => moves_build_pure dest
  cases h with
  | load source => exact moves_build_bind (moves_build_view _) fun global => hdefine global.type _
  | store value target => exact abides_emit _
  | binary op left right => exact hdefine left.type _
  | compare predicate left right => exact hdefine (.int 1) _
  | intCast value type signed =>
    unfold Build.intCast
    split
    · exact moves_build_pure _
    · split
      · split
        · exact moves_build_pure _
        · exact moves_build_throw _
      · exact hdefine type _
  | call callee => exact abides_emit _
  | jump target => exact abides_emit _
  | fork condition yes no => exact abides_emit _
  | ret => exact abides_emit _

theorem abides_declare (id : SymbolId) (meaning : Meaning) :
    Moves (Abides home) (declare id meaning) := by
  intro session
  rcases declare_cases session id meaning with ⟨failure, h⟩ | ⟨found, hfound, hnone, h⟩
  · rw [after_error h]
    exact refl_of (Abides home) session
  · rw [after_ok h]
    apply Session.abides_withSymbol hfound
    intro other hother
    rw [hnone] at hother
    cases hother

theorem abides_createGlobal (name : String) (type : Ty) :
    Moves (Abides home) (build (Build.createGlobal name type)) := by
  intro session
  have haction : (fun code : Module => Except.ok (ε := Fault) (code.addGlobal name type))
      session.builder.code = .ok (session.builder.code.addGlobal name type) := rfl
  unfold Build.createGlobal
  rw [after_build_change_ok haction]
  exact Session.abides_of_code rfl rfl id id fun _ _ _ hmeaning => hmeaning

theorem abides_appendBlock (label : String) (hhome : session.Home home) :
    Abides home session (session.after (appendBlock label)) := by
  obtain ⟨id, rest, hprocedures, last, hlast⟩ := hhome.inside
  obtain ⟨found, hfound, hmeaning⟩ := Forest.symbol_of_meaning? hlast
  have hfunction := List.getElem?_eq_getElem hhome.made
  unfold appendBlock
  rw [after_bind_ok (currentProcedure_eq hprocedures), after_bind_ok (symbol_eq hfound),
    after_bind_ok (orFault_eq_ok _ (procedure_eq hmeaning))]
  unfold Build.appendBlock
  rw [after_build_change_ok (Module.appendBlock_eq hfunction label)]
  apply Session.abides_modifyFunction
  intro function block
  exact ⟨[], by rw [Function.instrsAt_addBlock, List.append_nil]⟩

theorem abides_setCurrentBlock {block : BlockRef} (hblock : block.function = home)
    (hhome : session.Home home) : Abides home session (session.after (setCurrentBlock block)) := by
  obtain ⟨id, rest, hprocedures, last, hlast⟩ := hhome.inside
  obtain ⟨found, hfound, hmeaning⟩ := Forest.symbol_of_meaning? hlast
  rw [after_ok (setCurrentBlock_eq hprocedures hfound hmeaning block)]
  have hparked : Abides home session (session.withSymbol id
      { found with meaning? := some (.procedure home block) }) := by
    apply Session.abides_withSymbol hfound
    rintro meaning hold
    rw [hmeaning] at hold
    cases hold
    refine ⟨by rw [hprocedures]; rfl, fun function old hold => ?_⟩
    cases hold
    exact ⟨block, rfl⟩
  apply trans_of (Abides home) hparked
  exact Session.abides_of_code rfl rfl (fun _ => ⟨block, rfl, hblock⟩) (fun hinside => hinside)
    fun _ _ _ hmeaning => hmeaning

/-- What is done in a procedure without opening another is done to its own function. -/
theorem abides_allowed {α : Type} {step : Compiler α} (h : session.Allows step)
    (hhome : session.Home home) : Abides home session (session.after step) := by
  have halike (before after : Session) (h : before.SameWork after) : Abides home before after := h.abides
  cases h with
  | enterScope => exact leads_enterScope halike session
  | leaveScope => exact leads_leaveScope halike session
  | add name => exact leads_add halike name session
  | declareLiteral text _ => exact leads_declareLiteral halike (abides_declare _ _) session
  | declareCell type _ =>
    exact leads_declareCell halike (fun _ => abides_createGlobal _ _) (fun _ => abides_declare _ _)
      session
  | appendBlock label => exact abides_appendBlock label hhome
  | setCurrentBlock howns =>
    apply abides_setCurrentBlock _ hhome
    obtain ⟨-, id, rest, block, hprocedures, hmeaning⟩ := howns
    obtain ⟨id', rest', hprocedures', block', hmeaning'⟩ := hhome.inside
    rw [hprocedures] at hprocedures'
    cases hprocedures'
    rw [hmeaning] at hmeaning'
    cases hmeaning'
    rfl
  | build hinstructs => exact abides_instructs hinstructs session

end Compiler

namespace Session

variable {session middle last opened : Session} {home : FunctionId} {id outer : SymbolId}
  {block : BlockRef} {moments : List (Session × Session)}

/-- A new function has nothing in it. -/
theorem written_withFunction (session : Session) (name : String) (internal : Bool)
    (place : BlockRef) : (session.withFunction name internal).written place = session.written place := by
  rw [written_eq, written_eq]
  change ((session.builder.code.functions ++ [_])[place.function]?.map _).getD [] = _
  rw [List.getElem?_append]
  split
  · rfl
  · next hlength =>
    rw [List.getElem?_eq_none (Nat.le_of_not_lt hlength)]
    rcases place.function - session.builder.code.functions.length with _ | _
    · rcases hblock : place.block with _ | _ <;> rfl
    · rfl

/-- The procedure `id` has just been opened inside `outer`, which knows where it had got to. -/
structure Opens (session : Session) (outer id : SymbolId) (block : BlockRef) (opened : Session) :
    Prop where
  run : Compiler.beginProcedure id session = .ok () opened
  untold : session.forest.meaning? id = none
  apart : id ≠ outer
  procedures : opened.procedures = id :: session.procedures
  home : opened.Home session.builder.code.functions.length
  parked : ∀ function, session.StandsFor outer function →
    opened.forest.meaning? outer = some (.procedure function block)
  meanings : ∀ other meaning, other ≠ outer → session.forest.meaning? other = some meaning →
    opened.forest.meaning? other = some meaning
  functions : ∀ (other : FunctionId) function,
    session.builder.code.functions[other]? = some function →
      opened.builder.code.functions[other]? = some function
  made : session.builder.code.functions.length < opened.builder.code.functions.length
  written : ∀ place, opened.written place = session.written place

theorem opens {rest : List SymbolId} {function : FunctionId}
    (hprocedures : session.procedures = outer :: rest) (houter : session.StandsFor outer function)
    (hcursor : session.builder.cursor = some block) (hid : session.Untold id) :
    ∃ opened, session.Opens outer id block opened := by
  obtain ⟨old, hold⟩ := houter
  obtain ⟨around, haround, hmeaning⟩ := Forest.symbol_of_meaning? hold
  obtain ⟨found, hfound, hnone⟩ := hid
  have hrun := Compiler.beginProcedure_nested hfound hnone hprocedures haround hmeaning hcursor
  have hne : id ≠ outer := by
    rintro rfl
    rw [hfound] at haround
    cases haround
    rw [hnone] at hmeaning
    cases hmeaning
  have huntold : session.forest.meaning? id = none := by
    unfold Forest.meaning?
    rw [hfound]
    exact hnone
  let parked := session.forest.withSymbol outer
    { around with meaning? := some (.procedure function block) }
  let new := session.builder.code.functions.length
  have hparked (other : SymbolId) : parked.meaning? other =
      if outer = other then some (.procedure function block) else session.forest.meaning? other :=
    Forest.meaning?_withSymbol (List.getElem?_eq_some_iff.1 haround).1 _ other
  have hid : id < parked.symbols.length := by
    simp only [parked, Forest.withSymbol, List.length_set]
    exact (List.getElem?_eq_some_iff.1 hfound).1
  have hafter (other : SymbolId) : (parked.withSymbol id
      { found with meaning? := some (.procedure new ⟨new, 0⟩) }).meaning? other =
        if id = other then some (.procedure new ⟨new, 0⟩) else parked.meaning? other :=
    Forest.meaning?_withSymbol hid _ other
  refine ⟨_, hrun, huntold, hne, rfl, ⟨⟨id, session.procedures, rfl, ⟨new, 0⟩, ?_⟩,
    ⟨⟨new, 0⟩, rfl, rfl⟩, ?_⟩, ?_, ?_, ?_, ?_, ?_⟩
  · exact (hafter id).trans (if_pos rfl)
  · change new < (session.builder.code.functions ++ [_]).length
    simp [new]
  · rintro other ⟨before, hbefore⟩
    rw [hold] at hbefore
    cases hbefore
    exact (hafter outer).trans ((if_neg hne).trans ((hparked outer).trans (if_pos rfl)))
  · intro other meaning hother hkept
    have hdiffers : id ≠ other := by
      rintro rfl
      rw [huntold] at hkept
      cases hkept
    exact (hafter other).trans ((if_neg hdiffers).trans ((hparked other).trans
      ((if_neg (Ne.symm hother)).trans hkept)))
  · intro other existing hexisting
    change (session.builder.code.functions ++ [_])[other]? = _
    rw [List.getElem?_append_left (List.getElem?_eq_some_iff.1 hexisting).1]
    exact hexisting
  · change new < (session.builder.code.functions ++ [_]).length
    simp [new]
  · exact fun place => written_withFunction session _ true place

/-- What a procedure opened inside another one does not touch: the procedures around it, what
symbols stand for, and the functions that there were. -/
structure Spared (before after : Session) : Prop where
  procedures : after.procedures = before.procedures
  meanings : ∀ id meaning, id ∉ before.procedures.head? →
    before.forest.meaning? id = some meaning → after.forest.meaning? id = some meaning
  functions : ∀ (id : FunctionId) function, before.builder.code.functions[id]? = some function →
    after.builder.code.functions[id]? = some function

/-- What was opened is closed again after any work in it. -/
theorem Opens.closes {rest : List SymbolId} {function : FunctionId}
    (h : session.Opens outer id block opened) (hprocedures : session.procedures = outer :: rest)
    (houter : session.StandsFor outer function)
    (hhome : middle.Home session.builder.code.functions.length)
    (haround : opened.Around session.builder.code.functions.length middle) :
    ∃ last, Compiler.endProcedure middle = .ok () last ∧ session.Spared last ∧
      last.StandsFor outer function ∧ last.builder.cursor = some block ∧
        last.builder.code = middle.builder.code := by
  have hstack : middle.procedures = id :: outer :: rest := by
    rw [haround.procedures, h.procedures, hprocedures]
  have hkept (other : SymbolId) (meaning : Meaning) (hother : id ≠ other)
      (hmeaning : opened.forest.meaning? other = some meaning) :
      middle.forest.meaning? other = some meaning := by
    refine haround.meanings other meaning ?_ hmeaning
    rw [h.procedures]
    rintro ⟨⟩
    exact hother rfl
  have hparked := hkept outer _ h.apart (h.parked function houter)
  obtain ⟨around, hsymbol, hmeaning⟩ := Forest.symbol_of_meaning? hparked
  obtain ⟨head, others, hopen, entry, hentry⟩ := hhome.inside
  rw [hstack] at hopen
  cases hopen
  obtain ⟨found, hfound, -⟩ := Forest.symbol_of_meaning? hentry
  refine ⟨_, Compiler.endProcedure_nested hstack hfound hsymbol hmeaning,
    ⟨hprocedures.symm, ?_, ?_⟩, ⟨block, hparked⟩, rfl, rfl⟩
  · intro other meaning hother hbefore
    have hne : other ≠ outer := by
      rintro rfl
      exact hother (by rw [hprocedures]; rfl)
    apply hkept other meaning _ (h.meanings other meaning hne hbefore)
    rintro rfl
    rw [h.untold] at hbefore
    cases hbefore
  · intro other existing hexisting
    have hlt := (List.getElem?_eq_some_iff.1 hexisting).1
    exact haround.functions other existing (Nat.ne_of_lt hlt) (h.functions other existing hexisting)

/-- Each step adds instructions to the function of the procedure then open at most, which is one
that came after the first `floor` functions and is there in the end. -/
def Traced (floor : Nat) (last : Session) (moments : List (Session × Session)) : Prop :=
  ∀ moment ∈ moments, ∀ place, ∃ emitted,
    moment.2.written place = moment.1.written place ++ emitted ∧ (emitted ≠ [] →
      moment.1.Inside place.function ∧ floor ≤ place.function ∧
        place.function < last.builder.code.functions.length)

theorem Traced.mono {floor : Nat} {later : Session} (h : Traced floor last moments)
    (hmade : last.builder.code.functions.length ≤ later.builder.code.functions.length) :
    Traced floor later moments := by
  intro moment hmoment place
  obtain ⟨emitted, hemitted, hwhere⟩ := h moment hmoment place
  refine ⟨emitted, hemitted, fun hne => ?_⟩
  obtain ⟨hinside, hfloor, hlast⟩ := hwhere hne
  exact ⟨hinside, hfloor, Nat.lt_of_lt_of_le hlast hmade⟩

/-- A step that adds no instruction. -/
theorem traced_of_written {floor : Nat} {before after : Session}
    (h : ∀ place, after.written place = before.written place)
    (hrest : Traced floor last moments) : Traced floor last ((before, after) :: moments) := by
  apply List.forall_mem_cons.2 ⟨fun place => ⟨[], ?_, fun hne => absurd rfl hne⟩, hrest⟩
  rw [List.append_nil]
  exact h place

theorem traced_append {floor : Nat} {more : List (Session × Session)}
    (h : Traced floor last moments) (hmore : Traced floor last more) :
    Traced floor last (moments ++ more) :=
  List.forall_mem_append.2 ⟨h, hmore⟩

/-- The steps of a procedure opened inside another one, with those that open and close it. -/
theorem Opens.traced {floor : Nat} (h : session.Opens outer id block opened)
    (hcode : last.builder.code = middle.builder.code) (htraced : Traced floor middle moments) :
    Traced floor last ((session, opened) :: moments ++ [(middle, last)]) := by
  apply traced_of_written h.written
  apply traced_append
  · exact htraced.mono (Nat.le_of_eq (by rw [hcode]))
  · have hwritten (place : BlockRef) : last.written place = middle.written place := by
      rw [Session.written, Session.written, hcode]
    exact traced_of_written hwritten (List.forall_mem_nil _)

/-- All work in a procedure stays in it, and what it emits goes where it should. -/
theorem Works.abides (h : session.Works moments last) : ∀ (floor : Nat) (home : FunctionId),
    session.Home home → floor ≤ home → floor ≤ session.builder.code.functions.length →
      last.Home home ∧ session.Around home last ∧ Traced floor last moments := by
  induction h with
  | done session =>
    intro floor home hhome _ _
    exact ⟨hhome, .refl home session, List.forall_mem_nil _⟩
  | @step _ session last step moments hstep hrest ih =>
    intro floor home hhome hfloor hmade
    obtain ⟨hnext, haround, hemits⟩ := Compiler.abides_allowed hstep hhome hhome
    obtain ⟨hlast, haround', htraced⟩ := ih floor home hnext hfloor (Nat.le_trans hmade haround.made)
    refine ⟨hlast, haround.trans haround', List.forall_mem_cons.2 ⟨fun place => ?_, htraced⟩⟩
    obtain ⟨emitted, hemitted, hwhere⟩ := hemits place
    refine ⟨emitted, hemitted, fun hne => ?_⟩
    rw [hwhere hne]
    exact ⟨hhome.inside, hfloor, hlast.made⟩
  | @detour session middle last id inner moments hid hinner hrest ihinner ihrest =>
    intro floor home hhome hfloor hmade
    obtain ⟨outer, rest, hprocedures, houter⟩ := hhome.inside
    obtain ⟨place, hcursor, hplace⟩ := hhome.cursor
    obtain ⟨opened, hopens⟩ := opens hprocedures houter hcursor hid
    rw [Compiler.after_ok hopens.run] at ihinner ⊢
    have hgrown := Nat.le_trans hmade (Nat.le_of_lt hopens.made)
    obtain ⟨hmiddle, haround, htraced⟩ := ihinner floor _ hopens.home hmade hgrown
    obtain ⟨closed, hend, hspared, hback, hcursor', hcode⟩ :=
      hopens.closes hprocedures houter hmiddle haround
    rw [Compiler.after_ok hend] at ihrest ⊢
    have hlength : session.builder.code.functions.length ≤ closed.builder.code.functions.length := by
      rw [hcode]
      exact Nat.le_trans (Nat.le_of_lt hopens.made) haround.made
    have hclosed : closed.Home home :=
      ⟨⟨outer, rest, hspared.procedures.trans hprocedures, hback⟩, ⟨place, hcursor', hplace⟩,
        Nat.lt_of_lt_of_le hhome.made hlength⟩
    obtain ⟨hlast, haround', htraced'⟩ :=
      ihrest floor home hclosed hfloor (Nat.le_trans hmade hlength)
    have hkept : session.Around home closed :=
      ⟨hspared.procedures, hspared.meanings, fun id function _ => hspared.functions id function, hlength⟩
    refine ⟨hlast, hkept.trans haround', ?_⟩
    have hboth := traced_append ((hopens.traced hcode htraced).mono haround'.made) htraced'
    simpa using hboth

/-- A procedure is opened inside another one, any work is done there, and it is closed: then all
is as before around it, and what was emitted in the meantime is in functions made in the meantime,
each instruction in that of the procedure open at that moment. -/
theorem Met.detour_restores {file : String} (h : session.Met file) (hopen : session.procedures ≠ [])
    (hcursor : session.builder.cursor = some block) (hid : session.Untold id)
    (hworks : (session.after (Compiler.beginProcedure id)).Works moments middle) :
    ∃ opened last, Compiler.beginProcedure id session = .ok () opened ∧
      Compiler.endProcedure middle = .ok () last ∧
      last.procedures = session.procedures ∧ Compiler.currentBlock last = .ok block last ∧
      (∃ outermost, Compiler.outermostProcedure session = .ok outermost session ∧
        Compiler.outermostProcedure last = .ok outermost last) ∧
      (∀ (other : FunctionId) function, session.builder.code.functions[other]? = some function →
        last.builder.code.functions[other]? = some function) ∧
      ∀ moment ∈ (session, opened) :: moments ++ [(middle, last)], ∀ place, ∃ emitted,
        moment.2.written place = moment.1.written place ++ emitted ∧ (emitted ≠ [] →
          moment.1.Inside place.function ∧ session.builder.code.functions[place.function]? = none ∧
            ∃ function, last.builder.code.functions[place.function]? = some function) := by
  obtain ⟨outer, rest, hprocedures⟩ := List.exists_cons_of_ne_nil hopen
  obtain ⟨function, houter⟩ := h.standsFor outer (by rw [hprocedures]; exact List.mem_cons_self)
  obtain ⟨opened, hopens⟩ := opens hprocedures houter hcursor hid
  rw [Compiler.after_ok hopens.run] at hworks
  obtain ⟨hmiddle, haround, htraced⟩ := hworks.abides session.builder.code.functions.length _
    hopens.home (Nat.le_refl _) (Nat.le_of_lt hopens.made)
  obtain ⟨last, hend, hspared, -, hback, hcode⟩ :=
    hopens.closes hprocedures houter hmiddle haround
  have houtermost := List.getLast?_eq_getLast_of_ne_nil hopen
  refine ⟨opened, last, hopens.run, hend, hspared.procedures, Compiler.currentBlock_eq hback,
    ⟨session.procedures.getLast hopen, ?_, ?_⟩, hspared.functions, ?_⟩
  · exact outermostProcedure_eq houtermost
  · apply outermostProcedure_eq
    rw [hspared.procedures]
    exact houtermost
  · intro moment hmoment place
    obtain ⟨emitted, hemitted, hwhere⟩ := hopens.traced hcode htraced moment hmoment place
    refine ⟨emitted, hemitted, fun hne => ?_⟩
    obtain ⟨hinside, hfloor, hlast⟩ := hwhere hne
    exact ⟨hinside, List.getElem?_eq_none hfloor, _, List.getElem?_eq_getElem hlast⟩

/-- Two procedures have been opened, `A` and `B` in it, and two more names are declared. -/
private def twoDeep : Session :=
  (((((Session.start "T").after (Compiler.add "A")).after (Compiler.beginProcedure 0)).after
    (Compiler.add "B")).after (Compiler.add "C")).after (Compiler.beginProcedure 1)

private theorem twoDeep_met : twoDeep.Met "T" :=
  ((((Met.start.step (.add "A")).step (.beginProcedure 0)).step (.add "B")).step (.add "C")).step
    (.beginProcedure 1)

/-- In a third procedure a fourth one is opened and closed again, and then a block is added. -/
private theorem twoDeep_works : ∃ moments middle, moments.length = 7 ∧
    middle.written ⟨3, 0⟩ = [.ret] ∧ middle.written ⟨2, 1⟩ = [.call 0] ∧
      (twoDeep.after (Compiler.beginProcedure 2)).Works moments middle := by
  refine ⟨_, _, ?_, ?_, ?_, .step (.add "D") (.detour (show Untold _ 3 from ⟨_, rfl, rfl⟩)
    (.step (.build .ret) (.done _)) (.step (.appendBlock "more")
      (.step (.setCurrentBlock (show Owns _ ⟨2, 1⟩ from ?_)) (.step (.build (.call 0)) (.done _)))))⟩
  · rfl
  · rfl
  · rfl
  · exact ⟨⟨_, rfl, by decide +kernel⟩, 2, [1, 0], ⟨2, 0⟩, rfl, rfl⟩

theorem twoDeep_restored : ∃ moments middle opened last,
    (twoDeep.after (Compiler.beginProcedure 2)).Works moments middle ∧
      middle.written ⟨3, 0⟩ = [.ret] ∧ middle.written ⟨2, 1⟩ = [.call 0] ∧
        Compiler.beginProcedure 2 twoDeep = .ok () opened ∧
          Compiler.endProcedure middle = .ok () last ∧ last.procedures = [1, 0] ∧
            Compiler.currentBlock last = .ok ⟨1, 0⟩ last := by
  obtain ⟨moments, middle, -, hinner, houter, hworks⟩ := twoDeep_works
  obtain ⟨opened, last, hbegin, hend, hprocedures, hcurrent, -⟩ :=
    twoDeep_met.detour_restores (by decide +kernel) (show _ = some ⟨1, 0⟩ from rfl)
      (show Untold _ 2 from ⟨_, rfl, rfl⟩) hworks
  exact ⟨moments, middle, opened, last, hworks, hinner, houter, hbegin, hend, hprocedures, hcurrent⟩

end Session

end BlockLang
