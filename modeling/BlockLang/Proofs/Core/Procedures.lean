import BlockLang.Proofs.Core.Translation
import BlockLang.Proofs.Intake

/-! Carrying out a whole program makes the functions of what the program resolves to, one
for each procedure and in the order of their headings. -/

namespace BlockLang

open Code Names BlockLang.Core Compiler

namespace Session

variable {session : Session} {env declared : Env} {cells : List IntType} {sketches : List Sketch}

/-- The session has opened the procedure `id`. If there is a procedure around it, that one
has noted where it stands. -/
structure Begun (session : Session) (id : SymbolId) (begun : Session) : Prop where
  scope : begun.scope = session.scope
  procedures : begun.procedures = id :: session.procedures
  procedure : ∃ block, begun.forest.meaning? id =
    some (.procedure session.builder.code.functions.length block)
  parked : ∀ outer ∈ session.procedures.head?, ∃ function place,
    session.builder.cursor = some place ∧
      begun.forest.meaning? outer = some (.procedure function place)

private theorem functions_withFunction
    (h : session.builder.code.functions.map Function.sketch = sketches) (path : String)
    (internal : Bool) :
    (session.withFunction path internal).builder.code.functions.map Function.sketch =
      sketches ++ [Draft.entry.sketch] := by
  rw [← h]
  exact List.map_append

/-- Names keep what they stand for where one of them becomes a procedure. -/
private theorem entity?_begun {forest : Forest} {id : SymbolId} (hid : id < forest.symbols.length)
    (symbol : Symbol) (function : FunctionId) (block : BlockRef) (other : SymbolId) :
    (forest.withSymbol id { symbol with meaning? := some (.procedure function block) }).entity? other =
      if id = other then some (.procedure function) else forest.entity? other := by
  unfold Forest.entity?
  rw [Forest.meaning?_withSymbol hid]
  split <;> rfl

private theorem entity?_added (forest : Forest) (scope : ScopeId) (name : String)
    (other : SymbolId) : (forest.added scope name).entity? other = forest.entity? other := by
  unfold Forest.entity?
  rw [Forest.meaning?_added]

/-- A session writes a new procedure if it differs from the one before in the procedure's
name, its function and the cursor. -/
private theorem Shows.writing_begun (h : session.Shows env cells sketches) {name : String}
    (henv : env.declare? name (.procedure sketches.length) = some declared) {begun : Session}
    (hsound : begun.Sound) (hscope : begun.scope = session.scope)
    (hopened : begun.procedures ≠ [])
    (hscopes : begun.forest.scopes = (session.forest.added session.scope name).scopes)
    (hentity : ∀ other, begun.forest.entity? other = if other = session.forest.symbols.length then
      some (.procedure sketches.length) else session.forest.entity? other)
    (hglobals : begun.builder.code.globals = session.builder.code.globals)
    (hfunctions : begun.builder.code.functions.map Function.sketch =
      sketches ++ [Draft.entry.sketch])
    (hcursor : begun.builder.cursor = some ⟨sketches.length, 0⟩) :
    begun.Writing declared cells sketches .entry [] := by
  obtain ⟨procedures, hfits⟩ := h.fits
  have hmore := hfits.mono List.prefix_rfl (Nat.le_max_left procedures (sketches.length + 1))
  have hnew : sketches.length < max procedures (sketches.length + 1) :=
    Nat.lt_of_lt_of_le (Nat.lt_succ_self _) (Nat.le_max_right _ _)
  refine ⟨⟨h.sees.declare henv hsound hscopes hentity hscope, ⟨_, hmore.declare? henv hnew⟩,
    h.declarable, ?_, hfunctions⟩, hcursor, Nat.zero_lt_one, hopened⟩
  rw [hglobals]
  exact h.globals

/-- A name that has just been declared becomes a procedure. -/
theorem Shows.begin (h : session.Shows env cells sketches) {name : String}
    (henv : env.declare? name (.procedure sketches.length) = some declared) (entry : Log.Entry)
    (hentry : ∀ fault, entry ≠ .event (.cursorAstray fault)) :
    ∃ begun, beginProcedure session.forest.symbols.length ((session.added name).told entry) =
        .ok () begun ∧
      begun.Writing declared cells sketches .entry [] ∧
        session.Begun session.forest.symbols.length begun := by
  have hlength : session.builder.code.functions.length = sketches.length := by
    rw [← h.functions, List.length_map]
  have hnamed : ((session.added name).told entry).Sound := (h.sees.sound.added name).told hentry
  have hfound : ((session.added name).told entry).forest.symbols[session.forest.symbols.length]? =
      some { name } := Tree.symbol_added session name
  have hid : session.forest.symbols.length < (session.forest.added session.scope name).symbols.length :=
    (List.getElem?_eq_some_iff.1 hfound).1
  obtain ⟨begun, hrun, hsound, -, hscope, hprocedures, -⟩ := sound_beginProcedure hnamed hfound rfl
  have hwriting := h.writing_begun henv hsound hscope (by simp [hprocedures])
  refine ⟨begun, hrun, ?_⟩
  cases houter : session.procedures with
  | nil =>
    have hbegin := beginProcedure_outermost hfound rfl houter
    obtain rfl := (EStateM.Result.ok.inj (hrun.symm.trans hbegin)).2
    refine ⟨hwriting rfl ?_ rfl (functions_withFunction h.functions _ _) (by rw [← hlength]; rfl),
      rfl, rfl, ?_, by simp [houter]⟩
    · intro other
      refine (entity?_begun hid { name } _ _ other).trans ?_
      rw [entity?_added, ← hlength]
      simp only [eq_comm]
      rfl
    · exact ⟨_, (Forest.meaning?_withSymbol hid _ _).trans (if_pos rfl)⟩
  | cons outer rest =>
    obtain ⟨function, before, place, hmeaning, hcursor, -⟩ := hnamed.here outer (by
      rw [show ((session.added name).told entry).procedures = outer :: rest from houter]
      rfl)
    obtain ⟨around, haround, hprocedure⟩ := Forest.symbol_of_meaning? hmeaning
    have hbegin := beginProcedure_nested hfound rfl houter haround hprocedure hcursor
    obtain rfl := (EStateM.Result.ok.inj (hrun.symm.trans hbegin)).2
    have hnew : session.forest.symbols.length < ((session.forest.added session.scope name).withSymbol
        outer { around with meaning? := some (.procedure function place) }).symbols.length := by
      simpa [Forest.withSymbol] using hid
    have hold : outer < (session.forest.added session.scope name).symbols.length :=
      Forest.lt_of_meaning? hmeaning
    have hne : session.forest.symbols.length ≠ outer := by
      rintro rfl
      rw [hfound] at haround
      cases haround
      cases hprocedure
    refine ⟨hwriting rfl ?_ rfl (functions_withFunction h.functions _ _) (by rw [← hlength]; rfl),
      rfl, rfl, ?_, ?_⟩
    · intro other
      refine (entity?_begun hnew { name } _ _ other).trans ?_
      rw [entity?_begun hold, entity?_added, ← hlength]
      split
      · next heq =>
        rw [if_pos heq.symm]
        rfl
      · next hother =>
        rw [if_neg (Ne.symm hother)]
        split
        · next heq =>
          subst heq
          unfold Forest.entity?
          rw [← Forest.meaning?_added session.forest session.scope name]
          exact (congrArg (Option.map Meaning.entity) hmeaning).symm
        · rfl
    · exact ⟨_, (Forest.meaning?_withSymbol hnew _ _).trans (if_pos rfl)⟩
    · intro other hother
      rw [houter] at hother
      cases hother
      refine ⟨function, place, hcursor, ?_⟩
      refine (Forest.meaning?_withSymbol hnew _ outer).trans ((if_neg hne).trans ?_)
      exact (Forest.meaning?_withSymbol hold _ outer).trans (if_pos rfl)

/-- Where a session is once a procedure has been dealt with: back in the procedure around
it, or, if there was none, still in it. -/
structure Resumed (session : Session) (function : FunctionId) (next : Session) : Prop where
  kept : session.procedures ≠ [] → Tree.Kept session next
  outermost : session.procedures = [] → ∃ id block, next.procedures = [id] ∧
    next.forest.meaning? id = some (.procedure function block)

theorem Resumed.opened {function : FunctionId} {next : Session}
    (h : session.Resumed function next) : next.procedures ≠ [] := by
  cases hopen : session.procedures with
  | nil =>
    obtain ⟨id, block, hprocedures, -⟩ := h.outermost hopen
    simp [hprocedures]
  | cons id rest => simp [(h.kept (by simp [hopen])).procedures, hopen]

/-- Declarations may come before. -/
theorem Resumed.after {function : FunctionId} {next last : Session} (h : next.Resumed function last)
    (hkept : Tree.Kept session next) : session.Resumed function last := by
  refine ⟨fun hopen => hkept.trans (h.kept ?_), fun hclosed => h.outermost ?_⟩
  · rwa [hkept.procedures]
  · rwa [hkept.procedures]

/-- Whatever follows inside the procedure that is open may come after. -/
theorem Resumed.before {function : FunctionId} {next last : Session}
    (h : session.Resumed function next) (hkept : Tree.Kept next last)
    (hbalanced : next.Balanced last) : session.Resumed function last := by
  refine ⟨fun hopen => (h.kept hopen).trans hkept, fun hclosed => ?_⟩
  obtain ⟨id, block, hprocedures, hmeaning⟩ := h.outermost hclosed
  obtain ⟨reached, hreached⟩ := hbalanced.functions _ _ _ hmeaning
  exact ⟨id, reached, hkept.procedures.trans hprocedures, hreached⟩

/-- The procedure that was begun is ended. -/
theorem Shows.end {begun ended : Session} {id : SymbolId} (hbegun : session.Begun id begun)
    (hbalanced : begun.Balanced ended) (h : ended.Shows env cells sketches)
    (hid : id ∉ session.procedures.head?) :
    ∃ next, endProcedure ended = .ok () next ∧ next.Shows env cells sketches ∧
      session.Resumed session.builder.code.functions.length next := by
  have hopen : ended.procedures = id :: session.procedures :=
    hbalanced.procedures.trans hbegun.procedures
  obtain ⟨block, hblock⟩ := hbegun.procedure
  obtain ⟨last, hlast⟩ := hbalanced.functions _ _ _ hblock
  obtain ⟨found, hfound, -⟩ := Forest.symbol_of_meaning? hlast
  obtain ⟨next, hrun, hsound, -, hscope, -, hforest⟩ := sound_endProcedure h.sees.sound hopen
  refine ⟨next, hrun, ?_⟩
  cases houter : session.procedures with
  | nil =>
    rw [houter] at hopen
    obtain rfl := (EStateM.Result.ok.inj (hrun.symm.trans (endProcedure_outermost hopen hfound))).2
    exact ⟨h.congr hsound rfl rfl rfl, fun hne => (hne houter).elim, fun _ => ⟨id, last, hopen, hlast⟩⟩
  | cons outer rest =>
    obtain ⟨function, place, hcursor, hparked⟩ := hbegun.parked outer (by simp [houter])
    have hne : outer ≠ id := by
      rintro rfl
      exact hid (by simp [houter])
    have haround := hbalanced.kept outer _ (by simp [hbegun.procedures, hne.symm]) hparked
    obtain ⟨around, hsymbol, hmeaning⟩ := Forest.symbol_of_meaning? haround
    rw [houter] at hopen
    have hend := endProcedure_nested hopen hfound hsymbol hmeaning
    obtain rfl := (EStateM.Result.ok.inj (hrun.symm.trans hend)).2
    refine ⟨h.congr hsound rfl rfl rfl, fun _ => ⟨hcursor.symm, houter.symm⟩, fun hnil => ?_⟩
    rw [houter] at hnil
    cases hnil

end Session

namespace Compiler

variable {session : Session} {env declared : Env} {cells : List IntType} {sketches : List Sketch}

/-- The end of a procedure's body is a return. -/
private theorem finish_eq {before after : List Sketch} {draft : Draft}
    (h : session.Writing env cells before draft after) (htidy : Desk.Tidy ⟨draft, []⟩)
    (rest : Compiler Unit) :
    (do
      unless ← build (Build.isTerminated (← currentBlock)) do
        build Build.ret
      rest : Compiler Unit) session = rest (session.redraft before.length (draft.push .ret)) := by
  obtain ⟨block, hblock, -⟩ := h.builder_at.block
  have hopen := (htidy.unfinished _ List.mem_cons_self block hblock).isTerminated
  rw [bind_eq_ok (currentBlock_eq h.cursor),
    bind_eq_ok (build_eq_ok (Build.isTerminated_eq h.builder_at hblock)), hopen]
  exact bind_eq_ok (build_eq_ok (Build.emit_eq h.builder_at .ret))

/-- A procedure is begun, dealt with and ended. It fails only where what stands inside does. -/
theorem ends_within (h : session.Shows env cells sketches) {name : String}
    (henv : env.declare? name (.procedure sketches.length) = some declared)
    {inside : Compiler Unit} {result : Option (Core.Stmt × List IntType × List Core.Stmt)}
    {failed : Error → Session → Prop}
    (hsafe : ∀ {before : Session}, before.Sound → before.procedures ≠ [] →
      Safe inside before fun _ _ => True)
    (hinside : ∀ {begun : Session}, begun.Writing ([] :: declared) cells sketches .entry [] →
      Ends inside begun failed fun _ written => ∃ found, result = some found ∧
        Desk.Tidy ⟨found.1.build .entry, []⟩ ∧ ∃ inner, inner.tail = declared ∧
          written.Writing inner found.2.1 sketches (found.1.build .entry)
            (found.2.2.map Core.Stmt.sketch)) :
    Ends (within session.forest.symbols.length inside) (session.added name) failed
      fun _ next => ∃ found, result = some found ∧
        next.Shows declared found.2.1 (sketches ++ (found.1 :: found.2.2).map Core.Stmt.sketch) ∧
          session.Resumed sketches.length next := by
  obtain ⟨begun, hbegin, hwriting, hbegun⟩ :=
    h.begin henv (.enter (.procedure name)) (by simp)
  have hlength : session.builder.code.functions.length = sketches.length := by
    rw [← h.functions, List.length_map]
  unfold within
  refine ends_bind_of_ok (symbol_eq (Tree.symbol_added session name)) ?_
  refine ends_bind_of_ok (tell_eq _) (ends_bind_of_ok hbegin ?_)
  refine ends_bind_of_ok enterScope_eq ?_
  have hentered := hwriting.entered
  refine ((hinside hentered).and (hsafe hentered.sees.sound hentered.opened) |>.imp
    (fun _ _ hfailed => hfailed.1) fun _ _ hdone => hdone).bind ?_
  rintro _ worked ⟨⟨⟨body, more, others⟩, hfound, htidy, inner, htail, hworked⟩, -, hbalanced, -⟩
  have hfinished := hworked.push .ret
  have hpushed : worked.Balanced (worked.redraft sketches.length body.draft) :=
    Session.balanced_redraft hworked.builder_at (Nat.le_of_eq (Draft.length_push _ _).symm)
  have hbalanced' := hbalanced.trans hpushed
  have hleft := hfinished.toShows.left hwriting.sees hbalanced' htail
  have hid : session.forest.symbols.length ∉ session.procedures.head? := by
    intro hmem
    obtain ⟨_, _, hmeaning⟩ := h.sees.sound.procedures _ (List.mem_of_mem_head? hmem)
    exact Nat.lt_irrefl _ (Forest.lt_of_meaning? hmeaning)
  obtain ⟨ended, hend, hended, hresumed⟩ := hleft.end hbegun hbalanced'.leftTo hid
  rw [hlength] at hresumed
  have htold : (ended.told .leave).Sound := hended.sees.sound.told (by simp)
  refine ends_of_ok (show _ = EStateM.Result.ok () (ended.told .leave) from ?_)
    ⟨_, hfound, hended.congr htold rfl rfl rfl, ?_⟩
  · refine (finish_eq hworked htidy _).trans ?_
    refine (bind_eq_ok (leaveScope_eq (hbalanced'.parent? hwriting.sees.sound))).trans ?_
    exact bind_eq_ok hend
  · exact ⟨fun hopen => ⟨(hresumed.kept hopen).cursor, (hresumed.kept hopen).procedures⟩,
      hresumed.outermost⟩

end Compiler

namespace Tree

variable {session : Session} {env : Env} {cells : List IntType} {sketches : List Sketch}

theorem safe_inside {locals : Decls} {body : Stmt} (hlocals : locals.Declarable)
    (hbody : body.Declarable) {before : Session} (h : before.Sound) (hopen : before.procedures ≠ []) :
    Safe (do locals.emit; body.emit) before fun _ _ => True := by
  refine ((locals.settles_emit hlocals h).safe hopen).bind ?_
  intro _ declared hdeclared hbalanced _
  exact body.safe_emit hbody hdeclared (hbalanced.opened hopen)

theorem yields_inside {locals : Decls} {body : Stmt} (hlocals : locals.Declarable)
    (hbody : body.Declarable)
    (hemit : ∀ {begun : Session} {env : Env} {cells : List IntType} {sketches : List Sketch},
      begun.Shows env cells sketches →
        Yields locals.emit begun (locals.resolve env cells sketches.length) fun found _ next =>
          next.Shows found.1 found.2.1 (sketches ++ found.2.2.map Core.Stmt.sketch) ∧
            (begun.procedures ≠ [] → Kept begun next) ∧
              (found.2.2 ≠ [] → begun.Resumed sketches.length next))
    (h : session.Writing env cells sketches .entry []) :
    Yields (do locals.emit; body.emit) session
      (resolveInside locals body env cells (sketches.length + 1)) fun found _ written =>
        Desk.Tidy ⟨found.1.build .entry, []⟩ ∧ ∃ inner, inner.tail = env.tail ∧
          written.Writing inner found.2.1 sketches (found.1.build .entry)
            (found.2.2.map Core.Stmt.sketch) := by
  have hlength : (sketches ++ [Draft.entry.sketch]).length = sketches.length + 1 := by simp
  unfold resolveInside
  rw [← hlength]
  refine (hemit h.toShows).bind ?_
  rintro ⟨inner, more, others⟩ _ next hinner ⟨hnext, hkept, -⟩
  obtain ⟨-, htail, -⟩ := Decls.extends_resolve hlocals hinner
  rw [List.append_assoc] at hnext
  have hwriting := h.declared hnext (hkept h.opened)
  refine (Stmt.yields_emit body hbody hwriting Desk.tidy_entry).last ?_
  rintro ⟨code, most⟩ _ last hcode hlast
  exact ⟨_, rfl, tidy_build hbody hwriting hcode Desk.tidy_entry, inner, htail, hlast⟩

theorem Decls.yields_emit (decls : Decls) (hdeclarable : decls.Declarable)
    (h : session.Shows env cells sketches) :
    Yields decls.emit session (decls.resolve env cells sketches.length) fun found _ next =>
      next.Shows found.1 found.2.1 (sketches ++ found.2.2.map Core.Stmt.sketch) ∧
        (session.procedures ≠ [] → Kept session next) ∧
          (found.2.2 ≠ [] → session.Resumed sketches.length next) := by
  induction decls generalizing session env cells sketches with
  | nil =>
    refine yields_of_ok rfl ⟨by simpa using h, fun _ => ⟨rfl, rfl⟩, fun hne => (hne rfl).elim⟩
  | plain declaration rest ih =>
    refine (Declaration.yields_emit hdeclarable.1 h).bind ?_
    rintro ⟨declared, more⟩ _ next - ⟨hnext, hkept⟩
    refine (ih hdeclarable.2 hnext).mono ?_
    rintro found _ last - ⟨hlast, hkept', hresumed⟩
    refine ⟨hlast, fun hopen => hkept.trans (hkept' ?_), fun hne => (hresumed hne).after hkept⟩
    rwa [hkept.procedures]
  | nested heading locals body rest ihlocals ihrest =>
    cases heading with
    | named name =>
      rw [Decls.resolve_nested]
      refine (name.yields_declare (.procedure sketches.length) h.sees).bind ?_
      rintro declared _ _ henv ⟨rfl, rfl⟩
      obtain ⟨hlocals, hbody, hrest⟩ := hdeclarable
      have hwithin : Yields _ _ _ _ := ends_within (h.locatedAt name.place) henv
        (safe_inside hlocals hbody) (yields_inside hlocals hbody fun h => ihlocals hlocals h)
      refine hwithin.bind ?_
      rintro ⟨code, more, others⟩ _ next - ⟨hnext, hresumed⟩
      have hsafe := (rest.settles_emit hrest hnext.sees.sound).safe hresumed.opened
      have hlength : sketches.length + (code :: others).length =
          (sketches ++ (code :: others).map Core.Stmt.sketch).length := by
        rw [List.length_append, List.length_map]
      rw [hlength]
      refine ((ihrest hrest hnext).and_safe hsafe).last ?_
      rintro ⟨last, all, more⟩ _ final - ⟨⟨hfinal, hkept, -⟩, hbalanced, -⟩
      have hkept := hkept hresumed.opened
      have hresumed := Session.Resumed.before ⟨hresumed.kept, hresumed.outermost⟩ hkept hbalanced
      have hresumed : session.Resumed sketches.length final := hresumed.after ⟨rfl, rfl⟩
      refine ⟨_, rfl, ?_, hresumed.kept, fun _ => hresumed⟩
      rw [List.append_assoc, ← List.map_append] at hfinal
      exact hfinal
    | unnamed mistake =>
      have hraise : Yields (Heading.unnamed mistake).emit session none fun (_ : String) _ _ => True :=
        yields_raise mistake session
      exact hraise.bind (by rintro _ _ _ ⟨⟩)
    | unended name mistake =>
      have hraise : Yields (Heading.unended name mistake).emit session none
          fun (_ : String) _ _ => True :=
        yields_none_bind (name.safe_declare h.sees.sound).discard fun _ next _ _ _ =>
          yields_raise mistake next
      exact hraise.bind (by rintro _ _ _ ⟨⟩)
  | stop mistake => exact yields_raise mistake session

/-- A program that resolves has a procedure. -/
theorem procedures_readProgram (ahead : Ahead) (next : Nat)
    (found : Env × List IntType × List Core.Stmt) :
    ∀ env cells, (readProgram ahead).decls.resolve env cells next = some found → found.2.2 ≠ [] := by
  fun_induction readProgram ahead with
  | case1 ahead declaration left hleft hread rest ih =>
    intro env cells h
    obtain ⟨⟨middle, between⟩, -, hrest⟩ := Option.bind_eq_some_iff.1 h
    exact ih middle between hrest
  | case2 ahead hread hpeek heading locals body left hleft hprocedure last rest =>
    intro env cells h
    obtain ⟨name, -, hrest⟩ := Option.bind_eq_some_iff.1 h
    obtain ⟨named, -, hrest⟩ := Option.bind_eq_some_iff.1 hrest
    obtain ⟨⟨inner, inside, procedures⟩, -, hrest⟩ := Option.bind_eq_some_iff.1 hrest
    obtain ⟨⟨code, most⟩, -, hrest⟩ := Option.bind_eq_some_iff.1 hrest
    obtain ⟨⟨last, all, others⟩, -, hfound⟩ := Option.bind_eq_some_iff.1 hrest
    cases hfound
    exact List.cons_ne_nil _ _
  | case3 ahead hread hpeek =>
    intro env cells h
    cases h

end Tree

namespace Session

/-- The session has made the code of the program, and its outermost procedure is the first. -/
structure Holds (session : Session) (program : Core.Program) : Prop where
  code : session.builder.code.Implements program
  outermost : ∃ id block, session.procedures = [id] ∧
    session.forest.meaning? id = some (.procedure 0 block)

theorem shows_start (file : String) : (Session.start file).Shows [[]] [] [] := by
  refine ⟨⟨sound_start file, ?_, ?_, rfl⟩, ⟨0, ?_⟩, by simp, rfl, rfl⟩
  · exact List.nodup_cons.2 ⟨List.not_mem_nil, List.nodup_nil⟩
  · intro id hid
    rw [List.mem_singleton.1 hid]
    exact (sound_start file).scope
  · intro scope hscope
    rw [List.mem_singleton.1 hscope]
    simp

end Session

namespace Compiler

variable {session : Session}

theorem yields_takeTokens (tokens : List Lexeme) (h : session.Shows [[]] [] [])
    (hclosed : session.procedures = []) :
    Yields (takeTokens tokens) session (Tree.Program.ofTokens tokens).resolve
      fun program _ next => next.Sound ∧ next.Holds program := by
  have hdeclarable := Tree.Program.declarable_ofTokens tokens
  refine ((Tree.Program.ofTokens tokens).decls.yields_emit hdeclarable h).bind ?_
  rintro ⟨env, cells, procedures⟩ _ next hfound ⟨hnext, -, hresumed⟩
  obtain ⟨id, block, hprocedures, hmeaning⟩ :=
    (hresumed (Tree.procedures_readProgram _ _ _ _ _ hfound)).outermost hclosed
  have hholds : ∀ place, (next.locatedAt place).Holds ⟨cells, procedures⟩ := fun _ =>
    ⟨⟨hnext.globals, hnext.functions⟩, id, block, hprocedures, hmeaning⟩
  cases hreached : (Tree.Program.ofTokens tokens).reached with
  | none =>
    exact yields_of_ok rfl ⟨hnext.sees.sound, ⟨hnext.globals, hnext.functions⟩, id, block,
      hprocedures, hmeaning⟩
  | some place => exact yields_of_ok (locate_eq place) ⟨hnext.sees.sound.locatedAt place, hholds place⟩

end Compiler

end BlockLang
