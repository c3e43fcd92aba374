import BlockLang.Proofs.Intake
import BlockLang.Proofs.Session.Gains
import BlockLang.Proofs.Session.Returns
import BlockLang.Proofs.Tree.Derivation

/-! Taking in a program ends where it began. Whatever the session was used for before, it is
back in its scope and in its procedure, the scope has the names that the program declares at
its top, and nothing that is declared further in can be seen. -/

namespace BlockLang

open Code Names Compiler BlockLang.Tree

namespace Tree

/-- The names of the constants and variables that are declared at the top. -/
def Decls.plainNames : Decls → List String
  | nil | stop _ => []
  | plain declaration rest => declaration.names ++ rest.plainNames
  | nested _ _ _ rest => rest.plainNames

/-- The names of the procedures that are declared at the top. -/
def Decls.procedureNames : Decls → List String
  | nil | stop _ => []
  | plain _ rest => rest.procedureNames
  | nested heading _ _ rest => heading.name?.toList ++ rest.procedureNames

end Tree

/-- What a session is once it has taken in a program with these entries for its constants and
variables, and this one for its procedure. -/
structure Session.TakesIn (before : Session) (plain : List (String × SymbolId))
    (procedure : String × SymbolId) (after : Session) : Prop where
  scope : after.scope = before.scope
  /-- The open procedures stay open, and the next instruction goes where it would have gone. -/
  opened : before.procedures ≠ [] →
    after.procedures = before.procedures ∧ after.builder.cursor = before.builder.cursor
  /-- The program's procedure stays open if none was. -/
  closed : before.procedures = [] → after.procedures = [procedure.2]
  outermost : ∀ id, outermostProcedure before = .ok id before →
    outermostProcedure after = .ok id after
  /-- The current scope has the new entries behind those it had. -/
  gained : ∃ found, before.forest.scopes[before.scope]? = some found ∧
    after.forest.scopes[before.scope]? =
      some { found with entries := found.entries ++ (plain ++ [procedure]) }
  others : ∀ id < before.forest.scopes.length, id ≠ before.scope →
    after.forest.scopes[id]? = before.forest.scopes[id]?
  /-- A name stands for what the program declares at its top, or for what it stood for. -/
  lookups : ∀ name, after.forest.find? after.scope name =
    ((plain ++ [procedure]).lookup name).or (before.forest.find? before.scope name)
  /-- What is declared in a scope that was opened on the way is not found from here. -/
  hidden : ∀ (id : ScopeId) scope, before.forest.scopes.length ≤ id →
    after.forest.scopes[id]? = some scope → ∀ entry ∈ scope.entries, ∀ name,
      after.forest.find? after.scope name ≠ some entry.2

theorem Session.length_outline (session : Session) :
    session.outline.forest.symbols.length = session.forest.symbols.length := by
  simp [Session.outline, Forest.untold]

theorem Session.Sound.closed {session : Session} (h : session.Sound) :
    session.outline.Closed := by
  have hlength := session.length_outline
  refine ⟨h.heads, ?_, h.scope, ?_⟩
  · intro scope hscope entry hentry
    rw [hlength]
    exact h.entries scope hscope entry hentry
  · intro id hid
    obtain ⟨function, block, hmeaning⟩ := h.procedures id hid
    rw [hlength]
    exact Forest.lt_of_meaning? hmeaning

namespace Tree

/-- Constants and variables, and one procedure behind them. -/
def Decls.Single : Decls → Prop
  | plain _ rest => rest.Single
  | nested _ _ _ rest => rest = nil ∨ ∃ mistake, rest = stop mistake
  | stop _ => True
  | nil => False

theorem single_readProgram (ahead : Ahead) : (readProgram ahead).decls.Single := by
  fun_induction readProgram ahead with
  | case1 ahead declaration left hleft hread rest ih => exact ih
  | case2 ahead hread hpeek heading locals body left hleft hprocedure last rest =>
    change rest = .nil ∨ ∃ mistake, rest = .stop mistake
    by_cases hend : last.peek = .eof
    · exact .inl (if_pos hend)
    · exact .inr ⟨_, if_neg hend⟩
  | case3 ahead hread hpeek => trivial

/-- The procedure of a program is the last that is gained, and it is left open if it is the
first. -/
theorem Decls.Single.gains_lay {decls : Decls} (hsingle : decls.Single) {before after : Outline}
    (hclosed : before.Closed) (h : decls.lay before = some after) :
    ∃ gained entry, before.Gains (gained ++ [entry]) after ∧
      gained.map Prod.fst = decls.plainNames ∧ [entry.1] = decls.procedureNames ∧
      (before.procedures = [] → after.procedures = [entry.2]) := by
  induction decls generalizing before with
  | nil => exact hsingle.elim
  | stop mistake => cases h
  | plain declaration rest ih =>
    obtain ⟨middle, hfirst, hrest⟩ := Option.bind_eq_some_iff.1 h
    obtain ⟨gained, hgained, hnames⟩ := Declaration.gains_lay hclosed hfirst
    obtain ⟨more, entry, hmore, hothers, hprocedure, hopened⟩ := ih hsingle hgained.closed hrest
    refine ⟨gained ++ more, entry, ?_, ?_, hprocedure, ?_⟩
    · rw [List.append_assoc]
      exact hgained.trans hmore hclosed.scope
    · rw [List.map_append, hnames, hothers]
      rfl
    · intro hempty
      exact hopened ((Declaration.procedures_lay hfirst).trans hempty)
  | nested heading locals body rest ihlocals ihrest =>
    obtain ⟨name, begun, declared, worked, left, hname, hbegin, hlocals, hbody, hleft, hrest⟩ :=
      of_lay_nested h
    have hbegun := Outline.begin?_closed hclosed hbegin
    obtain ⟨inside, hinside, -⟩ := Decls.gains_lay hbegun.entered hlocals
    have hworked := hinside.trans (Stmt.gains_lay hinside.closed hbody) hbegun.entered.scope
    obtain ⟨hended, hopened, -⟩ := hworked.ended hclosed hbegin hleft
    rcases hsingle with rfl | ⟨mistake, rfl⟩
    · obtain rfl := Option.some.inj hrest
      exact ⟨[], _, hended, rfl, by simp [Decls.procedureNames, hname], hopened⟩
    · cases hrest

end Tree

namespace Outline

variable {before after : Outline} {gained : List (String × SymbolId)}

private theorem findSome?_congr {α β : Type} {first second : α → Option β} {items : List α}
    (h : ∀ item ∈ items, first item = second item) :
    items.findSome? first = items.findSome? second := by
  induction items with
  | nil => rfl
  | cons item rest ih =>
    rw [List.findSome?_cons, List.findSome?_cons, h item List.mem_cons_self,
      ih fun other hother => h other (List.mem_cons_of_mem item hother)]

theorem mem_of_lookup {name : String} {id : SymbolId} (h : gained.lookup name = some id) :
    (name, id) ∈ gained := by
  obtain ⟨front, rest, rfl, -⟩ := List.lookup_eq_some_iff.1 h
  simp

/-- What is gained is found, and what is not gained is found as before. -/
theorem Gains.find? (h : before.Gains gained after) (hclosed : before.Closed)
    (hchain : ∀ id ∈ before.forest.chain before.scope, id < before.forest.scopes.length)
    (name : String) :
    after.forest.find? after.scope name =
      (gained.lookup name).or (before.forest.find? before.scope name) := by
  have hhere := h.declared name hclosed.scope
  have hothers : ∀ id ∈ before.forest.chain before.scope, id ≠ before.scope →
      after.forest.declared? id name = before.forest.declared? id name := by
    intro id hid hne
    unfold Forest.declared?
    rw [h.others id (hchain id hid) hne]
  unfold Forest.find?
  rw [h.scope, h.chain hclosed.scope]
  cases hlookup : gained.lookup name with
  | none =>
    rw [Option.none_or]
    apply findSome?_congr
    intro id hid
    by_cases hscope : id = before.scope
    · rw [hscope, hhere, hlookup, Option.or_none]
    · exact hothers id hid hscope
  | some id =>
    obtain ⟨rest, hrest⟩ := List.head?_eq_some_iff.1 (hclosed.heads _ hclosed.scope)
    have hfree : before.forest.declared? before.scope name = none :=
      h.apart (name, id) (mem_of_lookup hlookup)
    rw [hrest, List.findSome?_cons, hhere, hlookup, hfree]
    rfl

end Outline

namespace Session

variable {before after : Session} {gained : List (String × SymbolId)}

theorem of_outermostProcedure_eq_ok {id : SymbolId}
    (h : outermostProcedure before = .ok id after) : before.procedures.getLast? = some id := by
  unfold outermostProcedure at h
  rw [get_bind] at h
  cases hlast : before.procedures.getLast? with
  | none =>
    rw [hlast] at h
    cases h
  | some last =>
    rw [hlast] at h
    cases h
    rfl

theorem outermostProcedure_eq {id : SymbolId} (h : before.procedures.getLast? = some id) :
    outermostProcedure before = .ok id before := by
  unfold outermostProcedure
  rw [get_bind, h]
  rfl

/-- What the outlines say of the two sessions. -/
theorem Sound.takesIn (h : before.Sound) {entry : String × SymbolId}
    (hgains : before.outline.Gains (gained ++ [entry]) after.outline)
    (hopened : before.procedures = [] → after.procedures = [entry.2])
    (hcursor : before.procedures ≠ [] → after.cursor = before.cursor) :
    before.TakesIn gained entry after := by
  have hlookups : ∀ name, after.forest.find? after.scope name =
      ((gained ++ [entry]).lookup name).or (before.forest.find? before.scope name) :=
    hgains.find? h.closed fun _ hid => h.lt_of_mem_chain h.scope hid
  constructor
  case scope => exact hgains.scope
  case opened => exact fun hopen => ⟨hgains.procedures hopen, hcursor hopen⟩
  case closed => exact hopened
  case outermost =>
    intro id houtermost
    have hlast := of_outermostProcedure_eq_ok houtermost
    have hopen : before.procedures ≠ [] := by
      intro hempty
      simp [hempty] at hlast
    apply outermostProcedure_eq
    rw [show after.procedures = before.procedures from hgains.procedures hopen, hlast]
  case gained =>
    have hfound := List.getElem?_eq_getElem h.scope
    refine ⟨_, hfound, ?_⟩
    have hhere : after.forest.scopes[before.scope]? = _ := hgains.here
    rw [hhere]
    exact congrArg (Option.map _) hfound
  case others => exact hgains.others
  case lookups => exact hlookups
  case hidden =>
    intro id scope hid hscope other hother name hfind
    obtain ⟨hnew, hapart⟩ := hgains.inner id scope hid hscope other hother
    rw [hlookups] at hfind
    rcases Option.or_eq_some_iff.1 hfind with hlookup | ⟨-, hold⟩
    · exact hapart (List.mem_map.2 ⟨_, Outline.mem_of_lookup hlookup, rfl⟩)
    · rw [before.length_outline] at hnew
      exact Nat.not_lt.2 hnew (h.find?_lt hold)

end Session

/-- Whatever a session was given before, it takes in a program as `TakesIn` says, and the
entries it gains are what the program's tree declares at its top. Where the end of input comes
last, that tree is the one that the tokens spell. -/
theorem takeTokens_balanced (file : String) (inputs : List Input) (tokens : List Lexeme)
    {next : Session} (h : takeTokens tokens ((Session.start file).fed inputs) = .ok () next) :
    ∃ plain procedure, ((Session.start file).fed inputs).TakesIn plain procedure next ∧
      plain.map Prod.fst = (Program.ofTokens tokens).decls.plainNames ∧
      [procedure.1] = (Program.ofTokens tokens).decls.procedureNames ∧
      (Endless (Ahead.ofTokens tokens).tokens →
        (Program.ofTokens tokens).decls.Spells (Ahead.ofTokens tokens).tokens) := by
  have hsound := Session.sound_fed file inputs
  generalize (Session.start file).fed inputs = session at h hsound ⊢
  have hdeclarable := Program.declarable_ofTokens tokens
  obtain ⟨_, last, hdecls, hlast⟩ := exists_of_bind_eq_ok h
  have hlaid := Decls.lays_emit _ session () last hdecls
  obtain ⟨plain, procedure, hgains, hplain, hprocedure, hopened⟩ :=
    (single_readProgram (.ofTokens tokens)).gains_lay hsound.closed hlaid
  have hcursor : session.procedures ≠ [] → last.cursor = session.cursor := by
    intro hopen
    have hreturns := (Program.ofTokens tokens).decls.returns_emit hdeclarable hsound hopen
    unfold Ends at hreturns
    rwa [hdecls] at hreturns
  refine ⟨plain, procedure, ?_, hplain, hprocedure, ?_⟩
  · -- The place that reading has reached is all that is left to note.
    cases hreached : (Program.ofTokens tokens).reached with
    | none =>
      rw [hreached] at hlast
      cases hlast
      exact hsound.takesIn hgains hopened hcursor
    | some place =>
      rw [hreached] at hlast
      cases hlast
      exact hsound.takesIn hgains hopened hcursor
  · intro hendless
    exact spells_readProgram hendless (Decls.whole_of_emit hdecls)

/-- Whether a session that was given `inputs` takes in the tokens of a source and then passes
a test. -/
def takesAfter (file : String) (inputs : List Input) (source : String) (test : Session → Bool) :
    Bool :=
  match Token.scan source with
  | .ok tokens =>
    match takeTokens tokens ((Session.start file).fed inputs) with
    | .ok _ session => test session
    | .error _ _ => false
  | .error _ => false

theorem takesAfter_iff {file source : String} {inputs : List Input} {test : Session → Bool} :
    takesAfter file inputs source test = true ↔ ∃ tokens session, Token.scan source = .ok tokens ∧
      takeTokens tokens ((Session.start file).fed inputs) = .ok () session ∧
        test session = true := by
  unfold takesAfter
  cases Token.scan source with
  | error error => simp
  | ok tokens => cases hrun : takeTokens tokens ((Session.start file).fed inputs) <;> simp [hrun]

/-- A program whose procedure shadows its variable, for a session that has another open and in
which a third has broken off. -/
theorem takeTokens_balanced_again :
    ∃ tokens next plain procedure,
      Token.scan "VAR Y: INT8; PROCEDURE Q; VAR Y: INT16; BEGIN BEGIN VAR Z: INT8; Z := Y END END." =
        .ok tokens ∧
      ((Session.start "unit").fed [.source "PROCEDURE P; BEGIN RETURN END.",
        .source "PROCEDURE R; BEGIN BEGIN VAR W: INT8; X := W END END."]).TakesIn
          plain procedure next ∧
      next.procedures.length = 2 ∧ next.forest.find? next.scope "Z" = none ∧
      (next.forest.find? next.scope "W").isSome = true := by
  have htakes : takesAfter "unit" [.source "PROCEDURE P; BEGIN RETURN END.",
      .source "PROCEDURE R; BEGIN BEGIN VAR W: INT8; X := W END END."]
      "VAR Y: INT8; PROCEDURE Q; VAR Y: INT16; BEGIN BEGIN VAR Z: INT8; Z := Y END END."
      (fun session => session.procedures.length == 2 &&
        session.forest.find? session.scope "Z" == none &&
        (session.forest.find? session.scope "W").isSome) := by
    decide +kernel
  obtain ⟨tokens, next, hscan, hrun, htest⟩ := takesAfter_iff.1 htakes
  obtain ⟨plain, procedure, htakesIn, -⟩ := takeTokens_balanced _ _ tokens hrun
  simp only [Bool.and_eq_true, beq_iff_eq] at htest
  exact ⟨tokens, next, plain, procedure, hscan, htakesIn, htest.1.1, htest.1.2, htest.2⟩

end BlockLang
