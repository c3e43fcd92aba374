import BlockLang.Proofs.Lexical.Frames

/-! Going through the marks of a program keeps track of its scopes and of what its code
accesses. So the marks can be gone through to the end exactly if the program is well scoped. -/

namespace BlockLang

open Code BlockLang.Core

namespace Lexical

variable {marks : List Mark} {position : Nat} {mark : Mark} {name : String}

theorem Resolves.declared {origin : Nat} (h : Resolves marks position name origin)
    (hmark : marks[origin]? = some mark) : mark.declared? = some name := by
  obtain ⟨-, inner, region, outer, -, hdeclares, -⟩ := h
  have hdeclared := hdeclares.mark
  rwa [hmark, Option.bind_some] at hdeclared

namespace Created

variable {origin : Nat} {entity : Entity}

theorem of_constant (h : Created marks origin entity) {value : Tree.ConstValue}
    (hmark : marks[origin]? = some (.constant name value)) :
    ∃ text, entity = .literal text ∧ HasText marks origin text := by
  cases h with
  | constant _ htext => exact ⟨_, rfl, htext⟩
  | cell hother => cases hmark.symm.trans hother
  | procedure hother => cases hmark.symm.trans hother

theorem of_cell (h : Created marks origin entity) {type : IntType}
    (hmark : marks[origin]? = some (.cell name type)) : ∃ id, entity = .cell id type := by
  cases h with
  | constant hother => cases hmark.symm.trans hother
  | cell hother =>
    cases hmark.symm.trans hother
    exact ⟨_, rfl⟩
  | procedure hother => cases hmark.symm.trans hother

theorem of_procedure (h : Created marks origin entity)
    (hmark : marks[origin]? = some (.procedure name)) : ∃ id, entity = .procedure id := by
  cases h with
  | constant hother => cases hmark.symm.trans hother
  | cell hother => cases hmark.symm.trans hother
  | procedure => exact ⟨_, rfl⟩

end Created

theorem WellScoped.unique (h : WellScoped marks) {first second : Nat}
    (hfirst : Resolves marks position name first) (hsecond : Resolves marks position name second) :
    first = second := by
  obtain ⟨hlt, inner, region, outer, hregions, hdeclares, hinner⟩ := hfirst
  obtain ⟨hlt', inner', region', outer', hregions', hdeclares', hinner'⟩ := hsecond
  -- The shorter one of the two lists of passed scopes ends at a scope that has the name.
  rcases List.append_eq_append_iff.1 (hregions.symm.trans hregions') with
    ⟨passed, hpassed, hrest⟩ | ⟨passed, hpassed, hrest⟩
  · cases passed with
    | nil =>
      obtain ⟨rfl, -⟩ := List.cons.inj hrest
      exact h.once region name first second hdeclares hdeclares'
    | cons next passed =>
      obtain ⟨rfl, -⟩ := List.cons.inj hrest
      exact (hinner' region (by simp [hpassed]) first hlt hdeclares).elim
  · cases passed with
    | nil =>
      obtain ⟨rfl, -⟩ := List.cons.inj hrest
      exact h.once region' name first second hdeclares hdeclares'
    | cons next passed =>
      obtain ⟨rfl, -⟩ := List.cons.inj hrest
      exact (hinner region' (by simp [hpassed]) second hlt' hdeclares').elim

theorem WellScoped.text_eq (h : WellScoped marks) {origin : Nat} {first second : String}
    (hfirst : HasText marks origin first) (hsecond : HasText marks origin second) :
    first = second := by
  induction hfirst generalizing second with
  | text hmark =>
    cases hsecond with
    | text hmark' =>
      cases hmark.symm.trans hmark'
      rfl
    | copy hmark' _ _ => cases hmark.symm.trans hmark'
  | copy hmark hresolves _ ih =>
    cases hsecond with
    | text hmark' => cases hmark.symm.trans hmark'
    | copy hmark' hresolves' horigin' =>
      cases hmark.symm.trans hmark'
      rw [h.unique hresolves' hresolves] at horigin'
      exact ih horigin'

/-- The procedures declared before a position, each with what its uses before the position
access. -/
structure Ledger (marks : List Mark) (position : Nat) (code : List (List Access)) : Prop where
  length_eq : code.length = proceduresBefore marks position
  accounts : ∀ id accesses, code[id]? = some accesses →
    ∃ parts, List.Forall₂ (Touches marks) (usesBefore marks position id) parts ∧
      accesses = parts.flatten

namespace Ledger

variable {code : List (List Access)}

theorem quiet (h : Ledger marks position code) (hmark : marks[position]? = some mark)
    (hprocedure : mark.isProcedure = false) (huse : mark.isUse = false) :
    Ledger marks (position + 1) code := by
  refine ⟨?_, fun id accesses hget => ?_⟩
  · rw [proceduresBefore_succ hmark, hprocedure]
    exact h.length_eq
  · rw [usesBefore_succ id hmark, huse]
    simpa using h.accounts id accesses hget

theorem procedure (h : Ledger marks position code)
    (hmark : marks[position]? = some (.procedure name)) :
    Ledger marks (position + 1) (code ++ [[]]) := by
  refine ⟨?_, fun id accesses hget => ?_⟩
  · rw [proceduresBefore_succ hmark, List.length_append, h.length_eq]
    rfl
  · rw [usesBefore_succ id hmark]
    simp only [Mark.isUse, Bool.false_eq_true, false_and, if_false, List.append_nil]
    by_cases hid : id < code.length
    · rw [List.getElem?_append_left hid] at hget
      exact h.accounts id accesses hget
    · rw [List.getElem?_append_right (Nat.le_of_not_lt hid)] at hget
      obtain rfl : accesses = [] := List.mem_singleton.1 (List.mem_of_getElem? hget)
      rw [usesBefore_eq_nil (h.length_eq ▸ Nat.le_of_not_lt hid)]
      exact ⟨[], .nil, rfl⟩

theorem touch (h : Ledger marks position code) {accesses : List Access}
    (htouches : Touches marks position accesses) :
    Ledger marks (position + 1) ((ownerAt marks position).elim code fun id =>
      code.modify id (· ++ accesses)) := by
  obtain ⟨mark, hmark, hprocedure, huse⟩ : ∃ mark, marks[position]? = some mark ∧
      mark.isProcedure = false ∧ mark.isUse = true := by
    cases htouches <;> exact ⟨_, ‹_›, rfl, rfl⟩
  cases howner : ownerAt marks position with
  | none =>
    refine ⟨?_, fun id found hget => ?_⟩
    · rw [proceduresBefore_succ hmark, hprocedure]
      exact h.length_eq
    · rw [usesBefore_succ id hmark, howner]
      simpa using h.accounts id found hget
  | some owner =>
    refine ⟨?_, fun id found hget => ?_⟩
    · rw [proceduresBefore_succ hmark, hprocedure]
      exact (List.length_modify _ _ _).trans h.length_eq
    · rw [usesBefore_succ id hmark, howner, huse]
      change (code.modify owner (· ++ accesses))[id]? = some found at hget
      rw [List.getElem?_modify] at hget
      obtain ⟨before, hbefore, rfl⟩ := Option.map_eq_some_iff.1 hget
      obtain ⟨parts, hparts, rfl⟩ := h.accounts id before hbefore
      by_cases hid : owner = id
      · refine ⟨parts ++ [accesses], ?_, by simp [hid]⟩
        simp only [hid, and_self, if_true]
        exact List.rel_append hparts (.cons htouches .nil)
      · exact ⟨parts, by simpa [hid] using hparts, by simp [hid]⟩

end Ledger

/-- The state knows the scopes around a position. -/
structure Tracks (marks : List Mark) (position : Nat) (state : State) : Prop where
  cells : state.cells = typesBefore marks position
  owners : state.owners = (regionsAt marks position).map Region.owner
  frames : Frames marks position (regionsAt marks position) state.env
  ledger : Ledger marks position state.code

namespace Tracks

variable {state next : State}

theorem start (marks : List Mark) : Tracks marks 0 {} where
  cells := rfl
  owners := rfl
  frames := .cons ⟨List.nodup_nil, by simp, by simp⟩ .nil
  ledger := ⟨rfl, by simp⟩

theorem owner_eq (h : Tracks marks position state) :
    state.owners.headD none = ownerAt marks position := by
  rw [h.owners]
  rfl

theorem touch (h : Tracks marks position state) {accesses : List Access}
    (htouches : Touches marks position accesses) :
    Tracks marks (position + 1) (state.touch accesses) := by
  obtain ⟨mark, hmark, hregions, htype, hdeclared⟩ : ∃ mark, marks[position]? = some mark ∧
      regionsAt marks (position + 1) = regionsAt marks position ∧
      mark.type? = none ∧ mark.declared? = none := by
    cases htouches <;> exact ⟨_, ‹_›, regionsAt_succ ‹_›, rfl, rfl⟩
  refine ⟨?_, ?_, ?_, ?_⟩
  · rw [typesBefore_quiet hmark htype]
    exact h.cells
  · rw [hregions]
    exact h.owners
  · rw [hregions]
    exact h.frames.quiet hmark hdeclared
  · unfold State.touch
    rw [h.owner_eq]
    exact h.ledger.touch htouches

theorem declares (h : Tracks marks position state) (hscoped : WellScoped marks)
    (hregions : regionsAt marks position ≠ []) (hmark : marks[position]? = some mark)
    (hdeclared : mark.declared? = some name) (entity : Entity) :
    ∃ declared, state.env.declare? name entity = some declared := by
  have hregion := List.head?_eq_some_head hregions
  refine h.frames.declare?_of_fresh entity hregion fun earlier hearlier hdeclares => ?_
  have hhere : Declares marks _ name position := ⟨by rw [hmark]; exact hdeclared, hregion⟩
  have hsame := hscoped.once _ name earlier position hdeclares hhere
  omega

/-- What a step leaves knows the scopes around the next position. -/
theorem step (h : Tracks marks position state) (hmark : marks[position]? = some mark)
    (hstep : state.step mark = some next) : Tracks marks (position + 1) next := by
  have hregions := regionsAt_succ hmark
  cases mark with
  | block =>
    cases hstep
    refine ⟨?_, ?_, ?_, h.ledger.quiet hmark rfl rfl⟩
    · rw [typesBefore_quiet hmark rfl]
      exact h.cells
    · rw [hregions, h.owners]
      rfl
    · rw [hregions]
      exact .cons (.empty (Nat.lt_succ_self _)) (h.frames.quiet hmark rfl)
  | leave =>
    cases hstep
    refine ⟨?_, ?_, ?_, h.ledger.quiet hmark rfl rfl⟩
    · rw [typesBefore_quiet hmark rfl]
      exact h.cells
    · rw [hregions, h.owners]
      exact List.map_tail.symm
    · rw [hregions]
      exact (h.frames.quiet hmark rfl).tail
  | procedure name =>
    obtain ⟨declared, hdeclared, hnext⟩ := Option.bind_eq_some_iff.1 hstep
    cases hnext
    refine ⟨?_, ?_, ?_, h.ledger.procedure hmark⟩
    · rw [typesBefore_quiet hmark rfl]
      exact h.cells
    · rw [hregions, h.owners, h.ledger.length_eq]
      rfl
    · rw [hregions]
      rw [h.ledger.length_eq] at hdeclared
      exact .cons (.empty (Nat.lt_succ_self _))
        (h.frames.declare (by rw [hmark]; rfl) (.procedure hmark) hdeclared)
  | constant name value =>
    obtain ⟨text, htext, hrest⟩ := Option.bind_eq_some_iff.1 hstep
    obtain ⟨declared, hdeclared, hnext⟩ := Option.bind_eq_some_iff.1 hrest
    cases hnext
    have hastext : HasText marks position text := by
      cases value with
      | text spelling =>
        cases htext
        exact .text hmark
      | copy source =>
        obtain ⟨origin, hresolves, hcreated⟩ := h.frames.resolves_literal htext
        cases hcreated with
        | constant _ horigin => exact .copy hmark hresolves horigin
    refine ⟨?_, ?_, ?_, h.ledger.quiet hmark rfl rfl⟩
    · rw [typesBefore_quiet hmark rfl]
      exact h.cells
    · rw [hregions]
      exact h.owners
    · rw [hregions]
      exact h.frames.declare (by rw [hmark]; rfl) (.constant hmark hastext) hdeclared
  | cell name type =>
    obtain ⟨declared, hdeclared, hnext⟩ := Option.bind_eq_some_iff.1 hstep
    cases hnext
    refine ⟨?_, ?_, ?_, h.ledger.quiet hmark rfl rfl⟩
    · rw [typesBefore_succ hmark, ← h.cells]
      rfl
    · rw [hregions]
      exact h.owners
    · rw [hregions]
      rw [h.cells] at hdeclared
      exact h.frames.declare (by rw [hmark]; rfl) (.cell hmark) hdeclared
  | operand name =>
    obtain ⟨value, hvalue, hnext⟩ := Option.bind_eq_some_iff.1 hstep
    cases hnext
    obtain ⟨origin, hresolves, hkind⟩ := h.frames.resolves_value hvalue
    rcases hkind with ⟨id, type, rfl, hcreated⟩ | ⟨text, number, rfl, -, hcreated⟩
    · exact h.touch (.load hmark hresolves hcreated)
    · exact h.touch (.constant hmark hresolves hcreated)
  | target name =>
    obtain ⟨cell, hcell, hnext⟩ := Option.bind_eq_some_iff.1 hstep
    cases hnext
    obtain ⟨origin, hresolves, hcreated⟩ := h.frames.resolves_cell hcell
    exact h.touch (.store hmark hresolves hcreated)
  | callee name =>
    obtain ⟨id, hid, hnext⟩ := Option.bind_eq_some_iff.1 hstep
    cases hnext
    obtain ⟨origin, hresolves, hcreated⟩ := h.frames.resolves_procedure hid
    exact h.touch (.call hmark hresolves hcreated)

/-- A step declares a name that its scope has not declared before. -/
theorem fresh (h : Tracks marks position state) (hstep : state.step mark = some next)
    (hdeclared : mark.declared? = some name) {region : Region}
    (hregion : (regionsAt marks position).head? = some region) :
    ∀ earlier < position, ¬Declares marks region name earlier := by
  cases mark with
  | procedure other =>
    cases hdeclared
    obtain ⟨declared, hknown, -⟩ := Option.bind_eq_some_iff.1 hstep
    exact h.frames.fresh_of_declare? hknown hregion
  | constant other value =>
    cases hdeclared
    obtain ⟨text, -, hrest⟩ := Option.bind_eq_some_iff.1 hstep
    obtain ⟨declared, hknown, -⟩ := Option.bind_eq_some_iff.1 hrest
    exact h.frames.fresh_of_declare? hknown hregion
  | cell other type =>
    cases hdeclared
    obtain ⟨declared, hknown, -⟩ := Option.bind_eq_some_iff.1 hstep
    exact h.frames.fresh_of_declare? hknown hregion
  | _ => cases hdeclared

theorem bound (h : Tracks marks position state) (hstep : state.step mark = some next) :
    Bound marks position mark := by
  cases mark with
  | constant name value =>
    cases value with
    | text spelling => trivial
    | copy source =>
      obtain ⟨text, htext, -⟩ := Option.bind_eq_some_iff.1 hstep
      obtain ⟨origin, hresolves, hcreated⟩ := h.frames.resolves_literal htext
      cases hcreated with
      | constant hmark _ =>
        cases hresolves.declared hmark
        exact ⟨origin, _, hresolves, hmark⟩
  | operand name =>
    obtain ⟨value, hvalue, -⟩ := Option.bind_eq_some_iff.1 hstep
    obtain ⟨origin, hresolves, hkind⟩ := h.frames.resolves_value hvalue
    refine ⟨origin, hresolves, ?_⟩
    rcases hkind with ⟨id, type, -, hcreated⟩ | ⟨text, number, -, hread, hcreated⟩
    · cases hcreated with
      | cell hmark =>
        cases hresolves.declared hmark
        exact .inl ⟨type, hmark⟩
    · cases hcreated with
      | constant hmark htext =>
        cases hresolves.declared hmark
        exact .inr ⟨_, text, hmark, htext, by rw [hread]; rfl⟩
  | target name =>
    obtain ⟨⟨id, type⟩, hcell, -⟩ := Option.bind_eq_some_iff.1 hstep
    obtain ⟨origin, hresolves, hcreated⟩ := h.frames.resolves_cell hcell
    cases hcreated with
    | cell hmark =>
      cases hresolves.declared hmark
      exact ⟨origin, type, hresolves, hmark⟩
  | callee name =>
    obtain ⟨id, hid, -⟩ := Option.bind_eq_some_iff.1 hstep
    obtain ⟨origin, hresolves, hcreated⟩ := h.frames.resolves_procedure hid
    cases hcreated with
    | procedure hmark =>
      cases hresolves.declared hmark
      exact ⟨origin, hresolves, hmark⟩
  | _ => trivial

/-- In a well scoped program there is a step at every mark. -/
theorem exists_step (h : Tracks marks position state) (hscoped : WellScoped marks)
    (hregions : regionsAt marks position ≠ []) (hmark : marks[position]? = some mark) :
    ∃ next, state.step mark = some next := by
  have hbound := hscoped.bound position mark hmark
  cases mark with
  | block => exact ⟨_, rfl⟩
  | leave => exact ⟨_, rfl⟩
  | procedure name =>
    obtain ⟨declared, hdeclared⟩ :=
      h.declares hscoped hregions hmark rfl (.procedure state.code.length)
    exact ⟨_, by rw [State.step, hdeclared]; rfl⟩
  | constant name value =>
    obtain ⟨text, htext⟩ : ∃ text, value.resolve state.env = some text := by
      cases value with
      | text spelling => exact ⟨spelling, rfl⟩
      | copy source =>
        obtain ⟨origin, value, hresolves, horigin⟩ := hbound
        obtain ⟨entity, hfind, hcreated⟩ := h.frames.find?_of_resolves hresolves
        obtain ⟨text, rfl, -⟩ := hcreated.of_constant horigin
        exact ⟨text, by rw [Tree.ConstValue.resolve, Env.literal?, hfind]⟩
    obtain ⟨declared, hdeclared⟩ := h.declares hscoped hregions hmark rfl (.literal text)
    exact ⟨_, by rw [State.step, htext, Option.bind_eq_bind, Option.bind_some, hdeclared]; rfl⟩
  | cell name type =>
    obtain ⟨declared, hdeclared⟩ :=
      h.declares hscoped hregions hmark rfl (.cell state.cells.length type)
    exact ⟨_, by rw [State.step, hdeclared]; rfl⟩
  | operand name =>
    obtain ⟨origin, hresolves, hkind⟩ := hbound
    obtain ⟨entity, hfind, hcreated⟩ := h.frames.find?_of_resolves hresolves
    obtain ⟨value, hvalue⟩ : ∃ value, state.env.value? name = some value := by
      rcases hkind with ⟨type, horigin⟩ | ⟨value, text, horigin, htext, hread⟩
      · obtain ⟨id, rfl⟩ := hcreated.of_cell horigin
        exact ⟨.cell id type, by rw [Env.value?, hfind]⟩
      · obtain ⟨found, rfl, hfound⟩ := hcreated.of_constant horigin
        rw [hscoped.text_eq htext hfound] at hread
        obtain ⟨number, hnumber⟩ := Option.isSome_iff_exists.1 hread
        exact ⟨.number number, by rw [Env.value?, hfind]; simp only [hnumber, Option.map_some]⟩
    exact ⟨_, by rw [State.step, hvalue]; rfl⟩
  | target name =>
    obtain ⟨origin, type, hresolves, horigin⟩ := hbound
    obtain ⟨entity, hfind, hcreated⟩ := h.frames.find?_of_resolves hresolves
    obtain ⟨id, rfl⟩ := hcreated.of_cell horigin
    exact ⟨_, by rw [State.step, Env.cell?, hfind]; rfl⟩
  | callee name =>
    obtain ⟨origin, hresolves, horigin⟩ := hbound
    obtain ⟨entity, hfind, hcreated⟩ := h.frames.find?_of_resolves hresolves
    obtain ⟨id, rfl⟩ := hcreated.of_procedure horigin
    exact ⟨_, by rw [State.step, Env.procedure?, hfind]; rfl⟩

end Tracks

variable {state : State}

theorem tracks_of_run (hposition : position ≤ marks.length)
    (hrun : State.run {} (marks.take position) = some state) : Tracks marks position state := by
  induction position generalizing state with
  | zero =>
    cases hrun
    exact .start marks
  | succ position ih =>
    have hmark : marks[position]? = some marks[position] := List.getElem?_eq_getElem hposition
    rw [take_succ_of_mark hmark, State.run_append] at hrun
    obtain ⟨before, hbefore, hstep⟩ := Option.bind_eq_some_iff.1 hrun
    rw [State.run_cons] at hstep
    obtain ⟨next, hnext, hdone⟩ := Option.bind_eq_some_iff.1 hstep
    cases hdone
    exact (ih (Nat.le_of_succ_le hposition) hbefore).step hmark hnext

private theorem reached_of_run (hrun : State.run {} marks = some state)
    (hmark : marks[position]? = some mark) :
    ∃ before next, Tracks marks position before ∧ before.step mark = some next := by
  obtain ⟨hposition, -⟩ := List.getElem?_eq_some_iff.1 hmark
  have hrest : marks.drop position = mark :: marks.drop (position + 1) := by
    rw [List.drop_eq_getElem_cons hposition]
    rw [List.getElem?_eq_getElem hposition] at hmark
    cases hmark
    rfl
  rw [← List.take_append_drop position marks, hrest, State.run_append] at hrun
  obtain ⟨before, hbefore, hafter⟩ := Option.bind_eq_some_iff.1 hrun
  rw [State.run_cons] at hafter
  obtain ⟨next, hnext, -⟩ := Option.bind_eq_some_iff.1 hafter
  exact ⟨before, next, tracks_of_run (Nat.le_of_lt hposition) hbefore, hnext⟩

theorem wellScoped_of_run (hrun : State.run {} marks = some state) : WellScoped marks := by
  have hlater : ∀ region name first second, Declares marks region name first →
      Declares marks region name second → ¬first < second := by
    intro region name first second hfirst hsecond hlt
    obtain ⟨mark, hmark, hdeclared⟩ := Option.bind_eq_some_iff.1 hsecond.mark
    obtain ⟨before, next, htracks, hstep⟩ := reached_of_run hrun hmark
    exact htracks.fresh hstep hdeclared hsecond.region first hlt hfirst
  constructor
  · intro region name first second hfirst hsecond
    have hnotbefore := hlater region name first second hfirst hsecond
    have hnotafter := hlater region name second first hsecond hfirst
    omega
  · intro use mark hmark
    obtain ⟨before, next, htracks, hstep⟩ := reached_of_run hrun hmark
    exact htracks.bound hstep

theorem WellScoped.run (h : WellScoped marks)
    (hregions : ∀ position, regionsAt marks position ≠ []) (hposition : position ≤ marks.length) :
    ∃ state, State.run {} (marks.take position) = some state := by
  induction position with
  | zero => exact ⟨_, rfl⟩
  | succ position ih =>
    have hmark : marks[position]? = some marks[position] := List.getElem?_eq_getElem hposition
    obtain ⟨before, hbefore⟩ := ih (Nat.le_of_succ_le hposition)
    have htracks := tracks_of_run (Nat.le_of_succ_le hposition) hbefore
    obtain ⟨next, hnext⟩ := htracks.exists_step h (hregions position) hmark
    refine ⟨next, ?_⟩
    rw [take_succ_of_mark hmark, State.run_append, hbefore, Option.bind_some, State.run_cons, hnext]
    rfl

end Lexical

end BlockLang
