import BlockLang.Proofs.Core.Program
import BlockLang.Proofs.Tree.Declarable

/-! What resolving a tree keeps: cells are only ever added, declarations stay in their
scope, and what is resolved refers to cells and procedures that exist. -/

namespace BlockLang

namespace Core

variable {cells more : List IntType} {procedures others : Nat}

private theorem getElem?_of_grown (hcells : cells <+: more) {id : Nat} {type : IntType}
    (h : cells[id]? = some type) : more[id]? = some type := by
  obtain ⟨rest, rfl⟩ := hcells
  rw [List.getElem?_append_left (List.getElem?_eq_some_iff.1 h).1]
  exact h

theorem Expr.Fits.mono {expr : Expr} (h : expr.Fits cells) (hcells : cells <+: more) :
    expr.Fits more := by
  induction expr with
  | number value => trivial
  | cell id type => exact getElem?_of_grown hcells h
  | negate operand ih => exact ih h
  | binary op left right ihleft ihright => exact ⟨ihleft h.1, ihright h.2⟩

theorem Stmt.Fits.mono {stmt : Stmt} (h : stmt.Fits cells procedures) (hcells : cells <+: more)
    (hprocedures : procedures ≤ others) : stmt.Fits more others := by
  induction stmt with
  | skip => trivial
  | seq first second ihfirst ihsecond => exact ⟨ihfirst h.1, ihsecond h.2⟩
  | assign target type value => exact ⟨getElem?_of_grown hcells h.1, h.2.mono hcells⟩
  | call callee => exact Nat.lt_of_lt_of_le h hprocedures
  | branch condition yes no ihyes ihno =>
    exact ⟨⟨h.1.1.mono hcells, h.1.2.mono hcells⟩, ihyes h.2.1, ihno h.2.2⟩
  | loop condition body ih => exact ⟨⟨h.1.1.mono hcells, h.1.2.mono hcells⟩, ih h.2⟩
  | ret => trivial

theorem Entity.Fits.mono {entity : Entity} (h : entity.Fits cells procedures)
    (hcells : cells <+: more) (hprocedures : procedures ≤ others) : entity.Fits more others := by
  cases entity with
  | literal text => trivial
  | procedure id => exact Nat.lt_of_lt_of_le h hprocedures
  | cell id type => exact getElem?_of_grown hcells h

namespace Env

variable {env : Env}

theorem Fits.mono (h : env.Fits cells procedures) (hcells : cells <+: more)
    (hprocedures : procedures ≤ others) : env.Fits more others :=
  fun scope hscope entry hentry => (h scope hscope entry hentry).mono hcells hprocedures

theorem Fits.find? (h : env.Fits cells procedures) {name : String} {entity : Entity}
    (hfind : env.find? name = some entity) : entity.Fits cells procedures := by
  obtain ⟨scope, hscope, hlookup⟩ := List.exists_of_findSome?_eq_some hfind
  obtain ⟨before, rest, hentries, -⟩ := List.lookup_eq_some_iff.1 hlookup
  exact h scope hscope (name, entity) (by simp [hentries])

theorem Fits.enter (h : env.Fits cells procedures) : Fits cells procedures ([] :: env) := by
  intro scope hscope
  rcases List.mem_cons.1 hscope with rfl | hscope
  · simp
  · exact h scope hscope

theorem Fits.declare? (h : env.Fits cells procedures) {name : String} {entity : Entity}
    {declared : Env} (hdeclare : env.declare? name entity = some declared)
    (hentity : entity.Fits cells procedures) : declared.Fits cells procedures := by
  cases env with
  | nil => cases hdeclare
  | cons inner outer =>
    rw [declare?_cons] at hdeclare
    split at hdeclare
    · cases hdeclare
    · cases hdeclare
      intro scope hscope entry hentry
      rcases List.mem_cons.1 hscope with rfl | hscope
      · rcases List.mem_append.1 hentry with hentry | hentry
        · exact h inner List.mem_cons_self entry hentry
        · rw [List.mem_singleton.1 hentry]
          exact hentity
      · exact h scope (List.mem_cons_of_mem _ hscope) entry hentry

theorem Fits.cell? (h : env.Fits cells procedures) {name : String} {id : Nat} {type : IntType}
    (hcell : env.cell? name = some (id, type)) : cells[id]? = some type := by
  unfold Env.cell? at hcell
  split at hcell
  · next hfind =>
    cases hcell
    exact h.find? hfind
  · cases hcell

theorem Fits.procedure? (h : env.Fits cells procedures) {name : String} {id : Nat}
    (hprocedure : env.procedure? name = some id) : id < procedures := by
  unfold Env.procedure? at hprocedure
  split at hprocedure
  · next hfind =>
    cases hprocedure
    exact h.find? hfind
  · cases hprocedure

theorem Fits.value? (h : env.Fits cells procedures) {name : String} {expr : Expr}
    (hvalue : env.value? name = some expr) : expr.Fits cells := by
  unfold Env.value? at hvalue
  split at hvalue
  · obtain ⟨value, -, rfl⟩ := Option.map_eq_some_iff.1 hvalue
    trivial
  · next hfind =>
    cases hvalue
    exact h.find? hfind
  · cases hvalue

end Env

end Core

namespace Tree

open BlockLang.Core

variable {env : Env} {cells : List IntType} {procedures : Nat}

theorem Expr.fits_resolve {expr : Expr} (henv : env.Fits cells procedures) {found : Core.Expr}
    (h : expr.resolve env = some found) : found.Fits cells := by
  induction expr generalizing found with
  | number value =>
    cases h
    trivial
  | name ident => exact henv.value? h
  | negate operand ih =>
    obtain ⟨value, hvalue, hfound⟩ := Option.bind_eq_some_iff.1 h
    cases hfound
    have hfits := ih hvalue
    exact hfits
  | binary op left right ihleft ihright =>
    obtain ⟨first, hfirst, hrest⟩ := Option.bind_eq_some_iff.1 h
    obtain ⟨second, hsecond, hfound⟩ := Option.bind_eq_some_iff.1 hrest
    cases hfound
    exact ⟨ihleft hfirst, ihright hsecond⟩
  | missing mistake => cases h
  | unclosed inner mistake ih => cases h

theorem Cond.fits_resolve {cond : Cond} (henv : env.Fits cells procedures) {found : Core.Cond}
    (h : cond.resolve env = some found) : found.Fits cells := by
  cases cond with
  | compare op left right =>
    obtain ⟨first, hfirst, hrest⟩ := Option.bind_eq_some_iff.1 h
    obtain ⟨second, hsecond, hfound⟩ := Option.bind_eq_some_iff.1 hrest
    cases hfound
    exact ⟨Expr.fits_resolve henv hfirst, Expr.fits_resolve henv hsecond⟩
  | half left mistake => cases h
  | unfollowed op left right mistake => cases h

/-- What a declaration leads to: cells are added, the scopes around stay as they were, and
everything in sight still exists. -/
structure Extends (env : Env) (cells : List IntType) (declared : Env) (more : List IntType) :
    Prop where
  grown : cells <+: more
  tail : declared.tail = env.tail
  fits : ∀ procedures, env.Fits cells procedures → declared.Fits more procedures
  declarable : (∀ type ∈ cells, type ∈ IntType.declarable) →
    ∀ type ∈ more, type ∈ IntType.declarable

theorem Extends.refl (env : Env) (cells : List IntType) : Extends env cells env cells :=
  ⟨List.prefix_rfl, rfl, fun _ h => h, fun h => h⟩

theorem Extends.trans {middle declared : Env} {between more : List IntType}
    (h : Extends env cells middle between) (h' : Extends middle between declared more) :
    Extends env cells declared more :=
  ⟨h.grown.trans h'.grown, h'.tail.trans h.tail, fun procedures hfits =>
    h'.fits procedures (h.fits procedures hfits), fun hcells => h'.declarable (h.declarable hcells)⟩

theorem extends_resolveNames {type : IntType} (htype : type ∈ IntType.declarable)
    {names : List Ident} {declared : Env} {more : List IntType}
    (h : resolveNames type names env cells = some (declared, more)) :
    Extends env cells declared more := by
  induction names generalizing env cells with
  | nil =>
    cases h
    exact .refl _ _
  | cons name rest ih =>
    obtain ⟨next, hnext, hrest⟩ := Option.bind_eq_some_iff.1 h
    refine Extends.trans ⟨List.prefix_append _ _, Env.tail_declare? hnext, ?_, ?_⟩ (ih hrest)
    · intro procedures hfits
      refine (hfits.mono (List.prefix_append _ _) (Nat.le_refl _)).declare? hnext ?_
      simp [Entity.Fits]
    · intro hcells other hother
      rcases List.mem_append.1 hother with hother | hother
      · exact hcells other hother
      · rw [List.mem_singleton.1 hother]
        exact htype

theorem Declaration.extends_resolve {declaration : Declaration}
    (hdeclarable : declaration.Declarable) {declared : Env} {more : List IntType}
    (h : declaration.resolve env cells = some (declared, more)) :
    Extends env cells declared more := by
  cases declaration with
  | const name value =>
    obtain ⟨text, -, hrest⟩ := Option.bind_eq_some_iff.1 h
    obtain ⟨next, hnext, hfound⟩ := Option.bind_eq_some_iff.1 hrest
    cases hfound
    exact ⟨List.prefix_rfl, Env.tail_declare? hnext,
      fun _ hfits => hfits.declare? hnext trivial, fun hcells => hcells⟩
  | vars names type => exact extends_resolveNames hdeclarable h
  | stop mistake => cases h
  | unendedCopy source mistake => cases h

theorem extends_resolveLocals {locals : List Declaration}
    (hdeclarable : ∀ declaration ∈ locals, declaration.Declarable) {declared : Env}
    {more : List IntType} (h : resolveLocals locals env cells = some (declared, more)) :
    Extends env cells declared more := by
  induction locals generalizing env cells with
  | nil =>
    cases h
    exact .refl _ _
  | cons declaration rest ih =>
    obtain ⟨⟨next, middle⟩, hnext, hrest⟩ := Option.bind_eq_some_iff.1 h
    have hfirst := Declaration.extends_resolve (hdeclarable _ List.mem_cons_self) hnext
    exact hfirst.trans (ih (fun other hother => hdeclarable other (List.mem_cons_of_mem _ hother))
      hrest)

/-- What a resolved statement leads to. -/
theorem Stmt.fits_resolve {stmt : Stmt} (hdeclarable : stmt.Declarable) {found : Core.Stmt}
    {more : List IntType} (h : stmt.resolve env cells = some (found, more)) :
    cells <+: more ∧ (∀ procedures, env.Fits cells procedures → found.Fits more procedures) ∧
      ((∀ type ∈ cells, type ∈ IntType.declarable) → ∀ type ∈ more, type ∈ IntType.declarable) := by
  induction stmt generalizing env cells found more with
  | skip =>
    cases h
    exact ⟨List.prefix_rfl, fun _ _ => trivial, fun hcells => hcells⟩
  | seq first second ihfirst ihsecond =>
    obtain ⟨⟨before, middle⟩, hfirst, hrest⟩ := Option.bind_eq_some_iff.1 h
    obtain ⟨⟨last, all⟩, hsecond, hfound⟩ := Option.bind_eq_some_iff.1 hrest
    cases hfound
    obtain ⟨hgrown, hfits, hcells⟩ := ihfirst hdeclarable.1 hfirst
    obtain ⟨hgrown', hfits', hcells'⟩ := ihsecond hdeclarable.2 hsecond
    refine ⟨hgrown.trans hgrown', fun procedures henv => ⟨?_, ?_⟩, fun h => hcells' (hcells h)⟩
    · exact (hfits procedures henv).mono hgrown' (Nat.le_refl _)
    · exact hfits' procedures (henv.mono hgrown (Nat.le_refl _))
  | assign target value =>
    obtain ⟨⟨id, type⟩, hcell, hrest⟩ := Option.bind_eq_some_iff.1 h
    obtain ⟨source, hsource, hfound⟩ := Option.bind_eq_some_iff.1 hrest
    cases hfound
    exact ⟨List.prefix_rfl, fun _ henv => ⟨henv.cell? hcell, Expr.fits_resolve henv hsource⟩,
      fun hcells => hcells⟩
  | call callee =>
    obtain ⟨id, hprocedure, hfound⟩ := Option.bind_eq_some_iff.1 h
    cases hfound
    exact ⟨List.prefix_rfl, fun _ henv => henv.procedure? hprocedure, fun hcells => hcells⟩
  | branch condition yes no ihyes ihno =>
    obtain ⟨test, htest, hrest⟩ := Option.bind_eq_some_iff.1 h
    obtain ⟨⟨first, middle⟩, hfirst, hrest⟩ := Option.bind_eq_some_iff.1 hrest
    obtain ⟨⟨second, all⟩, hsecond, hfound⟩ := Option.bind_eq_some_iff.1 hrest
    cases hfound
    obtain ⟨hgrown, hfits, hcells⟩ := ihyes hdeclarable.1 hfirst
    obtain ⟨hgrown', hfits', hcells'⟩ := ihno hdeclarable.2 hsecond
    refine ⟨hgrown.trans hgrown', fun procedures henv => ⟨?_, ?_, ?_⟩, fun h => hcells' (hcells h)⟩
    · exact Cond.fits_resolve (henv.mono (hgrown.trans hgrown') (Nat.le_refl _)) htest
    · exact (hfits procedures henv).mono hgrown' (Nat.le_refl _)
    · exact hfits' procedures (henv.mono hgrown (Nat.le_refl _))
  | loop condition body ih =>
    obtain ⟨test, htest, hrest⟩ := Option.bind_eq_some_iff.1 h
    obtain ⟨⟨inside, all⟩, hinside, hfound⟩ := Option.bind_eq_some_iff.1 hrest
    cases hfound
    obtain ⟨hgrown, hfits, hcells⟩ := ih hdeclarable hinside
    exact ⟨hgrown, fun procedures henv =>
      ⟨Cond.fits_resolve (henv.mono hgrown (Nat.le_refl _)) htest, hfits procedures henv⟩, hcells⟩
  | ret =>
    cases h
    exact ⟨List.prefix_rfl, fun _ _ => trivial, fun hcells => hcells⟩
  | block locals body ih =>
    obtain ⟨⟨declared, middle⟩, hlocals, hbody⟩ := Option.bind_eq_some_iff.1 h
    have hextends := extends_resolveLocals hdeclarable.1 hlocals
    obtain ⟨hgrown, hfits, hcells⟩ := ih hdeclarable.2 hbody
    exact ⟨hextends.grown.trans hgrown, fun procedures henv =>
      hfits procedures (hextends.fits procedures henv.enter),
      fun h => hcells (hextends.declarable h)⟩
  | stop mistake => cases h

/-- Procedures may refer to any procedure declared among them. -/
theorem Decls.extends_resolve {decls : Decls} (hdeclarable : decls.Declarable) {next : Nat}
    {declared : Env} {more : List IntType} {bodies : List Core.Stmt}
    (h : decls.resolve env cells next = some (declared, more, bodies)) :
    cells <+: more ∧ declared.tail = env.tail ∧
      (env.Fits cells next → declared.Fits more (next + bodies.length) ∧
        ∀ body ∈ bodies, body.Fits more (next + bodies.length)) ∧
      ((∀ type ∈ cells, type ∈ IntType.declarable) → ∀ type ∈ more, type ∈ IntType.declarable) := by
  induction decls generalizing env cells next declared more bodies with
  | nil =>
    cases h
    exact ⟨List.prefix_rfl, rfl, fun henv => ⟨henv, by simp⟩, fun hcells => hcells⟩
  | plain declaration rest ih =>
    obtain ⟨⟨middle, between⟩, hdeclaration, hrest⟩ := Option.bind_eq_some_iff.1 h
    have hextends := Declaration.extends_resolve hdeclarable.1 hdeclaration
    obtain ⟨hgrown, htail, hfits, hcells⟩ := ih hdeclarable.2 hrest
    exact ⟨hextends.grown.trans hgrown, htail.trans hextends.tail,
      fun henv => hfits (hextends.fits next henv), fun h => hcells (hextends.declarable h)⟩
  | nested heading locals body rest ihlocals ihrest =>
    obtain ⟨name, -, hrest⟩ := Option.bind_eq_some_iff.1 h
    obtain ⟨named, hnamed, hrest⟩ := Option.bind_eq_some_iff.1 hrest
    obtain ⟨⟨inner, inside, procedures⟩, hlocals, hrest⟩ := Option.bind_eq_some_iff.1 hrest
    obtain ⟨⟨code, most⟩, hbody, hrest⟩ := Option.bind_eq_some_iff.1 hrest
    obtain ⟨⟨last, all, others⟩, hothers, hfound⟩ := Option.bind_eq_some_iff.1 hrest
    cases hfound
    obtain ⟨hgrown, htail, hfits, hcells⟩ := ihlocals hdeclarable.1 hlocals
    obtain ⟨hgrown', hfits', hcells'⟩ := Stmt.fits_resolve hdeclarable.2.1 hbody
    obtain ⟨hgrown'', htail'', hfits'', hcells''⟩ := ihrest hdeclarable.2.2 hothers
    refine ⟨(hgrown.trans hgrown').trans hgrown'', htail''.trans (Env.tail_declare? hnamed), ?_,
      fun h => hcells'' (hcells' (hcells h))⟩
    intro henv
    have hdeclared : named.Fits cells (next + 1) :=
      (henv.mono List.prefix_rfl (Nat.le_succ _)).declare? hnamed (Nat.lt_succ_self next)
    obtain ⟨hinner, hprocedures⟩ := hfits hdeclared.enter
    have hcode := hfits' _ hinner
    obtain ⟨hlast, hothers⟩ :=
      hfits'' (hdeclared.mono (hgrown.trans hgrown') (Nat.le_add_right _ _))
    have hcount : next + (code :: procedures ++ others).length =
        next + 1 + procedures.length + others.length := by
      simp only [List.cons_append, List.length_cons, List.length_append]
      omega
    rw [hcount]
    refine ⟨hlast, ?_⟩
    intro other hother
    rcases List.mem_append.1 hother with hother | hother
    · rcases List.mem_cons.1 hother with rfl | hother
      · exact hcode.mono hgrown'' (Nat.le_add_right _ _)
      · exact (hprocedures other hother).mono (hgrown'.trans hgrown'') (Nat.le_add_right _ _)
    · exact hothers other hother
  | stop mistake => cases h

theorem Program.formed_resolve {program : Program} (hdeclarable : program.decls.Declarable)
    {found : Core.Program} (h : program.resolve = some found) : found.Formed := by
  obtain ⟨⟨env, cells, procedures⟩, hdecls, hfound⟩ := Option.bind_eq_some_iff.1 h
  cases hfound
  obtain ⟨-, -, hfits, hcells⟩ := Decls.extends_resolve hdeclarable hdecls
  have hstart : Env.Fits [] 0 [[]] := by
    intro scope hscope
    rw [List.mem_singleton.1 hscope]
    simp
  have hbodies := (hfits hstart).2
  rw [Nat.zero_add] at hbodies
  exact ⟨hcells (by simp), hbodies⟩

end Tree

end BlockLang
