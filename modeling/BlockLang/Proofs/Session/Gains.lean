import BlockLang.Proofs.Session.Laying
import BlockLang.Proofs.Session.Sound

/-! What laying declarations adds to an outline: the current scope gets new entries behind
those it has, every other scope stays as it is, and scopes that are opened on the way hold
symbols that are seen from nowhere else. -/

namespace BlockLang

open Code Names BlockLang.Tree

namespace Outline

/-- Everything the outline refers to is there. -/
structure Closed (outline : Outline) : Prop where
  heads : ∀ id < outline.forest.scopes.length, (outline.forest.chain id).head? = some id
  entries : ∀ scope ∈ outline.forest.scopes, ∀ entry ∈ scope.entries,
    entry.2 < outline.forest.symbols.length
  scope : outline.scope < outline.forest.scopes.length
  procedures : ∀ id ∈ outline.procedures, id < outline.forest.symbols.length

/-- The current scope of `before` has gained the entries `gained`. -/
structure Gains (before : Outline) (gained : List (String × SymbolId)) (after : Outline) :
    Prop where
  scope : after.scope = before.scope
  procedures : before.procedures ≠ [] → after.procedures = before.procedures
  symbols : before.forest.symbols <+: after.forest.symbols
  scopes : before.forest.scopes.length ≤ after.forest.scopes.length
  here : after.forest.scopes[before.scope]? = before.forest.scopes[before.scope]?.map fun found =>
    { found with entries := found.entries ++ gained }
  others : ∀ id < before.forest.scopes.length, id ≠ before.scope →
    after.forest.scopes[id]? = before.forest.scopes[id]?
  /-- What was declared further in is new, and not among what was gained. -/
  inner : ∀ (id : Nat) scope, before.forest.scopes.length ≤ id →
    after.forest.scopes[id]? = some scope → ∀ entry ∈ scope.entries,
      before.forest.symbols.length ≤ entry.2 ∧ entry.2 ∉ gained.map Prod.snd
  ids : ∀ entry ∈ gained, before.forest.symbols.length ≤ entry.2 ∧
    entry.2 < after.forest.symbols.length
  apart : ∀ entry ∈ gained, before.forest.declared? before.scope entry.1 = none
  distinct : (gained.map Prod.fst).Nodup
  closed : after.Closed

variable {before middle after : Outline} {gained more : List (String × SymbolId)}

theorem Gains.refl (h : before.Closed) : before.Gains [] before where
  scope := rfl
  procedures _ := rfl
  symbols := List.prefix_rfl
  scopes := Nat.le_refl _
  here := by simp
  others _ _ _ := rfl
  inner id scope hid hscope := by
    have hlt := (List.getElem?_eq_some_iff.1 hscope).1
    omega
  ids := by simp
  apart := by simp
  distinct := List.nodup_nil
  closed := h

theorem Gains.chain (h : before.Gains gained after) {id : ScopeId}
    (hid : id < before.forest.scopes.length) : after.forest.chain id = before.forest.chain id := by
  unfold Forest.chain
  by_cases hscope : id = before.scope
  · rw [hscope, h.here, Option.map_map]
    rfl
  · rw [h.others id hid hscope]

theorem Gains.declared (h : before.Gains gained after) (name : String)
    (hscope : before.scope < before.forest.scopes.length) :
    after.forest.declared? before.scope name =
      (before.forest.declared? before.scope name).or (gained.lookup name) := by
  unfold Forest.declared?
  rw [h.here, List.getElem?_eq_getElem hscope]
  simp [List.lookup_append]

theorem Gains.length (h : before.Gains gained after) :
    before.forest.symbols.length ≤ after.forest.symbols.length :=
  h.symbols.length_le

theorem lookup_eq_none {entries : List (String × SymbolId)} {name : String} :
    entries.lookup name = none ↔ name ∉ entries.map Prod.fst := by
  simp only [List.lookup_eq_none_iff, List.mem_map, not_exists, not_and, bne_iff_ne]
  constructor
  · intro h entry hentry hname
    exact h entry hentry hname.symm
  · intro h entry hentry hname
    exact h entry hentry hname.symm

theorem Gains.trans (h : before.Gains gained middle) (h' : middle.Gains more after)
    (hscope : before.scope < before.forest.scopes.length) :
    before.Gains (gained ++ more) after := by
  have hmiddle : middle.scope = before.scope := h.scope
  constructor
  case scope => exact h'.scope.trans h.scope
  case procedures =>
    intro hopen
    have hsecond := h.procedures hopen
    rw [h'.procedures (by rwa [hsecond]), hsecond]
  case symbols => exact h.symbols.trans h'.symbols
  case scopes => exact Nat.le_trans h.scopes h'.scopes
  case here =>
    have hhere := h'.here
    rw [hmiddle, h.here, Option.map_map] at hhere
    rw [hhere]
    congr 1
    funext found
    simp [List.append_assoc]
  case others =>
    intro id hid hne
    rw [h'.others id (Nat.lt_of_lt_of_le hid h.scopes) (by rwa [hmiddle]), h.others id hid hne]
  case inner =>
    intro id scope hid hfound entry hentry
    rw [List.map_append, List.mem_append]
    by_cases hold : id < middle.forest.scopes.length
    · have hne : id ≠ middle.scope := by
        rw [hmiddle]
        exact Nat.ne_of_gt (Nat.lt_of_lt_of_le hscope hid)
      rw [h'.others id hold hne] at hfound
      obtain ⟨hnew, hapart⟩ := h.inner id scope hid hfound entry hentry
      refine ⟨hnew, ?_⟩
      rintro (hmem | hmem)
      · exact hapart hmem
      · obtain ⟨other, hother, hsame⟩ := List.mem_map.1 hmem
        have hlt := h.closed.entries scope (List.mem_of_getElem? hfound) entry hentry
        have hge := (h'.ids other hother).1
        rw [hsame] at hge
        exact Nat.not_lt.2 hge hlt
    · obtain ⟨hnew, hapart⟩ := h'.inner id scope (Nat.le_of_not_lt hold) hfound entry hentry
      refine ⟨Nat.le_trans h.length hnew, ?_⟩
      rintro (hmem | hmem)
      · obtain ⟨other, hother, hsame⟩ := List.mem_map.1 hmem
        have hlt := (h.ids other hother).2
        rw [hsame] at hlt
        exact Nat.not_lt.2 hnew hlt
      · exact hapart hmem
  case ids =>
    intro entry hentry
    rcases List.mem_append.1 hentry with hold | hnew
    · obtain ⟨hge, hlt⟩ := h.ids entry hold
      exact ⟨hge, Nat.lt_of_lt_of_le hlt h'.length⟩
    · obtain ⟨hge, hlt⟩ := h'.ids entry hnew
      exact ⟨Nat.le_trans h.length hge, hlt⟩
  case apart =>
    intro entry hentry
    rcases List.mem_append.1 hentry with hold | hnew
    · exact h.apart entry hold
    · have hfree := h'.apart entry hnew
      rw [hmiddle, h.declared _ hscope] at hfree
      exact (Option.or_eq_none_iff.1 hfree).1
  case distinct =>
    rw [List.map_append, List.nodup_append]
    refine ⟨h.distinct, h'.distinct, ?_⟩
    intro name hold other hnew hsame
    obtain ⟨entry, hentry, rfl⟩ := List.mem_map.1 hnew
    have hfree := h'.apart entry hentry
    rw [hmiddle, h.declared _ hscope] at hfree
    exact lookup_eq_none.1 (Option.or_eq_none_iff.1 hfree).2 (hsame ▸ hold)
  case closed => exact h'.closed

theorem Closed.withHeads (h : before.Closed) (heads : Heads) :
    ({ before with heads } : Outline).Closed :=
  ⟨h.heads, h.entries, h.scope, h.procedures⟩

/-- The names in the code are another matter. -/
theorem Gains.withHeads (h : before.Gains gained after) (heads : Heads) :
    before.Gains gained { after with heads } :=
  ⟨h.scope, h.procedures, h.symbols, h.scopes, h.here, h.others, h.inner, h.ids, h.apart,
    h.distinct, h.closed.withHeads heads⟩

theorem Closed.added (h : before.Closed) (name : String) : (before.added name).Closed := by
  have hlength : (before.added name).forest.symbols.length = before.forest.symbols.length + 1 := by
    simp [Outline.added, Forest.added]
  have hscopes : (before.added name).forest.scopes.length = before.forest.scopes.length := by
    simp [Outline.added, Forest.added]
  constructor
  case heads =>
    intro id hid
    rw [hscopes] at hid
    exact (congrArg List.head? (Forest.chain_added _ _ _ _)).trans (h.heads id hid)
  case entries =>
    intro scope hscope entry hentry
    obtain ⟨found, hfound, hentries⟩ := Forest.mem_added hscope
    rw [hlength]
    rcases hentries entry hentry with hold | rfl
    · exact Nat.lt_succ_of_lt (h.entries found hfound entry hold)
    · exact Nat.lt_succ_self _
  case scope =>
    rw [hscopes]
    exact h.scope
  case procedures =>
    intro id hid
    rw [hlength]
    exact Nat.lt_succ_of_lt (h.procedures id hid)

theorem of_add?_eq_some {name : String} (h : before.add? name = some after) :
    before.forest.declared? before.scope name = none ∧ after = before.added name := by
  unfold add? at h
  split at h
  · cases h
  · next hdeclared => exact ⟨Option.not_isSome_iff_eq_none.1 hdeclared, (Option.some.inj h).symm⟩

theorem gains_add? (hclosed : before.Closed) {name : String} (h : before.add? name = some after) :
    before.Gains [(name, before.forest.symbols.length)] after := by
  obtain ⟨hfree, rfl⟩ := of_add?_eq_some h
  have hscopes (id : Nat) : (before.added name).forest.scopes[id]? =
      before.forest.scopes[id]?.map fun found =>
        if before.scope = id then
          { found with entries := found.entries ++ [(name, before.forest.symbols.length)] }
        else found := by
    simp only [added, Forest.added, List.getElem?_modify]
    rfl
  have hsymbols : before.forest.symbols.length < (before.added name).forest.symbols.length := by
    simp [added, Forest.added]
  constructor
  case scope => rfl
  case procedures => exact fun _ => rfl
  case symbols => exact List.prefix_append _ _
  case scopes => simp [added, Forest.added]
  case here => simp [hscopes]
  case others =>
    intro id _ hne
    simp [hscopes, Ne.symm hne]
  case inner =>
    intro id scope hid hfound
    have hlt := (List.getElem?_eq_some_iff.1 hfound).1
    simp only [added, Forest.added, List.length_modify] at hlt
    omega
  case ids => simpa using hsymbols
  case apart => simpa using hfree
  case distinct => simp
  case closed => exact hclosed.added name

theorem gains_cell? (hclosed : before.Closed) {name : String} {type : IntType}
    (h : before.cell? name type = some after) :
    before.Gains [(name, before.forest.symbols.length)] after := by
  obtain ⟨next, hadd, hnext⟩ := Option.bind_eq_some_iff.1 h
  rw [← Option.some.inj hnext]
  exact (gains_add? hclosed hadd).withHeads _

theorem Closed.entered (h : before.Closed) : before.entered.Closed := by
  have hscopes : before.entered.forest.scopes.length = before.forest.scopes.length + 1 := by
    simp [Outline.entered, Forest.openScope]
  constructor
  case heads =>
    intro id hid
    rw [hscopes] at hid
    by_cases hold : id < before.forest.scopes.length
    · exact (congrArg List.head? (Forest.chain_openScope_lt _ _ hold)).trans (h.heads id hold)
    · obtain rfl : id = before.forest.scopes.length := by omega
      exact congrArg List.head? (Forest.chain_openScope_new _ _)
  case entries =>
    intro scope hscope
    rcases List.mem_append.1 hscope with hold | hnew
    · exact h.entries scope hold
    · rw [List.mem_singleton.1 hnew]
      simp
  case scope =>
    rw [hscopes]
    exact Nat.lt_succ_self _
  case procedures => exact h.procedures

/-- Whatever is gained in a scope of its own is not gained outside. -/
theorem Gains.left (hclosed : before.Closed) (h : before.entered.Gains gained middle)
    (hleft : middle.left? = some after) :
    before.Gains [] after ∧ after.procedures = middle.procedures ∧ after.heads = middle.heads := by
  have hscopes : before.entered.forest.scopes.length = before.forest.scopes.length + 1 := by
    simp [Outline.entered, Forest.openScope]
  have hold : ∀ id < before.forest.scopes.length,
      middle.forest.scopes[id]? = before.forest.scopes[id]? := by
    intro id hid
    rw [h.others id (by omega) (Nat.ne_of_lt hid)]
    exact List.getElem?_append_left hid
  have hparent : middle.forest.parent? middle.scope = some before.scope := by
    unfold Forest.parent?
    rw [h.scope, h.chain (by rw [hscopes]; exact Nat.lt_succ_self _)]
    refine (congrArg (fun chain => chain[1]?) (Forest.chain_openScope_new _ _)).trans ?_
    rw [List.getElem?_cons_succ, ← List.head?_eq_getElem?]
    exact hclosed.heads before.scope hclosed.scope
  obtain ⟨scope, hscope, hafter⟩ := Option.bind_eq_some_iff.1 hleft
  rw [hparent] at hscope
  obtain rfl := Option.some.inj hscope
  obtain rfl := Option.some.inj hafter
  refine ⟨?_, rfl, rfl⟩
  constructor
  case scope => rfl
  case procedures => exact h.procedures
  case symbols => exact h.symbols
  case scopes => exact Nat.le_trans (by omega) h.scopes
  case here =>
    rw [hold _ hclosed.scope]
    simp
  case others => exact fun id hid _ => hold id hid
  case inner =>
    intro id scope hid hfound entry hentry
    refine ⟨?_, by simp⟩
    by_cases hnew : id = before.forest.scopes.length
    · have hhere := h.here
      rw [show before.entered.scope = id from hnew.symm, hfound] at hhere
      simp only [Outline.entered, Forest.openScope, hnew, List.getElem?_concat_length,
        Option.map_some, List.nil_append, Option.some.injEq] at hhere
      rw [hhere] at hentry
      exact (h.ids entry hentry).1
    · have hbeyond : before.entered.forest.scopes.length ≤ id := by omega
      exact (h.inner id scope hbeyond hfound entry hentry).1
  case ids => simp
  case apart => simp
  case distinct => exact List.nodup_nil
  case closed =>
    exact ⟨h.closed.heads, h.closed.entries, Nat.lt_of_lt_of_le hclosed.scope
      (Nat.le_trans (by omega) h.scopes), h.closed.procedures⟩

theorem ended_eq {id : SymbolId} {rest : List SymbolId} (h : before.procedures = id :: rest) :
    before.ended = { before with procedures := if rest = [] then [id] else rest } := by
  unfold ended
  rw [h]
  cases rest with
  | nil =>
    dsimp only
    rw [if_pos rfl, ← h]
  | cons outer rest => rfl

theorem begin?_closed (hclosed : before.Closed) {name : String}
    (h : before.begin? name = some after) : after.Closed := by
  obtain ⟨next, hadd, hbegun⟩ := Option.bind_eq_some_iff.1 h
  obtain rfl := Option.some.inj hbegun
  have hnext := gains_add? hclosed hadd
  refine ⟨hnext.closed.heads, hnext.closed.entries, hnext.closed.scope, ?_⟩
  intro id hid
  rcases List.mem_cons.1 hid with rfl | hid
  · exact (hnext.ids _ List.mem_cons_self).2
  · exact hnext.closed.procedures id hid

/-- Outside a procedure nothing but its name is gained. -/
theorem Gains.ended (hclosed : before.Closed) {name : String} {begun worked left : Outline}
    (hbegin : before.begin? name = some begun) (h : begun.entered.Gains gained worked)
    (hleft : worked.left? = some left) :
    before.Gains [(name, before.forest.symbols.length)] left.ended ∧
      (before.procedures = [] → left.ended.procedures = [before.forest.symbols.length]) ∧
        left.ended.heads = worked.heads := by
  have hopened := begin?_closed hclosed hbegin
  obtain ⟨next, hadd, hbegun⟩ := Option.bind_eq_some_iff.1 hbegin
  obtain rfl := Option.some.inj hbegun
  have hnext := gains_add? hclosed hadd
  have hsame : next.procedures = before.procedures := by
    obtain ⟨-, rfl⟩ := of_add?_eq_some hadd
    rfl
  obtain ⟨houtside, hprocedures, hheads⟩ := Gains.left hopened h hleft
  have hopen : left.procedures = before.forest.symbols.length :: before.procedures := by
    rw [houtside.procedures (List.cons_ne_nil _ _), ← hsame]
    rfl
  have hended := ended_eq hopen
  have hinside : next.Gains [] left.ended := by
    rw [hended]
    refine ⟨houtside.scope, ?_, houtside.symbols, houtside.scopes, houtside.here, houtside.others,
      houtside.inner, houtside.ids, houtside.apart, houtside.distinct, houtside.closed.heads,
      houtside.closed.entries, houtside.closed.scope, ?_⟩
    · intro hnonempty
      rw [hsame] at hnonempty ⊢
      exact if_neg hnonempty
    · intro id hid
      apply houtside.closed.procedures
      rw [hopen]
      dsimp only at hid
      split at hid
      · rw [List.mem_singleton.1 hid]
        exact List.mem_cons_self
      · exact List.mem_cons_of_mem _ hid
  refine ⟨hnext.trans hinside hclosed.scope, ?_, ?_⟩
  · intro hempty
    rw [hended, if_pos hempty]
  · rw [hended]
    exact hheads

end Outline

namespace Tree

open Outline

def Declaration.names : Declaration → List String
  | const name _ => [name.name]
  | vars names _ => names.map Ident.name
  | stop _ | unendedCopy _ _ => []

/-- What the declarations themselves declare, and not those inside them. -/
def Decls.names : Decls → List String
  | nil | stop _ => []
  | plain declaration rest => declaration.names ++ rest.names
  | nested heading _ _ rest => heading.name?.toList ++ rest.names

variable {before after : Outline}

theorem gains_foldlM {α : Type} {step : Outline → α → Option Outline} (names : α → List String)
    (hstep : ∀ {before after : Outline} {item : α}, before.Closed → step before item = some after →
      ∃ gained, before.Gains gained after ∧ gained.map Prod.fst = names item)
    (items : List α) (hclosed : before.Closed) (h : items.foldlM step before = some after) :
    ∃ gained, before.Gains gained after ∧ gained.map Prod.fst = items.flatMap names := by
  induction items generalizing before with
  | nil =>
    obtain rfl := Option.some.inj h
    exact ⟨[], .refl hclosed, rfl⟩
  | cons item rest ih =>
    rw [List.foldlM_cons] at h
    obtain ⟨middle, hfirst, hrest⟩ := Option.bind_eq_some_iff.1 h
    obtain ⟨gained, hgained, hnames⟩ := hstep hclosed hfirst
    obtain ⟨more, hmore, hothers⟩ := ih hgained.closed hrest
    refine ⟨gained ++ more, hgained.trans hmore hclosed.scope, ?_⟩
    rw [List.map_append, hnames, hothers, List.flatMap_cons]

theorem Declaration.gains_lay {declaration : Declaration} (hclosed : before.Closed)
    (h : declaration.lay before = some after) :
    ∃ gained, before.Gains gained after ∧ gained.map Prod.fst = declaration.names := by
  cases declaration with
  | const name value => exact ⟨_, gains_add? hclosed h, rfl⟩
  | vars names type =>
    obtain ⟨gained, hgained, hnames⟩ := gains_foldlM (fun name => [name.name])
      (fun hclosed hcell => ⟨_, gains_cell? hclosed hcell, rfl⟩) names hclosed h
    exact ⟨gained, hgained, hnames.trans List.map_eq_flatMap.symm⟩
  | stop mistake => cases h
  | unendedCopy source mistake => cases h

theorem Declaration.procedures_lay {declaration : Declaration}
    (h : declaration.lay before = some after) : after.procedures = before.procedures := by
  have hadd : ∀ {before after : Outline} {name : String}, before.add? name = some after →
      after.procedures = before.procedures := by
    intro before after name h
    obtain ⟨-, rfl⟩ := of_add?_eq_some h
    rfl
  cases declaration with
  | const name value => exact hadd h
  | vars names type =>
    change names.foldlM (fun before name => before.cell? name.name type) before = some after at h
    induction names generalizing before with
    | nil =>
      obtain rfl := Option.some.inj h
      rfl
    | cons name rest ih =>
      rw [List.foldlM_cons] at h
      obtain ⟨middle, hfirst, hrest⟩ := Option.bind_eq_some_iff.1 h
      obtain ⟨next, hnext, hmiddle⟩ := Option.bind_eq_some_iff.1 hfirst
      have hsame : middle.procedures = next.procedures := by
        rw [← Option.some.inj hmiddle]
      exact (ih hrest).trans (hsame.trans (hadd hnext))
  | stop mistake => cases h
  | unendedCopy source mistake => cases h

theorem gains_locals {locals : List Declaration} (hclosed : before.Closed)
    (h : locals.foldlM Declaration.lay before = some after) :
    ∃ gained, before.Gains gained after ∧
      gained.map Prod.fst = locals.flatMap Declaration.names :=
  gains_foldlM Declaration.names Declaration.gains_lay locals hclosed h

theorem Stmt.gains_lay {stmt : Stmt} (hclosed : before.Closed) (h : stmt.lay before = some after) :
    before.Gains [] after := by
  induction stmt generalizing before after with
  | skip | assign | call | ret =>
    obtain rfl := Option.some.inj h
    exact .refl hclosed
  | seq first second ihfirst ihsecond =>
    obtain ⟨middle, hfirst, hsecond⟩ := Option.bind_eq_some_iff.1 h
    have hgains := ihfirst hclosed hfirst
    exact hgains.trans (ihsecond hgains.closed hsecond) hclosed.scope
  | branch condition yes no ihyes ihno =>
    obtain ⟨middle, hyes, hno⟩ := Option.bind_eq_some_iff.1 h
    have hgains := ihyes hclosed hyes
    exact hgains.trans (ihno hgains.closed hno) hclosed.scope
  | loop condition body ih => exact ih hclosed h
  | block locals body ih =>
    obtain ⟨declared, hlocals, h⟩ := Option.bind_eq_some_iff.1 h
    obtain ⟨worked, hbody, hleft⟩ := Option.bind_eq_some_iff.1 h
    obtain ⟨gained, hgained, -⟩ := gains_locals hclosed.entered hlocals
    have hinside := hgained.trans (ih hgained.closed hbody) hclosed.entered.scope
    exact (hinside.left hclosed hleft).1
  | stop mistake => cases h

theorem Decls.of_lay_nested {heading : Heading} {locals rest : Decls} {body : Stmt}
    (h : (nested heading locals body rest).lay before = some after) :
    ∃ name begun declared worked left, heading.name? = some name ∧
      before.begin? name = some begun ∧ locals.lay begun.entered = some declared ∧
      body.lay declared = some worked ∧ worked.left? = some left ∧
      rest.lay left.ended = some after := by
  obtain ⟨name, hname, h⟩ := Option.bind_eq_some_iff.1 h
  obtain ⟨begun, hbegin, h⟩ := Option.bind_eq_some_iff.1 h
  obtain ⟨declared, hlocals, h⟩ := Option.bind_eq_some_iff.1 h
  obtain ⟨worked, hbody, h⟩ := Option.bind_eq_some_iff.1 h
  obtain ⟨left, hleft, hrest⟩ := Option.bind_eq_some_iff.1 h
  exact ⟨name, begun, declared, worked, left, hname, hbegin, hlocals, hbody, hleft, hrest⟩

theorem Decls.gains_lay {decls : Decls} (hclosed : before.Closed)
    (h : decls.lay before = some after) :
    ∃ gained, before.Gains gained after ∧ gained.map Prod.fst = decls.names := by
  induction decls generalizing before after with
  | nil =>
    obtain rfl := Option.some.inj h
    exact ⟨[], .refl hclosed, rfl⟩
  | plain declaration rest ih =>
    obtain ⟨middle, hfirst, hrest⟩ := Option.bind_eq_some_iff.1 h
    obtain ⟨gained, hgained, hnames⟩ := Declaration.gains_lay hclosed hfirst
    obtain ⟨more, hmore, hothers⟩ := ih hgained.closed hrest
    refine ⟨gained ++ more, hgained.trans hmore hclosed.scope, ?_⟩
    rw [List.map_append, hnames, hothers]
    rfl
  | nested heading locals body rest ihlocals ihrest =>
    obtain ⟨name, begun, declared, worked, left, hname, hbegin, hlocals, hbody, hleft, hrest⟩ :=
      of_lay_nested h
    have hbegun := begin?_closed hclosed hbegin
    obtain ⟨inside, hinside, -⟩ := ihlocals hbegun.entered hlocals
    have hworked := hinside.trans (Stmt.gains_lay hinside.closed hbody) hbegun.entered.scope
    obtain ⟨hended, -⟩ := hworked.ended hclosed hbegin hleft
    obtain ⟨more, hmore, hothers⟩ := ihrest hended.closed hrest
    refine ⟨_, hended.trans hmore hclosed.scope, ?_⟩
    simp [Decls.names, hname, hothers]
  | stop mistake => cases h

end Tree

end BlockLang
