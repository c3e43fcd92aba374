import BlockLang.Proofs.Session.Gains

/-! What a tree puts into the code: its procedures and variables in the order of the source,
each with the names of the procedures around it. Laying the tree declares them one after the
other, and nothing else. -/

namespace BlockLang

open Code Names BlockLang.Tree

/-- A procedure or a variable of a program. -/
structure Item where
  /-- The names of the procedures around it, outermost first, and its own. -/
  path : List String
  /-- The type of a variable, and whether it is declared in a block. -/
  cell? : Option (IntType × Bool)
  deriving Repr, DecidableEq

namespace Item

def name (item : Item) : String := ".".intercalate item.path

/-- Whether the item is a variable of a block. -/
def inBlock (item : Item) : Bool := item.cell?.any Prod.snd

end Item

/-- Declares an item under the first name for it that is free. The outermost procedure is not
internal. -/
def Code.Heads.declare (heads : Heads) (item : Item) : Heads :=
  match item.cell? with
  | some (type, _) => heads.addGlobal item.name (.int type.width)
  | none => heads.addFunction item.name (1 < item.path.length)

namespace Tree

/-- The variables of a declaration that stands inside the procedures `outer`. -/
def Declaration.items (outer : List String) (inBlock : Bool) : Declaration → List Item
  | vars names type => names.map fun name => ⟨outer ++ [name.name], some (type, inBlock)⟩
  | const _ _ | stop _ | unendedCopy _ _ => []

def Stmt.items (outer : List String) : Stmt → List Item
  | seq first second => first.items outer ++ second.items outer
  | branch _ yes no => yes.items outer ++ no.items outer
  | loop _ body => body.items outer
  | block locals body => locals.flatMap (Declaration.items outer true) ++ body.items outer
  | skip | assign _ _ | call _ | ret | stop _ => []

def Decls.items (outer : List String) : Decls → List Item
  | plain declaration rest => declaration.items outer false ++ rest.items outer
  | nested (.named name) locals body rest =>
    ⟨outer ++ [name.name], none⟩ ::
      (locals.items (outer ++ [name.name]) ++ body.items (outer ++ [name.name])) ++
        rest.items outer
  | nested (.unnamed _) _ _ rest | nested (.unended _ _) _ _ rest => rest.items outer
  | nil | stop _ => []

theorem Decls.items_nested {heading : Heading} {name : String} (h : heading.name? = some name)
    (outer : List String) (locals : Decls) (body : Stmt) (rest : Decls) :
    (nested heading locals body rest).items outer =
      ⟨outer ++ [name], none⟩ :: (locals.items (outer ++ [name]) ++ body.items (outer ++ [name])) ++
        rest.items outer := by
  cases heading with
  | named ident =>
    obtain rfl := Option.some.inj h
    rfl
  | unnamed mistake => cases h
  | unended ident mistake => cases h

end Tree

namespace Outline

variable {before after : Outline} {gained : List (String × SymbolId)}

/-- Symbols keep their names. -/
theorem Gains.outer (h : before.Gains gained after) (hclosed : before.Closed)
    (hprocedures : after.procedures = before.procedures) : after.outer = before.outer := by
  obtain ⟨more, hmore⟩ := h.symbols
  unfold Outline.outer
  rw [hprocedures, ← hmore]
  congr 1
  apply List.map_congr_left
  intro id hid
  rw [List.getElem?_append_left (hclosed.procedures id hid)]

theorem length_outer (outline : Outline) : outline.outer.length = outline.procedures.length := by
  simp [outer]

theorem heads_cell? (hclosed : before.Closed) {name : String} {type : IntType} {inBlock : Bool}
    (h : before.cell? name type = some after) :
    after.heads = before.heads.declare ⟨before.outer ++ [name], some (type, inBlock)⟩ ∧
      after.outer = before.outer := by
  obtain ⟨next, hadd, hnext⟩ := Option.bind_eq_some_iff.1 h
  have hgains := gains_add? hclosed hadd
  obtain ⟨-, hsame⟩ := of_add?_eq_some hadd
  have houter : next.outer = before.outer := hgains.outer hclosed (by rw [hsame]; rfl)
  have hafter := Option.some.inj hnext
  refine ⟨?_, ?_⟩
  · rw [← hafter]
    dsimp only
    rw [path, houter, hsame]
    rfl
  · rw [← houter, ← hafter]
    rfl

theorem heads_begin? (hclosed : before.Closed) {name : String}
    (h : before.begin? name = some after) :
    after.heads = before.heads.declare ⟨before.outer ++ [name], none⟩ ∧
      after.outer = before.outer ++ [name] := by
  obtain ⟨next, hadd, hnext⟩ := Option.bind_eq_some_iff.1 h
  have hgains := gains_add? hclosed hadd
  obtain ⟨-, hsame⟩ := of_add?_eq_some hadd
  have hprocedures : next.procedures = before.procedures := by rw [hsame]; rfl
  have houter : next.outer = before.outer := hgains.outer hclosed hprocedures
  have hafter := Option.some.inj hnext
  refine ⟨?_, ?_⟩
  · have hinternal : (!next.procedures.isEmpty) = decide (1 < (before.outer ++ [name]).length) := by
      rw [List.length_append, before.length_outer, hprocedures]
      cases before.procedures <;> simp
    rw [← hafter]
    change next.heads.addFunction (next.path name) (!next.procedures.isEmpty) = _
    rw [path, houter, hinternal, hsame]
    rfl
  · have hname : next.forest.symbols[before.forest.symbols.length]? = some { name } := by
      rw [hsame]
      simp [added, Forest.added]
    rw [← hafter, ← houter]
    simp [Outline.outer, begun, hname]

theorem procedures_begin? {name : String} (h : before.begin? name = some after) :
    after.procedures ≠ [] := by
  obtain ⟨next, -, hnext⟩ := Option.bind_eq_some_iff.1 h
  rw [← Option.some.inj hnext]
  exact List.cons_ne_nil _ _

end Outline

namespace Tree

open Outline

variable {before after : Outline}

theorem Declaration.heads_lay {declaration : Declaration} (inBlock : Bool)
    (hclosed : before.Closed) (h : declaration.lay before = some after) :
    after.heads = (declaration.items before.outer inBlock).foldl Heads.declare before.heads ∧
      after.outer = before.outer := by
  cases declaration with
  | const name value =>
    obtain ⟨-, hsame⟩ := of_add?_eq_some h
    refine ⟨by rw [hsame]; rfl, (gains_add? hclosed h).outer hclosed (by rw [hsame]; rfl)⟩
  | vars names type =>
    change names.foldlM (fun before name => before.cell? name.name type) before = some after at h
    induction names generalizing before with
    | nil =>
      obtain rfl := Option.some.inj h
      exact ⟨rfl, rfl⟩
    | cons name rest ih =>
      rw [List.foldlM_cons] at h
      obtain ⟨middle, hfirst, hrest⟩ := Option.bind_eq_some_iff.1 h
      obtain ⟨hheads, houter⟩ := heads_cell? hclosed hfirst
      obtain ⟨hmore, hsame⟩ := ih (gains_cell? hclosed hfirst).closed hrest
      refine ⟨?_, hsame.trans houter⟩
      rw [hmore, hheads, houter]
      rfl
  | stop mistake => cases h
  | unendedCopy source mistake => cases h

theorem heads_locals {locals : List Declaration} (hclosed : before.Closed)
    (h : locals.foldlM Declaration.lay before = some after) :
    after.heads = (locals.flatMap (Declaration.items before.outer true)).foldl Heads.declare
      before.heads ∧ after.outer = before.outer := by
  induction locals generalizing before with
  | nil =>
    obtain rfl := Option.some.inj h
    exact ⟨rfl, rfl⟩
  | cons declaration rest ih =>
    rw [List.foldlM_cons] at h
    obtain ⟨middle, hfirst, hrest⟩ := Option.bind_eq_some_iff.1 h
    obtain ⟨hheads, houter⟩ := Declaration.heads_lay true hclosed hfirst
    obtain ⟨_, hgains, -⟩ := Declaration.gains_lay hclosed hfirst
    obtain ⟨hmore, hsame⟩ := ih hgains.closed hrest
    refine ⟨?_, hsame.trans houter⟩
    rw [hmore, hheads, houter, List.flatMap_cons, List.foldl_append]

/-- A statement keeps the procedures that are open around it. -/
theorem Stmt.outer_lay {stmt : Stmt} (hclosed : before.Closed) (hopen : before.procedures ≠ [])
    (h : stmt.lay before = some after) :
    after.outer = before.outer ∧ after.procedures ≠ [] := by
  have hgains := Stmt.gains_lay hclosed h
  have hprocedures := hgains.procedures hopen
  exact ⟨hgains.outer hclosed hprocedures, by rwa [hprocedures]⟩

theorem Stmt.heads_lay {stmt : Stmt} (hclosed : before.Closed) (hopen : before.procedures ≠ [])
    (h : stmt.lay before = some after) :
    after.heads = (stmt.items before.outer).foldl Heads.declare before.heads := by
  induction stmt generalizing before after with
  | skip | assign | call | ret =>
    obtain rfl := Option.some.inj h
    rfl
  | seq first second ihfirst ihsecond =>
    obtain ⟨middle, hfirst, hsecond⟩ := Option.bind_eq_some_iff.1 h
    obtain ⟨houter, hopened⟩ := Stmt.outer_lay hclosed hopen hfirst
    rw [ihsecond (Stmt.gains_lay hclosed hfirst).closed hopened hsecond, houter,
      ihfirst hclosed hopen hfirst, ← List.foldl_append]
    rfl
  | branch condition yes no ihyes ihno =>
    obtain ⟨middle, hyes, hno⟩ := Option.bind_eq_some_iff.1 h
    obtain ⟨houter, hopened⟩ := Stmt.outer_lay hclosed hopen hyes
    rw [ihno (Stmt.gains_lay hclosed hyes).closed hopened hno, houter,
      ihyes hclosed hopen hyes, ← List.foldl_append]
    rfl
  | loop condition body ih => exact ih hclosed hopen h
  | block locals body ih =>
    obtain ⟨declared, hlocals, h⟩ := Option.bind_eq_some_iff.1 h
    obtain ⟨worked, hbody, hleft⟩ := Option.bind_eq_some_iff.1 h
    obtain ⟨gained, hgained, -⟩ := gains_locals hclosed.entered hlocals
    obtain ⟨hheads, houter⟩ := heads_locals hclosed.entered hlocals
    have hopened : declared.procedures ≠ [] := by
      rwa [hgained.procedures hopen]
    have hinside := hgained.trans (Stmt.gains_lay hgained.closed hbody) hclosed.entered.scope
    rw [(hinside.left hclosed hleft).2.2, ih hgained.closed hopened hbody, hheads, houter,
      ← List.foldl_append]
    rfl
  | stop mistake => cases h

/-- A whole procedure, once its own declarations are known to put in their items. -/
theorem Decls.heads_nested {locals : Decls} {body : Stmt} {name : String}
    {begun declared worked left : Outline} (hclosed : before.Closed)
    (hbegin : before.begin? name = some begun) (hlocals : locals.lay begun.entered = some declared)
    (hinside : declared.heads =
      (locals.items begun.entered.outer).foldl Heads.declare begun.entered.heads)
    (hbody : body.lay declared = some worked) (hleft : worked.left? = some left) :
    before.Gains [(name, before.forest.symbols.length)] left.ended ∧
      left.ended.heads = (⟨before.outer ++ [name], none⟩ ::
        (locals.items (before.outer ++ [name]) ++ body.items (before.outer ++ [name]))).foldl
          Heads.declare before.heads := by
  have hbegun := begin?_closed hclosed hbegin
  obtain ⟨hheads, houter⟩ := heads_begin? hclosed hbegin
  have hopen : begun.procedures ≠ [] := procedures_begin? hbegin
  obtain ⟨inside, hgained, -⟩ := Decls.gains_lay hbegun.entered hlocals
  have hprocedures := hgained.procedures hopen
  have hworked := hgained.trans (Stmt.gains_lay hgained.closed hbody) hbegun.entered.scope
  obtain ⟨hended, -, hsame⟩ := hworked.ended hclosed hbegin hleft
  refine ⟨hended, ?_⟩
  rw [hsame, Stmt.heads_lay hgained.closed (by rwa [hprocedures]) hbody, hinside,
    hgained.outer hbegun.entered hprocedures, show begun.entered.outer = begun.outer from rfl,
    houter, show begun.entered.heads = begun.heads from rfl, hheads, List.foldl_cons,
    List.foldl_append]

theorem Decls.heads_lay {decls : Decls} (hclosed : before.Closed) (hopen : before.procedures ≠ [])
    (h : decls.lay before = some after) :
    after.heads = (decls.items before.outer).foldl Heads.declare before.heads := by
  induction decls generalizing before after with
  | nil =>
    obtain rfl := Option.some.inj h
    rfl
  | plain declaration rest ih =>
    obtain ⟨middle, hfirst, hrest⟩ := Option.bind_eq_some_iff.1 h
    obtain ⟨hheads, houter⟩ := Declaration.heads_lay false hclosed hfirst
    obtain ⟨_, hgains, -⟩ := Declaration.gains_lay hclosed hfirst
    have hopened : middle.procedures ≠ [] := by
      rwa [Declaration.procedures_lay hfirst]
    rw [ih hgains.closed hopened hrest, hheads, houter, ← List.foldl_append]
    rfl
  | nested heading locals body rest ihlocals ihrest =>
    obtain ⟨name, begun, declared, worked, left, hname, hbegin, hlocals, hbody, hleft, hrest⟩ :=
      of_lay_nested h
    have hopened : begun.procedures ≠ [] := procedures_begin? hbegin
    have hinside := ihlocals (begin?_closed hclosed hbegin).entered hopened hlocals
    obtain ⟨hended, hheads⟩ := heads_nested hclosed hbegin hlocals hinside hbody hleft
    have hprocedures := hended.procedures hopen
    rw [ihrest hended.closed (by rwa [hprocedures]) hrest, hended.outer hclosed hprocedures, hheads,
      ← List.foldl_append, items_nested hname]
  | stop mistake => cases h

end Tree

end BlockLang
