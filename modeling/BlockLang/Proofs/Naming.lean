import BlockLang.Proofs.Balance
import BlockLang.Proofs.Code.Fresh
import BlockLang.Proofs.Recognition
import BlockLang.Proofs.Session.Items
import BlockLang.Proofs.Text.Joining
import BlockLang.Proofs.Unit
import Mathlib.Data.List.Nodup

/-! What the procedures and variables of a unit are called in its code. Each is called by the
path to it; only a variable of a block can find its path taken, and then gets a number. A
path never looks like a numbered one, and whatever is not in a block has a path of its own. -/

namespace BlockLang

open Code Names Compiler BlockLang.Tree

namespace Item

/-- The names that items are given where `taken` are given already. -/
def given (taken : NameSet) : List Item → List String
  | [] => []
  | item :: rest => fresh taken item.name :: given (taken.insert (fresh taken item.name)) rest

def global? (item : Item) (name : String) : Option Global :=
  item.cell?.map fun cell => ⟨name, .int cell.1.width⟩

/-- The name of the function and whether it is internal. -/
def function? (item : Item) (name : String) : Option (String × Bool) :=
  if item.cell?.isNone then some (name, decide (1 < item.path.length)) else none

variable {taken : NameSet} {names : List String} {items : List Item}

theorem length_given (taken : NameSet) (items : List Item) :
    (given taken items).length = items.length := by
  induction items generalizing taken with
  | nil => rfl
  | cons item rest ih => exact congrArg (· + 1) (ih _)

theorem leastFree_given (htaken : taken.Lists names) {index : Nat} {item : Item} {name : String}
    (hitem : items[index]? = some item) (hname : (given taken items)[index]? = some name) :
    LeastFree (names ++ (given taken items).take index) item.name name := by
  induction items generalizing taken names index with
  | nil => cases hitem
  | cons first rest ih =>
    cases index with
    | zero =>
      obtain rfl := Option.some.inj hitem
      obtain rfl := Option.some.inj hname
      simpa using leastFree_fresh htaken first.name
    | succ index =>
      have hleast := ih (htaken.insert _) hitem hname
      rwa [List.append_assoc] at hleast

end Item

namespace Code.Heads

variable {heads : Heads}

theorem names_declare (heads : Heads) (item : Item) :
    (heads.declare item).names.Perm (heads.names ++ [fresh heads.taken item.name]) := by
  unfold declare
  split
  · simp only [addGlobal, names, List.map_append, List.map_cons, List.map_nil, List.append_assoc]
    exact List.Perm.append_left _ List.perm_append_comm
  · simp only [addFunction, names, List.map_append, List.map_cons, List.map_nil, List.append_assoc]
    exact .refl _

theorem taken_declare (heads : Heads) (item : Item) :
    (heads.declare item).taken = heads.taken.insert (fresh heads.taken item.name) := by
  unfold declare
  split <;> rfl

/-- The names that are taken are those that are there, each of them once. -/
structure Tidy (heads : Heads) : Prop where
  inStep : heads.taken.Lists heads.names
  distinct : heads.names.Nodup

theorem Tidy.declare (h : heads.Tidy) (item : Item) : (heads.declare item).Tidy := by
  have hnames := (heads.names_declare item).symm
  have hfree := (leastFree_fresh h.inStep item.name).not_mem
  constructor
  · rw [taken_declare]
    exact NameSet.Lists.of_perm (h.inStep.insert _) hnames
  · rw [← hnames.nodup_iff, ← List.concat_eq_append]
    exact h.distinct.concat hfree

theorem Tidy.foldl (h : heads.Tidy) (items : List Item) : (items.foldl Heads.declare heads).Tidy := by
  induction items generalizing heads with
  | nil => exact h
  | cons item rest ih => exact ih (h.declare item)

/-- Declaring items gives them their names and changes nothing that was there. -/
theorem foldl_declare (heads : Heads) (items : List Item) :
    (items.foldl declare heads).globals = heads.globals ++
        (items.zip (Item.given heads.taken items)).filterMap (fun (item, name) => item.global? name) ∧
      (items.foldl declare heads).functions = heads.functions ++
        (items.zip (Item.given heads.taken items)).filterMap fun (item, name) =>
          item.function? name := by
  induction items generalizing heads with
  | nil => simp
  | cons item rest ih =>
    obtain ⟨hglobals, hfunctions⟩ := ih (heads.declare item)
    rw [List.foldl_cons, hglobals, hfunctions, taken_declare]
    simp only [Item.given, List.zip_cons_cons, List.filterMap_cons]
    cases hcell : item.cell? with
    | none => simp [declare, addFunction, Item.global?, Item.function?, hcell]
    | some cell => simp [declare, addGlobal, Item.global?, Item.function?, hcell]

end Code.Heads

/-- A word that can be a part of a path and no number. -/
def IsWord (part : String) : Prop :=
  part.toList.all Token.isWordRest = true ∧ part.toList.head?.any Char.isDigit = false

theorem IsWord.dotless {part : String} (h : IsWord part) : '.' ∉ part.toList :=
  fun hdot => absurd (List.all_eq_true.1 h.1 '.' hdot) (by decide)

theorem toString_digits (number : Nat) : '.' ∉ (toString number).toList ∧
    (toString number).toList.head?.any Char.isDigit = true := by
  have hdigits := isDigit_toString number
  refine ⟨fun hdot => absurd (hdigits '.' hdot) (by decide), ?_⟩
  cases hlist : (toString number).toList with
  | nil =>
    rw [Nat.toString_eq_repr, Nat.toList_repr] at hlist
    exact absurd hlist (by simp)
  | cons char rest =>
    rw [hlist] at hdigits
    simpa using hdigits char List.mem_cons_self

namespace Item

/-- The parts of a path are words, and there is one at least. -/
def Worded (item : Item) : Prop := item.path ≠ [] ∧ ∀ part ∈ item.path, IsWord part

/-- The name of an item is never that of another with a number behind it. -/
theorem Worded.path_eq {item other : Item} (hitem : item.Worded) (hother : other.Worded)
    {number : Nat} (h : item.name = numbered other.name number) : item.path = other.path := by
  cases number with
  | zero =>
    exact intercalate_injective rfl hitem.1 hother.1 (fun part hpart => (hitem.2 part hpart).dotless)
      (fun part hpart => (hother.2 part hpart).dotless) h
  | succ number =>
    obtain ⟨hdot, hdigit⟩ := toString_digits (number + 1)
    have hjoined : ".".intercalate item.path =
        ".".intercalate (other.path ++ [toString (number + 1)]) := by
      rw [String.intercalate_append_of_ne_nil hother.1 (by simp)]
      exact h
    have hpath := intercalate_injective rfl hitem.1 (by simp)
      (fun part hpart => (hitem.2 part hpart).dotless) (by
        intro part hpart
        rcases List.mem_append.1 hpart with hpart | hpart
        · exact (hother.2 part hpart).dotless
        · rwa [List.mem_singleton.1 hpart]) hjoined
    have hlast := (hitem.2 (toString (number + 1)) (by simp [hpath])).2
    rw [hdigit] at hlast
    cases hlast

variable {taken : List String} {items : List Item}

/-- Whatever has a path of its own among the items is called by it. -/
theorem name_given (hworded : ∀ item ∈ items, item.Worded)
    (happart : items.Pairwise fun earlier later =>
      later.inBlock = false → earlier.path ≠ later.path)
    {index : Nat} {item : Item} {name : String} (hitem : items[index]? = some item)
    (hname : (given ∅ items)[index]? = some name) (houtside : item.inBlock = false) :
    name = item.name := by
  have hfree : item.name ∉ (given ∅ items).take index := by
    intro hmem
    obtain ⟨before, hbefore⟩ := List.getElem?_of_mem hmem
    have hlt : before < index := by
      have := (List.getElem?_eq_some_iff.1 hbefore).1
      rw [List.length_take] at this
      omega
    rw [List.getElem?_take_of_lt hlt] at hbefore
    have hindex := (List.getElem?_eq_some_iff.1 hitem).1
    have hearlier := List.getElem?_eq_getElem (Nat.lt_trans hlt hindex)
    obtain ⟨number, hnumber⟩ := (leastFree_given NameSet.lists_empty hearlier hbefore).numbered
    have hpath := (hworded item (List.mem_of_getElem? hitem)).path_eq
      (hworded _ (List.mem_of_getElem? hearlier)) hnumber
    have hne := List.pairwise_iff_getElem.1 happart before index (Nat.lt_trans hlt hindex) hindex
      hlt
    rw [(List.getElem?_eq_some_iff.1 hitem).2] at hne
    exact hne houtside hpath.symm
  cases leastFree_given NameSet.lists_empty hitem hname with
  | plain _ => rfl
  | suffixed htaken => exact (hfree htaken).elim

end Item

namespace Tree

variable {outer : List String} {item : Item}

theorem Declaration.path_items {declaration : Declaration} {inBlock : Bool}
    (h : item ∈ declaration.items outer inBlock) :
    (∃ name ∈ declaration.names, item.path = outer ++ [name]) ∧
      ∃ type, item.cell? = some (type, inBlock) := by
  cases declaration with
  | vars names type =>
    obtain ⟨name, hname, rfl⟩ := List.mem_map.1 h
    exact ⟨⟨name.name, List.mem_map_of_mem hname, rfl⟩, type, rfl⟩
  | _ => cases h

theorem Stmt.path_items {stmt : Stmt} (h : item ∈ stmt.items outer) :
    (∃ name, item.path = outer ++ [name]) ∧ item.inBlock = true := by
  induction stmt with
  | seq first second ihfirst ihsecond => exact (List.mem_append.1 h).elim ihfirst ihsecond
  | branch condition yes no ihyes ihno => exact (List.mem_append.1 h).elim ihyes ihno
  | loop condition body ih => exact ih h
  | block locals body ih =>
    rcases List.mem_append.1 h with hlocal | hbody
    · obtain ⟨declaration, -, hitem⟩ := List.mem_flatMap.1 hlocal
      obtain ⟨⟨name, -, hpath⟩, type, hcell⟩ := Declaration.path_items hitem
      exact ⟨⟨name, hpath⟩, by simp [Item.inBlock, hcell]⟩
    · exact ih hbody
  | _ => cases h

/-- What stands inside a procedure has a path through it. -/
theorem path_inside {name : String} {locals : Decls} {body : Stmt}
    (hlocals : ∀ item ∈ locals.items (outer ++ [name]), ∃ inner ∈ locals.names,
      ∃ further, item.path = outer ++ [name] ++ inner :: further)
    (h : item ∈ ⟨outer ++ [name], none⟩ ::
      (locals.items (outer ++ [name]) ++ body.items (outer ++ [name]))) :
    ∃ further, item.path = outer ++ name :: further := by
  rcases List.mem_cons.1 h with rfl | hinside
  · exact ⟨[], rfl⟩
  rcases List.mem_append.1 hinside with hlocal | hbody
  · obtain ⟨inner, -, further, hpath⟩ := hlocals item hlocal
    exact ⟨inner :: further, by simpa using hpath⟩
  · obtain ⟨⟨inner, hpath⟩, -⟩ := Stmt.path_items hbody
    exact ⟨[inner], by simpa using hpath⟩

/-- Every path goes through what is declared at the top. -/
theorem Decls.path_items {decls : Decls} (h : item ∈ decls.items outer) :
    ∃ name ∈ decls.names, ∃ further, item.path = outer ++ name :: further := by
  induction decls generalizing outer item with
  | plain declaration rest ih =>
    rcases List.mem_append.1 h with hfirst | hrest
    · obtain ⟨⟨name, hname, hpath⟩, -⟩ := Declaration.path_items hfirst
      exact ⟨name, List.mem_append_left _ hname, [], hpath⟩
    · obtain ⟨name, hname, hpath⟩ := ih hrest
      exact ⟨name, List.mem_append_right _ hname, hpath⟩
  | nested heading locals body rest ihlocals ihrest =>
    have hrest : item ∈ rest.items outer → ∃ name ∈ (nested heading locals body rest).names,
        ∃ further, item.path = outer ++ name :: further := by
      intro hrest
      obtain ⟨name, hname, hpath⟩ := ihrest hrest
      exact ⟨name, List.mem_append_right _ hname, hpath⟩
    cases heading with
    | named name =>
      refine (List.mem_append.1 h).elim ?_ hrest
      intro hhere
      refine ⟨name.name, List.mem_append_left _ List.mem_cons_self, ?_⟩
      exact path_inside (fun item hitem => ihlocals hitem) hhere
    | unnamed mistake => exact hrest h
    | unended name mistake => exact hrest h
  | _ => cases h

theorem Decls.nodup_names {decls : Decls} {before after : Outline} (hclosed : before.Closed)
    (h : decls.lay before = some after) : decls.names.Nodup := by
  obtain ⟨gained, hgains, hnames⟩ := decls.gains_lay hclosed h
  rw [← hnames]
  exact hgains.distinct

/-- A procedure, or a variable that is not in a block, has a path that nothing before it has. -/
theorem Decls.pairwise_items {decls : Decls} {before after : Outline} (outer : List String)
    (hclosed : before.Closed) (h : decls.lay before = some after) :
    (decls.items outer).Pairwise fun earlier later =>
      later.inBlock = false → earlier.path ≠ later.path := by
  induction decls generalizing before after outer with
  | nil => exact .nil
  | plain declaration rest ih =>
    obtain ⟨hfirst, -, hacross⟩ := List.nodup_append.1 (nodup_names hclosed h)
    obtain ⟨middle, hlaid, hrest⟩ := Option.bind_eq_some_iff.1 h
    obtain ⟨_, hgains, -⟩ := Declaration.gains_lay hclosed hlaid
    refine List.pairwise_append.2 ⟨?_, ih outer hgains.closed hrest, ?_⟩
    · cases declaration with
      | vars names type =>
        refine List.pairwise_map.2 ((List.pairwise_map.1 hfirst).imp ?_)
        intro earlier later hne _ hpath
        exact hne (List.singleton_inj.1 (List.append_cancel_left hpath))
      | _ => exact .nil
    · intro earlier hearlier later hlater _ hpath
      obtain ⟨⟨name, hname, hpath'⟩, -⟩ := Declaration.path_items hearlier
      obtain ⟨other, hother, further, hpath''⟩ := Decls.path_items hlater
      rw [hpath', hpath''] at hpath
      exact hacross name hname other hother (List.cons.inj (List.append_cancel_left hpath)).1
  | nested heading locals body rest ihlocals ihrest =>
    obtain ⟨-, -, hacross⟩ := List.nodup_append.1 (nodup_names hclosed h)
    obtain ⟨name, begun, declared, worked, left, hname, hbegin, hlocals, hbody, hleft, hrest⟩ :=
      of_lay_nested h
    have hbegun := Outline.begin?_closed hclosed hbegin
    obtain ⟨inside, hinside, -⟩ := Decls.gains_lay hbegun.entered hlocals
    have hworked := hinside.trans (Stmt.gains_lay hinside.closed hbody) hbegun.entered.scope
    obtain ⟨hended, -⟩ := hworked.ended hclosed hbegin hleft
    have hbodyBlock : ∀ later ∈ body.items (outer ++ [name]), later.inBlock = true :=
      fun later hlater => (Stmt.path_items hlater).2
    rw [items_nested hname]
    refine List.pairwise_append.2 ⟨List.pairwise_cons.2 ⟨?_, List.pairwise_append.2 ⟨?_, ?_, ?_⟩⟩,
      ihrest outer hended.closed hrest, ?_⟩
    · -- What is inside has a longer path.
      intro later hlater houtside hpath
      have hlocal := (List.mem_append.1 hlater).resolve_right fun hmem => by
        simp [hbodyBlock later hmem] at houtside
      obtain ⟨inner, -, further, hlonger⟩ := Decls.path_items hlocal
      simp [← hpath] at hlonger
    · exact ihlocals _ hbegun.entered hlocals
    · refine List.pairwise_of_forall_mem_list fun earlier _ later hlater houtside => ?_
      simp [hbodyBlock later hlater] at houtside
    · intro earlier _ later hlater houtside
      simp [hbodyBlock later hlater] at houtside
    · -- What comes after is not inside.
      intro earlier hearlier later hlater _ hpath
      obtain ⟨other, hother, further, hlater'⟩ := Decls.path_items hlater
      obtain ⟨deeper, hearlier'⟩ := path_inside (fun item hitem => Decls.path_items hitem) hearlier
      rw [hearlier', hlater'] at hpath
      refine hacross name ?_ other hother (List.cons.inj (List.append_cancel_left hpath)).1
      simp [hname]
  | stop mistake => cases h

/-- Every identifier among the tokens is a word. -/
def Wordy (tokens : List Lexeme) : Prop :=
  ∀ name span, ⟨.identifier name, span⟩ ∈ tokens → IsWord name

variable {before after : List Lexeme}

theorem Wordy.suffix (h : Wordy before) (hsuffix : after <:+ before) : Wordy after :=
  fun name span hmem => h name span (hsuffix.subset hmem)

theorem Wordy.tail {lexeme : Lexeme} (h : Wordy (lexeme :: before)) : Wordy before :=
  h.suffix (List.suffix_cons _ _)

theorem Wordy.head {name : String} {span : Span} (h : Wordy (⟨.identifier name, span⟩ :: before)) :
    IsWord name :=
  h name span List.mem_cons_self

theorem NamesDerive.words {names : List Ident} (h : NamesDerive names before after)
    (hwordy : Wordy before) : ∀ name ∈ names, IsWord name.name := by
  induction h with
  | last => simpa using hwordy.head
  | more _ ih => exact List.forall_mem_cons.2 ⟨hwordy.head, ih hwordy.tail.tail⟩

theorem Declaration.Derives.worded {declaration : Declaration}
    (h : declaration.Derives before after) (hwordy : Wordy before) {inBlock : Bool}
    (houter : ∀ part ∈ outer, IsWord part) :
    ∀ item ∈ declaration.items outer inBlock, item.Worded := by
  cases h with
  | const _ => simp [Declaration.items]
  | vars _ hnames =>
    intro item hitem
    obtain ⟨name, hname, rfl⟩ := List.mem_map.1 hitem
    refine ⟨by simp, List.forall_mem_append.2 ⟨houter, ?_⟩⟩
    simpa using hnames.words hwordy.tail name hname

theorem LocalsDerive.worded {locals : List Declaration} (h : LocalsDerive locals before after)
    (hwordy : Wordy before) (houter : ∀ part ∈ outer, IsWord part) :
    ∀ item ∈ locals.flatMap (Declaration.items outer true), item.Worded := by
  induction h with
  | nil => simp
  | cons hfirst _ ih =>
    rw [List.flatMap_cons]
    exact List.forall_mem_append.2
      ⟨hfirst.worded hwordy houter, ih (hwordy.suffix hfirst.suffix)⟩

theorem Stmt.Derives.worded {extent : Extent} {stmt : Stmt} (h : stmt.Derives extent before after)
    (hwordy : Wordy before) (houter : ∀ part ∈ outer, IsWord part) :
    ∀ item ∈ stmt.items outer, item.Worded := by
  induction h with
  | branch hcondition hyes ihyes =>
    refine List.forall_mem_append.2 ⟨ihyes (hwordy.tail.suffix hcondition.suffix).tail, ?_⟩
    simp [Stmt.items]
  | branchElse hcondition hyes hno ihyes ihno =>
    have hmiddle := (hwordy.tail.suffix hcondition.suffix).tail
    exact List.forall_mem_append.2 ⟨ihyes hmiddle, ihno (hmiddle.suffix hyes.suffix).tail⟩
  | loop hcondition hbody ihbody => exact ihbody (hwordy.tail.suffix hcondition.suffix).tail
  | block hlocals hbody ihbody =>
    exact List.forall_mem_append.2
      ⟨hlocals.worded hwordy.tail houter, ihbody (hwordy.tail.suffix hlocals.suffix)⟩
  | seq hfirst hsemicolons hsecond ihfirst ihsecond =>
    refine List.forall_mem_append.2 ⟨ihfirst hwordy, ihsecond ?_⟩
    exact hwordy.suffix (hsemicolons.suffix.trans hfirst.suffix)
  | _ => simp [Stmt.items]

theorem Decls.Derives.worded {decls : Decls} (h : decls.Derives before after)
    (hwordy : Wordy before) (houter : ∀ part ∈ outer, IsWord part) :
    ∀ item ∈ decls.items outer, item.Worded := by
  induction h generalizing outer with
  | nil => simp [Decls.items]
  | plain hfirst hrest ih =>
    exact List.forall_mem_append.2
      ⟨hfirst.worded hwordy houter, ih (hwordy.suffix hfirst.suffix) houter⟩
  | @nested name _ _ _ _ _ _ _ _ _ _ _ _ _ hlocals hbody hsemicolon hrest ihlocals ihrest =>
    have hinside : ∀ part ∈ outer ++ [name], IsWord part :=
      List.forall_mem_append.2 ⟨houter, by simpa using hwordy.tail.head⟩
    have hmiddle := (hwordy.tail.tail.tail.suffix hlocals.suffix).tail
    have hend := ((hmiddle.suffix hbody.suffix).tail).suffix hsemicolon.suffix
    refine List.forall_mem_append.2 ⟨List.forall_mem_cons.2 ⟨⟨by simp, hinside⟩, ?_⟩,
      ihrest hend houter⟩
    exact List.forall_mem_append.2
      ⟨ihlocals hwordy.tail.tail.tail hinside, hbody.worded hmiddle hinside⟩

theorem Decls.Spells.worded {decls : Decls} (h : decls.Spells before) (hwordy : Wordy before) :
    ∀ item ∈ decls.items [], item.Worded := by
  induction h with
  | plain hfirst _ ih =>
    exact List.forall_mem_append.2
      ⟨hfirst.worded hwordy (by simp), ih (hwordy.suffix hfirst.suffix)⟩
  | procedure hprocedure _ => exact hprocedure.worded hwordy (by simp)

end Tree

theorem Token.scan_wordy {source : String} {tokens : List Lexeme} {span : Span}
    (h : scan source = .ok (tokens ++ [⟨.eof, span⟩])) : Wordy tokens := by
  intro name span hmem
  have hformed := (scanned_of_scan h).wellFormed _ (List.mem_append_left _ hmem)
  obtain ⟨hstart, hrest, -⟩ := hformed.resolve_left nofun
  refine ⟨hrest, ?_⟩
  cases hname : name.toList with
  | nil => rfl
  | cons first others =>
    rw [hname] at hstart
    exact isDigit_of_isWordStart hstart

/-- The procedures among the items of a unit are one and those inside it. -/
theorem Tree.Decls.Single.items {decls : Decls} (hsingle : decls.Single) {before after : Outline}
    (h : decls.lay before = some after) :
    ∃ cells name inside, decls.items [] = cells ++ ⟨[name], none⟩ :: inside ∧
      (∀ item ∈ cells, item.cell?.isSome = true) ∧ ∀ item ∈ inside, 1 < item.path.length := by
  induction decls generalizing before with
  | nil => exact hsingle.elim
  | stop mistake => cases h
  | plain declaration rest ih =>
    obtain ⟨middle, -, hrest⟩ := Option.bind_eq_some_iff.1 h
    obtain ⟨cells, name, inside, hitems, hcells, hinside⟩ := ih hsingle hrest
    refine ⟨declaration.items [] false ++ cells, name, inside, ?_, ?_, hinside⟩
    · rw [List.append_assoc, ← hitems]
      rfl
    · refine List.forall_mem_append.2 ⟨?_, hcells⟩
      intro item hitem
      obtain ⟨-, type, hcell⟩ := Declaration.path_items hitem
      rw [hcell]
      rfl
  | nested heading locals body rest ihlocals ihrest =>
    obtain ⟨name, begun, declared, worked, left, hname, hbegin, hlocals, hbody, hleft, hrest⟩ :=
      of_lay_nested h
    obtain rfl : rest = .nil := by
      refine hsingle.resolve_right ?_
      rintro ⟨mistake, rfl⟩
      cases hrest
    refine ⟨[], name, _, (items_nested hname [] locals body .nil).trans (List.append_nil _), nofun,
      ?_⟩
    refine List.forall_mem_append.2 ⟨?_, ?_⟩
    · intro item hitem
      obtain ⟨inner, -, further, hpath⟩ := Decls.path_items hitem
      simp [hpath]
    · intro item hitem
      obtain ⟨⟨inner, hpath⟩, -⟩ := Stmt.path_items hitem
      simp [hpath]

theorem Tree.Decls.Single.heads_lay {decls : Decls} (hsingle : decls.Single)
    {before after : Outline} (hclosed : before.Closed) (hempty : before.procedures = [])
    (h : decls.lay before = some after) :
    after.heads = (decls.items []).foldl Heads.declare before.heads := by
  have houter : ∀ {outline : Outline}, outline.procedures = [] → outline.outer = [] := by
    intro outline hempty
    simp [Outline.outer, hempty]
  induction decls generalizing before with
  | nil => exact hsingle.elim
  | stop mistake => cases h
  | plain declaration rest ih =>
    obtain ⟨middle, hfirst, hrest⟩ := Option.bind_eq_some_iff.1 h
    obtain ⟨hheads, -⟩ := Declaration.heads_lay false hclosed hfirst
    obtain ⟨_, hgains, -⟩ := Declaration.gains_lay hclosed hfirst
    rw [ih hsingle hgains.closed ((Declaration.procedures_lay hfirst).trans hempty) hrest, hheads,
      houter hempty, ← List.foldl_append]
    rfl
  | nested heading locals body rest ihlocals ihrest =>
    obtain ⟨name, begun, declared, worked, left, hname, hbegin, hlocals, hbody, hleft, hrest⟩ :=
      of_lay_nested h
    have hinside := Decls.heads_lay (Outline.begin?_closed hclosed hbegin).entered
      (Outline.procedures_begin? hbegin : begun.procedures ≠ []) hlocals
    obtain ⟨-, hheads⟩ := heads_nested hclosed hbegin hlocals hinside hbody hleft
    rcases hsingle with rfl | ⟨mistake, rfl⟩
    · obtain rfl := Option.some.inj hrest
      rw [hheads, houter hempty, items_nested hname]
      exact congrArg (List.foldl Heads.declare before.heads) (List.append_nil _).symm
    · cases hrest

/-- How code calls the items of a source. -/
structure Code.Module.Lists (code : Module) (items : List Item) (names : List String) : Prop where
  /-- The functions are the procedures, each called by its path. -/
  functions : (code.functions.map fun function => (function.name, function.internal)) =
    items.filterMap fun item => item.function? item.name
  /-- Only the first of the functions is seen from outside. -/
  outermost : ∃ first rest, code.functions = first :: rest ∧ first.internal = false ∧
    ∀ function ∈ rest, function.internal = true
  /-- The globals are the variables, each with its declared type. -/
  globals : code.globals = (items.zip names).filterMap fun (item, name) => item.global? name
  length : names.length = items.length
  /-- A name is the first choice for it that was not given before. -/
  least : ∀ (index : Nat) item name, items[index]? = some item → names[index]? = some name →
    LeastFree (names.take index) item.name name
  /-- Whatever is not in a block is called by its path. -/
  plain : ∀ (index : Nat) item name, items[index]? = some item → names[index]? = some name →
    item.inBlock = false → name = item.name
  distinct : code.names.Nodup

theorem Item.functions_eq {items : List Item} {names : List String}
    (hlength : names.length = items.length)
    (hplain : ∀ (index : Nat) item name, items[index]? = some item → names[index]? = some name →
      item.inBlock = false → name = item.name) :
    ((items.zip names).filterMap fun (item, name) => item.function? name) =
      items.filterMap fun item => item.function? item.name := by
  have hpairs : ∀ pair ∈ items.zip names,
      pair.1.function? pair.2 = pair.1.function? pair.1.name := by
    intro pair hpair
    obtain ⟨index, hindex⟩ := List.getElem?_of_mem hpair
    obtain ⟨hitem, hname⟩ := List.getElem?_zip_eq_some.1 hindex
    cases hcell : pair.1.cell? with
    | none => rw [hplain index _ _ hitem hname (by simp [Item.inBlock, hcell])]
    | some cell => simp [Item.function?, hcell]
  rw [List.filterMap_congr hpairs]
  have hitems : (items.zip names).map Prod.fst = items := List.map_fst_zip (by omega)
  conv_rhs => rw [← hitems, List.filterMap_map]
  rfl

/-- Only the outermost procedure has a path of one part. -/
theorem Code.Module.outermost_of_items {decls : Decls} (hsingle : decls.Single)
    {before after : Outline} (h : decls.lay before = some after) {code : Module}
    (hfunctions : (code.functions.map fun function => (function.name, function.internal)) =
      (decls.items []).filterMap fun item => item.function? item.name) :
    ∃ first rest, code.functions = first :: rest ∧ first.internal = false ∧
      ∀ function ∈ rest, function.internal = true := by
  obtain ⟨cells, name, inside, hitems, hcells, hinside⟩ := hsingle.items h
  have hnone : (cells.filterMap fun item => item.function? item.name) = [] := by
    refine List.filterMap_eq_nil_iff.2 fun item hitem => ?_
    have hcell := Option.isSome_iff_ne_none.1 (hcells item hitem)
    simp [Item.function?, hcell]
  rw [hitems, List.filterMap_append, hnone, List.nil_append, List.filterMap_cons] at hfunctions
  obtain ⟨first, rest, hcode, hfirst, hrest⟩ := List.map_eq_cons_iff.1 hfunctions
  refine ⟨first, rest, hcode, (Prod.mk.inj hfirst).2, ?_⟩
  intro function hfunction
  have hmem : (function.name, function.internal) ∈ inside.filterMap fun item =>
      item.function? item.name := by
    rw [← hrest]
    exact List.mem_map_of_mem hfunction
  obtain ⟨item, hitem, hpair⟩ := List.mem_filterMap.1 hmem
  unfold Item.function? at hpair
  split at hpair
  · rw [← (Prod.mk.inj (Option.some.inj hpair)).2]
    simpa using hinside item hitem
  · cases hpair

/-- Code that was empty before a program was laid. -/
theorem lists_of_lay {decls : Decls} (hsingle : decls.Single) {before after : Outline}
    (hclosed : before.Closed) (hopen : before.procedures = [])
    (hempty : before.heads = ⟨[], [], ∅⟩) (h : decls.lay before = some after)
    (hworded : ∀ item ∈ decls.items [], item.Worded) {code : Module}
    (hcode : code.heads = after.heads) :
    code.Lists (decls.items []) (Item.given ∅ (decls.items [])) ∧ code.InStep := by
  have hpairwise := decls.pairwise_items [] hclosed h
  have hplain : ∀ (index : Nat) item name, (decls.items [])[index]? = some item →
      (Item.given ∅ (decls.items []))[index]? = some name → item.inBlock = false →
        name = item.name :=
    fun _ _ _ hitem hname => Item.name_given hworded hpairwise hitem hname
  have hlength := Item.length_given ∅ (decls.items [])
  have hfolded := hcode.trans (hsingle.heads_lay hclosed hopen h)
  have htidy : code.heads.Tidy := by
    rw [hfolded, hempty]
    have hnothing : Heads.Tidy ⟨[], [], ∅⟩ := ⟨NameSet.lists_empty, List.nodup_nil⟩
    exact hnothing.foldl _
  obtain ⟨hinStep, hdistinct⟩ := htidy
  rw [Module.names_heads] at hinStep hdistinct
  obtain ⟨hglobals, hfunctions⟩ := Heads.foldl_declare before.heads (decls.items [])
  rw [← hfolded, hempty] at hglobals hfunctions
  simp only [List.nil_append, Item.functions_eq hlength hplain] at hglobals hfunctions
  refine ⟨⟨hfunctions, ?_, hglobals, hlength, ?_, hplain, hdistinct⟩, hinStep⟩
  · exact Module.outermost_of_items hsingle h hfunctions
  · intro index item name hitem hname
    exact Item.leastFree_given NameSet.lists_empty hitem hname

/-- What is known of the source of a unit that was taken in: how its items are spelled, and how
the code calls them. -/
theorem readUnit_lists {file source : String} {session : Session}
    (h : readUnit file source = .ok () session) :
    ∃ tokens span, ∃ decls : Decls, Token.scan source = .ok (tokens ++ [⟨.eof, span⟩]) ∧
      decls.Spells tokens ∧ (∀ item ∈ decls.items [], item.Worded) ∧
      session.builder.code.Lists (decls.items []) (Item.given ∅ (decls.items [])) ∧
      session.builder.code.InStep := by
  obtain ⟨lexemes, last, hscan, htake, hbuilder⟩ := of_readUnit_eq_ok h
  obtain ⟨tokens, span, rfl, hendless, -⟩ := Token.scan_readable hscan
  have hsound : ((Session.start file).told (.enter (.unit file))).Sound :=
    (Session.sound_start file).told (by simp)
  obtain ⟨_, emitted, hemit, -⟩ := exists_of_bind_eq_ok htake
  have hspells : (Program.ofTokens (tokens ++ [⟨.eof, span⟩])).decls.Spells tokens := by
    have hread := spells_readProgram (by rwa [tokens_ofTokens]) (Decls.whole_of_emit hemit)
    rwa [tokens_ofTokens] at hread
  have hworded := hspells.worded (Token.scan_wordy hscan)
  have hsingle := single_readProgram (.ofTokens (tokens ++ [⟨.eof, span⟩]))
  have hlaid := Program.lays_emit _ _ _ _ htake
  have hlists := lists_of_lay hsingle hsound.closed rfl rfl hlaid hworded rfl
  rw [← hbuilder] at hlists
  exact ⟨tokens, span, _, hscan, hspells, hworded, hlists⟩

/-- The functions of a unit that is taken in are the procedures of its source and the globals
its variables, all in the order of the source. A procedure, or a variable that is not in a
block, is called by the path to it. A variable of a block is called by its path as well, or
by the path and the least number that makes the name new. -/
theorem readUnit_names {file source : String} {session : Session}
    (h : readUnit file source = .ok () session) :
    ∃ tokens span, ∃ decls : Decls, ∃ names, Token.scan source = .ok (tokens ++ [⟨.eof, span⟩]) ∧
      decls.Spells tokens ∧ session.builder.code.Lists (decls.items []) names := by
  obtain ⟨tokens, span, decls, hscan, hspells, -, hlists, -⟩ := readUnit_lists h
  exact ⟨tokens, span, decls, _, hscan, hspells, hlists⟩

/-- Two blocks whose variables are called like what their procedure declares. -/
def crowded : String :=
  "VAR X: INT8; PROCEDURE P; VAR X: INT16; PROCEDURE Q; VAR X: INT8; BEGIN END;\n" ++
    "BEGIN BEGIN VAR X: INT32; BEGIN VAR X, Q: INT8; X := Q END END END."

theorem crowded_names :
    ∃ session tokens span names, ∃ decls : Decls,
      readUnit "crowded" crowded = .ok () session ∧
      Token.scan crowded = .ok (tokens ++ [⟨.eof, span⟩]) ∧ decls.Spells tokens ∧
      session.builder.code.Lists (decls.items []) names ∧
      session.builder.code.functions.map Function.name = ["P", "P.Q"] ∧
      session.builder.code.globals.map Global.name =
        ["X", "P.X", "P.Q.X", "P.X.1", "P.X.2", "P.Q.1"] := by
  have hreads : readsTo "crowded" crowded (fun session =>
      session.builder.code.functions.map Function.name == ["P", "P.Q"] &&
        session.builder.code.globals.map Global.name ==
          ["X", "P.X", "P.Q.X", "P.X.1", "P.X.2", "P.Q.1"]) := by
    decide +kernel
  obtain ⟨session, hread, htest⟩ := readsTo_iff.1 hreads
  obtain ⟨tokens, span, decls, names, hscan, hspells, hlists⟩ := readUnit_names hread
  simp only [Bool.and_eq_true, beq_iff_eq] at htest
  exact ⟨session, tokens, span, names, decls, hread, hscan, hspells, hlists, htest.1, htest.2⟩

end BlockLang
