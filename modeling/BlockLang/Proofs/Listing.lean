import BlockLang.Proofs.Checking
import BlockLang.Proofs.Code.Legible
import BlockLang.Proofs.Naming

/-! The listing of a unit's code loses nothing: two units of one file that have the same listing
have the same code. Labels are made by the compiler and names are made of the source's words,
so neither breaks up a line. -/

namespace BlockLang

open Code Names Compiler

namespace Code

theorem unbroken_numbered {base : String} (h : Unbroken base) (number : Nat) :
    Unbroken (numbered base number) := by
  cases number with
  | zero => exact h
  | succ number =>
    have hdot : Unbroken "." := by decide
    exact unbroken_append.2 ⟨unbroken_append.2 ⟨h, hdot⟩, unbroken_toString _⟩

theorem LeastFree.unbroken {taken : List String} {base name : String}
    (hfree : LeastFree taken base name) (h : Unbroken base) : Unbroken name := by
  obtain ⟨number, rfl⟩ := hfree.numbered
  exact unbroken_numbered h number

namespace Draft

def labels (draft : Draft) : List String := draft.blocks.map Block.label

structure Labelled (draft : Draft) : Prop where
  inStep : draft.taken.Lists draft.labels
  distinct : draft.labels.Nodup
  plain : ∀ label ∈ draft.labels, Unbroken label

variable {draft : Draft}

theorem Labelled.congr {next : Draft} (h : draft.Labelled) (htaken : next.taken = draft.taken)
    (hlabels : next.labels = draft.labels) : next.Labelled := by
  obtain ⟨hinStep, hdistinct, hplain⟩ := h
  rw [← htaken, ← hlabels] at hinStep
  rw [← hlabels] at hdistinct hplain
  exact ⟨hinStep, hdistinct, hplain⟩

theorem Labelled.push (h : draft.Labelled) (instr : Instr) : (draft.push instr).Labelled :=
  h.congr rfl (map_modify_of_eq (Block.label_push · instr) _ _)

theorem Labelled.say {α : Type} (h : draft.Labelled) (code : Straight α) (last : α → Instr) :
    (draft.say code last).Labelled := by
  have hwrite : (draft.write code).Labelled :=
    h.congr rfl (map_modify_of_eq (Block.label_pushAll · _) _ _)
  exact hwrite.push _

theorem Labelled.moveTo (h : draft.Labelled) (block : BlockId) : (draft.moveTo block).Labelled :=
  h.congr rfl rfl

theorem Labelled.openBlock (h : draft.Labelled) {base : String} (hbase : Unbroken base) :
    (draft.openBlock base).Labelled := by
  have hlabels : (draft.openBlock base).labels = draft.labels ++ [fresh draft.taken base] := by
    simp [labels, Draft.openBlock]
  have hfree := leastFree_fresh h.inStep base
  constructor
  · rw [hlabels]
    exact h.inStep.insert _
  · rw [hlabels, ← List.concat_eq_append]
    exact h.distinct.concat hfree.not_mem
  · rw [hlabels]
    refine List.forall_mem_append.2 ⟨h.plain, ?_⟩
    simpa using hfree.unbroken hbase

theorem Labelled.openAll (h : draft.Labelled) {labels : List String}
    (hlabels : ∀ label ∈ labels, Unbroken label) : (draft.openAll labels).Labelled := by
  induction labels generalizing draft with
  | nil => exact h
  | cons label rest ih =>
    obtain ⟨hlabel, hrest⟩ := List.forall_mem_cons.1 hlabels
    exact ih (h.openBlock hlabel) hrest

theorem labelled_entry : entry.Labelled := by
  have hnothing : Labelled {} := ⟨NameSet.lists_empty, List.nodup_nil, List.forall_mem_nil _⟩
  exact hnothing.openBlock (by decide)

end Draft

end Code

namespace Core.Stmt

theorem labelled_build (stmt : Stmt) {draft : Draft} (h : draft.Labelled) :
    (stmt.build draft).Labelled := by
  induction stmt generalizing draft with
  | skip => exact h
  | seq first second ihfirst ihsecond => exact ihsecond (ihfirst h)
  | assign target type value => exact h.say _ _
  | call callee => exact h.push _
  | branch condition yes no ihyes ihno =>
    have hopened := h.openAll
      (show ∀ label ∈ ["then", "else", "endif"], Unbroken label by decide)
    refine ((ihno ((Draft.Labelled.push (ihyes ?_) _).moveTo _)).push _).moveTo _
    exact (hopened.say condition.code _).moveTo _
  | loop condition body ih =>
    have hopened := h.openAll
      (show ∀ label ∈ ["while.cond", "while.body", "while.end"], Unbroken label by decide)
    refine ((ih ?_).push _).moveTo _
    exact (((hopened.push _).moveTo _).say condition.code _).moveTo _
  | ret =>
    have hopened := h.openAll
      (show ∀ label ∈ ["after.return"], Unbroken label by decide)
    exact (hopened.push _).moveTo _

theorem labelled_draft (body : Stmt) : body.draft.Labelled :=
  (body.labelled_build Draft.labelled_entry).push _

end Core.Stmt

theorem Item.Worded.unbroken {item : Item} (h : item.Worded) : Unbroken item.name := by
  have hchars : ∀ char ∈ item.name.toList, (Token.isWordRest char || char == '.') = true := by
    intro char hchar
    rw [Item.name, String.toList_intercalate] at hchar
    rcases mem_intercalate (show char ∈ ['.'].intercalate _ from hchar) with rfl | ⟨part, hpart, hin⟩
    · rfl
    · obtain ⟨word, hword, rfl⟩ := List.mem_map.1 hpart
      rw [List.all_eq_true.1 (h.2 word hword).1 char hin]
      rfl
  exact unbroken_of_forall hchars rfl rfl

theorem Code.Module.Lists.unbroken {code : Module} {items : List Item} {names : List String}
    (h : code.Lists items names) (hworded : ∀ item ∈ items, item.Worded) :
    ∀ name ∈ code.names, Unbroken name := by
  refine List.forall_mem_append.2 ⟨?_, ?_⟩
  · intro name hname
    obtain ⟨global, hglobal, rfl⟩ := List.mem_map.1 hname
    rw [h.globals] at hglobal
    obtain ⟨⟨item, given⟩, hpair, hglobal⟩ := List.mem_filterMap.1 hglobal
    obtain ⟨cell, -, rfl⟩ := Option.map_eq_some_iff.1 hglobal
    obtain ⟨index, hindex⟩ := List.getElem?_of_mem hpair
    obtain ⟨hitem, hgiven⟩ := List.getElem?_zip_eq_some.1 hindex
    exact (h.least index item given hitem hgiven).unbroken
      (hworded item (List.mem_of_getElem? hitem)).unbroken
  · intro name hname
    obtain ⟨function, hfunction, rfl⟩ := List.mem_map.1 hname
    have hhead : (function.name, function.internal) ∈
        items.filterMap fun item => item.function? item.name := by
      rw [← h.functions]
      exact List.mem_map_of_mem hfunction
    obtain ⟨item, hitem, hhead⟩ := List.mem_filterMap.1 hhead
    unfold Item.function? at hhead
    split at hhead
    · obtain ⟨hsame, -⟩ := Prod.mk.inj (Option.some.inj hhead)
      rw [← hsame]
      exact (hworded item hitem).unbroken
    · cases hhead

theorem readUnit_title {file source : String} {session : Session}
    (h : readUnit file source = .ok () session) : session.builder.code.name = file := by
  obtain ⟨tokens, last, -, htake, hbuilder⟩ := of_readUnit_eq_ok h
  have hsound : ((Session.start file).told (.enter (.unit file))).Sound :=
    (Session.sound_start file).told (by simp)
  have hsettles := settles_takeTokens tokens hsound
  unfold Settles Ends at hsettles
  rw [htake] at hsettles
  rw [hbuilder, hsettles.2.title]
  rfl

theorem readUnit_legible {file source : String} {session : Session}
    (h : readUnit file source = .ok () session) : session.builder.code.Legible := by
  obtain ⟨program, -, hformed, -, hholds⟩ := readUnit_ok h
  obtain ⟨tokens, span, decls, -, -, hworded, hlists, hinStep⟩ := readUnit_lists h
  have hsketch : ∀ function ∈ session.builder.code.functions, ∃ body : Core.Stmt,
      body ∈ program.procedures ∧ function.sketch = body.sketch := by
    intro function hfunction
    obtain ⟨id, hid⟩ := List.mem_iff_getElem?.1 hfunction
    obtain ⟨body, hbody, hsketch⟩ := hholds.code.function hid
    exact ⟨body, List.mem_of_getElem? hbody, hsketch⟩
  have hlabelled : ∀ function ∈ session.builder.code.functions,
      function.InStep ∧ function.labels.Nodup ∧ ∀ label ∈ function.labels, Unbroken label := by
    intro function hfunction
    obtain ⟨body, -, hsketch⟩ := hsketch function hfunction
    have hlabels : function.labels = body.draft.labels :=
      congrArg (List.map Block.label) (congrArg Prod.fst hsketch)
    have htaken : function.taken = body.draft.taken := congrArg (fun sketch => sketch.2.2) hsketch
    rw [Function.InStep, hlabels, htaken]
    exact ⟨body.labelled_draft.inStep, body.labelled_draft.distinct, body.labelled_draft.plain⟩
  constructor
  case checked => exact Module.checked_of_check (readUnit_check h)
  case inStep => exact hinStep
  case distinct => exact hlists.distinct
  case plain => exact hlists.unbroken hworded
  case inStepLabels => exact fun function hmem => (hlabelled function hmem).1
  case distinctLabels => exact fun function hmem => (hlabelled function hmem).2.1
  case plainLabels => exact fun function hmem => (hlabelled function hmem).2.2
  case assigned =>
    intro function hfunction
    obtain ⟨body, hbody, hsketch⟩ := hsketch function hfunction
    exact (Core.Stmt.sound_draft hformed.cells (hformed.bodies body hbody)).assigned hsketch

/-- The code of a unit has a listing, which tells it from the code of any other unit of that
file, however much of either was checked: the globals and the functions with their names,
types, linkage, labels and instructions, operands and all. -/
theorem compile_listing_tells {file first second : String} {scrutiny other : Scrutiny}
    {code twin : Module} (hfirst : outcome (compile file first scrutiny) = .ok code)
    (hsecond : outcome (compile file second other) = .ok twin) :
    ∃ text text', code.listing = .ok text ∧ twin.listing = .ok text' ∧
      (text = text' ↔ code = twin) := by
  obtain ⟨session, hread, rfl⟩ := readUnit_of_outcome hfirst
  obtain ⟨session', hread', rfl⟩ := readUnit_of_outcome hsecond
  have hlegible := readUnit_legible hread
  have hlegible' := readUnit_legible hread'
  refine ⟨_, _, hlegible.checked.listing_eq, hlegible'.checked.listing_eq, ?_, ?_⟩
  · intro htext
    refine hlegible.eq_of_listing hlegible' ?_ ?_
    · rw [readUnit_title hread, readUnit_title hread']
    · rw [hlegible.checked.listing_eq, hlegible'.checked.listing_eq, htext]
  · intro hcode
    rw [hcode]

/-- The listing of a source's code, if it has any. -/
def listingOf? (file source : String) (scrutiny : Scrutiny) : Option String := do
  let code ← (outcome (compile file source scrutiny)).toOption
  code.listing.toOption

theorem listingOf?_eq_some {file source text : String} {scrutiny : Scrutiny} :
    listingOf? file source scrutiny = some text ↔
      ∃ code, outcome (compile file source scrutiny) = .ok code ∧ code.listing = .ok text := by
  simp [listingOf?, Option.bind_eq_some_iff, Except.toOption_eq_some]

/-- Two ways to write a loop up to a bound. -/
def plainBound : String :=
  "PROCEDURE P; VAR X: INT8; BEGIN WHILE X < 9 DO X := X + 1 END END."

def namedBound : String :=
  "CONST N = 9; PROCEDURE P; VAR X: INT8; BEGIN WHILE (X) < N DO BEGIN X := X + 1 END END END."

theorem bounds_listing_tells :
    ∃ code twin text, outcome (compile "unit" plainBound .all) = .ok code ∧
      outcome (compile "unit" namedBound .none) = .ok twin ∧ code.listing = .ok text ∧
      twin.listing = .ok text ∧ code = twin := by
  have hsame : (listingOf? "unit" plainBound .all).isSome = true ∧
      listingOf? "unit" plainBound .all = listingOf? "unit" namedBound .none := by decide +kernel
  obtain ⟨text, htext⟩ := Option.isSome_iff_exists.1 hsame.1
  obtain ⟨code, hcode, hlisting⟩ := listingOf?_eq_some.1 htext
  obtain ⟨twin, htwin, hlisting'⟩ := listingOf?_eq_some.1 (hsame.2.symm.trans htext)
  obtain ⟨_, _, htold, htold', htells⟩ := compile_listing_tells hcode htwin
  cases hlisting.symm.trans htold
  cases hlisting'.symm.trans htold'
  exact ⟨code, twin, text, hcode, htwin, hlisting, hlisting', htells.1 rfl⟩

end BlockLang
