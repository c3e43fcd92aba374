import Mathlib.Data.List.Basic

/-! Parts that are joined by a separator none of them holds can be told apart again: characters
in a line, and lines in a text. -/

namespace BlockLang

variable {α : Type} [DecidableEq α] {sep : α} {first second parts : List (List α)}

theorem eq_of_intercalate_eq (hfirst : first ≠ []) (hsecond : second ≠ [])
    (hfree : ∀ part ∈ first, sep ∉ part) (hfree' : ∀ part ∈ second, sep ∉ part)
    (h : [sep].intercalate first = [sep].intercalate second) : first = second := by
  rw [← List.splitOn_intercalate sep hfree hfirst, h, List.splitOn_intercalate sep hfree' hsecond]

omit [DecidableEq α] in
/-- Parts that each end in the separator are parts before it, with nothing after the last. -/
theorem flatMap_concat_eq (sep : α) (parts : List (List α)) :
    (parts.flatMap fun part => part ++ [sep]) = [sep].intercalate (parts ++ [[]]) := by
  induction parts with
  | nil => rfl
  | cons part rest ih =>
    rw [List.flatMap_cons, ih, List.cons_append, List.intercalate_cons_of_ne_nil (by simp)]

theorem eq_of_flatMap_concat_eq (hfree : ∀ part ∈ first, sep ∉ part)
    (hfree' : ∀ part ∈ second, sep ∉ part)
    (h : (first.flatMap fun part => part ++ [sep]) = second.flatMap fun part => part ++ [sep]) :
    first = second := by
  rw [flatMap_concat_eq, flatMap_concat_eq] at h
  have hsame := eq_of_intercalate_eq (by simp) (by simp)
    (List.forall_mem_append.2 ⟨hfree, by simp⟩) (List.forall_mem_append.2 ⟨hfree', by simp⟩) h
  exact List.append_cancel_right hsame

omit [DecidableEq α] in
theorem mem_intercalate {item : α} (h : item ∈ [sep].intercalate parts) :
    item = sep ∨ ∃ part ∈ parts, item ∈ part := by
  induction parts with
  | nil => cases h
  | cons part rest ih =>
    cases rest with
    | nil => exact .inr ⟨part, List.mem_cons_self, by simpa using h⟩
    | cons next rest =>
      rw [List.intercalate_cons_cons, List.mem_append, List.mem_append, List.mem_singleton] at h
      rcases h with (hpart | hsep) | hrest
      · exact .inr ⟨part, List.mem_cons_self, hpart⟩
      · exact .inl hsep
      · exact (ih hrest).imp_right fun ⟨other, hother, hmem⟩ =>
          ⟨other, List.mem_cons_of_mem _ hother, hmem⟩

section Written

variable {β γ : Type} {write rewrite : α → β} {view review : α → γ} {items twins : List α}

omit [DecidableEq α]

/-- What the writing of an item tells of it, the writing of a list tells of all its items. -/
theorem map_eq_of_map_eq (htold : ∀ item ∈ items, ∀ twin ∈ twins,
      write item = rewrite twin → view item = review twin)
    (h : items.map write = twins.map rewrite) : items.map view = twins.map review := by
  induction items generalizing twins with
  | nil =>
    rw [List.map_eq_nil_iff.1 h.symm]
    rfl
  | cons item rest ih =>
    cases twins with
    | nil => cases h
    | cons twin others =>
      obtain ⟨hitem, hrest⟩ := List.cons.inj h
      have hothers := ih (fun item hitem twin htwin => htold item (List.mem_cons_of_mem _ hitem)
        twin (List.mem_cons_of_mem _ htwin)) hrest
      rw [List.map_cons, List.map_cons, hothers,
        htold item List.mem_cons_self twin List.mem_cons_self hitem]

theorem eq_of_map_eq (htold : ∀ item ∈ items, ∀ twin ∈ twins,
      write item = rewrite twin → item = twin)
    (h : items.map write = twins.map rewrite) : items = twins := by
  have hsame : items.map id = twins.map id := map_eq_of_map_eq htold h
  rwa [List.map_id, List.map_id] at hsame

end Written

/-- Texts joined by a mark none of them holds. -/
theorem intercalate_injective {mark : Char} {joint : String} (hjoint : joint.toList = [mark])
    {first second : List String} (hfirst : first ≠ []) (hsecond : second ≠ [])
    (hfree : ∀ part ∈ first, mark ∉ part.toList) (hfree' : ∀ part ∈ second, mark ∉ part.toList)
    (h : joint.intercalate first = joint.intercalate second) : first = second := by
  have hlists := congrArg String.toList h
  rw [String.toList_intercalate, String.toList_intercalate, hjoint] at hlists
  have hsame := eq_of_intercalate_eq (by simpa using hfirst) (by simpa using hsecond)
    (by simpa using hfree) (by simpa using hfree') hlists
  exact List.map_injective_iff.2 (fun _ _ => String.toList_inj.1) hsame

theorem join_lines_injective {first second : List String}
    (hfree : ∀ line ∈ first, '\n' ∉ line.toList) (hfree' : ∀ line ∈ second, '\n' ∉ line.toList)
    (h : String.join (first.map (· ++ "\n")) = String.join (second.map (· ++ "\n"))) :
    first = second := by
  have hlist : ∀ lines : List String, (String.join (lines.map (· ++ "\n"))).toList =
      (lines.map String.toList).flatMap fun line => line ++ ['\n'] := by
    intro lines
    simp [String.toList_join, List.flatMap_map]
  have hlists := congrArg String.toList h
  rw [hlist, hlist] at hlists
  have hsame := eq_of_flatMap_concat_eq (by simpa using hfree) (by simpa using hfree') hlists
  exact List.map_injective_iff.2 (fun _ _ => String.toList_inj.1) hsame

/-- A text that neither a blank nor a line feed breaks up. -/
def Unbroken (text : String) : Prop := ' ' ∉ text.toList ∧ '\n' ∉ text.toList

@[simp] theorem unbroken_append {first second : String} :
    Unbroken (first ++ second) ↔ Unbroken first ∧ Unbroken second := by
  simp only [Unbroken, String.toList_append, List.mem_append, not_or]
  exact and_and_and_comm

theorem unbroken_of_forall {text : String} {plain : Char → Bool}
    (h : ∀ char ∈ text.toList, plain char = true) (hblank : plain ' ' = false)
    (hfeed : plain '\n' = false) : Unbroken text := by
  refine ⟨fun hmem => ?_, fun hmem => ?_⟩
  · simp [h ' ' hmem] at hblank
  · simp [h '\n' hmem] at hfeed

instance (text : String) : Decidable (Unbroken text) :=
  inferInstanceAs (Decidable (_ ∧ _))

theorem isDigit_toString (number : Nat) : ∀ char ∈ (toString number).toList,
    char.isDigit = true := by
  intro char hchar
  rw [Nat.toString_eq_repr, Nat.toList_repr] at hchar
  exact Nat.isDigit_of_mem_toDigits (by decide) (by decide) hchar

@[simp] theorem unbroken_toString (number : Nat) : Unbroken (toString number) :=
  unbroken_of_forall (isDigit_toString number) rfl rfl

def isIntChar (char : Char) : Bool := char.isDigit || char == '-'

theorem isIntChar_toString (number : Int) : ∀ char ∈ (toString number).toList,
    isIntChar char = true := by
  have hdigits : ∀ {value : Nat}, ∀ char ∈ value.repr.toList, isIntChar char = true := by
    intro value char hchar
    have hdigit := isDigit_toString value char hchar
    simp [isIntChar, hdigit]
  intro char hchar
  rw [Int.toString_eq_repr, Int.repr_eq_if] at hchar
  split at hchar
  · exact hdigits char hchar
  · rcases List.mem_append.1 (String.toList_append ▸ hchar) with hminus | hchar
    · obtain rfl := List.mem_singleton.1 hminus
      rfl
    · exact hdigits char hchar

@[simp] theorem unbroken_toString_int (number : Int) : Unbroken (toString number) :=
  unbroken_of_forall (isIntChar_toString number) rfl rfl

/-- A line of unbroken words is one line, and shows its words. -/
theorem newline_notMem_intercalate {words : List String} (h : ∀ word ∈ words, Unbroken word) :
    '\n' ∉ (" ".intercalate words).toList := by
  intro hmem
  rw [String.toList_intercalate] at hmem
  rcases mem_intercalate (show '\n' ∈ [' '].intercalate _ from hmem) with hblank | ⟨part, hpart, hin⟩
  · cases hblank
  · obtain ⟨word, hword, rfl⟩ := List.mem_map.1 hpart
    exact (h word hword).2 hin

theorem words_eq {first second : List String} (hfirst : first ≠ []) (hsecond : second ≠ [])
    (hplain : ∀ word ∈ first, Unbroken word) (hplain' : ∀ word ∈ second, Unbroken word)
    (h : " ".intercalate first = " ".intercalate second) : first = second :=
  intercalate_injective rfl hfirst hsecond (fun word hword => (hplain word hword).1)
    (fun word hword => (hplain' word hword).1) h

end BlockLang
