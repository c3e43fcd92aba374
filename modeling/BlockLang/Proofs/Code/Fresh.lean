import BlockLang.Code.Fresh

/-! Which name is given where one is asked for: the first choice that is not taken. What the
search strikes off on its way does not matter. -/

namespace BlockLang.Code

/-- The name given for `base`: itself if it is free, and otherwise `base.n` for the least `n`
from 1 on that makes it free. -/
inductive LeastFree (taken : List String) (base : String) : String → Prop
  | plain (hfree : base ∉ taken) : LeastFree taken base base
  | suffixed {number : Nat} (htaken : base ∈ taken) (hpositive : 1 ≤ number)
    (hfree : base ++ "." ++ toString number ∉ taken)
    (hleast : ∀ smaller, 1 ≤ smaller → smaller < number →
      base ++ "." ++ toString smaller ∈ taken) :
    LeastFree taken base (base ++ "." ++ toString number)

variable {taken : List String} {base name : String}

theorem LeastFree.not_mem (h : LeastFree taken base name) : name ∉ taken := by
  cases h with
  | plain hfree => exact hfree
  | suffixed _ _ hfree _ => exact hfree

theorem LeastFree.numbered (h : LeastFree taken base name) :
    ∃ number, name = numbered base number := by
  cases h with
  | plain _ => exact ⟨0, rfl⟩
  | @suffixed number _ hpositive _ _ =>
    obtain ⟨number, rfl⟩ := Nat.exists_eq_add_of_le' hpositive
    exact ⟨number + 1, rfl⟩

theorem toString_injective : Function.Injective (toString : Nat → String) := by
  intro first second h
  have hdigits : Nat.toDigits 10 first = Nat.toDigits 10 second := by
    simpa only [Nat.toString_eq_repr, Nat.toList_repr] using congrArg String.toList h
  simpa using congrArg (fun digits => Nat.ofDigitChars 10 digits 0) hdigits

/-- No two choices for a name are the same. -/
theorem numbered_injective (base : String) : Function.Injective (numbered base) := by
  have hlonger : ∀ number, base ≠ base ++ "." ++ toString (number + 1) := by
    intro number h
    have hlength := congrArg String.length h
    simp only [String.length_append] at hlength
    have hdot : ".".length = 1 := rfl
    omega
  intro first second h
  cases first with
  | zero =>
    cases second with
    | zero => rfl
    | succ second => exact (hlonger second h).elim
  | succ first =>
    cases second with
    | zero => exact (hlonger first h.symm).elim
    | succ second => exact toString_injective (String.append_right_inj _ |>.1 h)

theorem firstFree_eq (base : String) (number : Nat) (taken : NameSet) :
    ∃ chosen, number ≤ chosen ∧ firstFree base number taken = numbered base chosen ∧
      numbered base chosen ∉ taken ∧
      ∀ smaller, number ≤ smaller → smaller < chosen → numbered base smaller ∈ taken := by
  fun_induction firstFree base number taken with
  | case1 number taken htaken _ ih =>
    obtain ⟨chosen, hchosen, heq, hfree, hleast⟩ := ih
    have hne : numbered base number ≠ numbered base chosen := by
      intro h
      have hsame := numbered_injective base h
      omega
    refine ⟨chosen, by omega, heq, ?_, ?_⟩
    · intro hmem
      exact hfree (Std.ExtTreeSet.mem_erase.2 ⟨by simpa using hne, hmem⟩)
    · intro smaller hsmaller hlt
      by_cases hsame : smaller = number
      · rw [hsame]
        exact htaken
      · exact Std.ExtTreeSet.mem_of_mem_erase (hleast smaller (by omega) hlt)
  | case2 number taken hfree =>
    exact ⟨number, Nat.le_refl _, rfl, hfree, by omega⟩

/-- The set is what is on the list. -/
def NameSet.Lists (taken : NameSet) (names : List String) : Prop :=
  ∀ name, name ∈ taken ↔ name ∈ names

namespace NameSet

variable {taken other : NameSet} {names : List String}

theorem lists_empty : Lists ∅ [] := by
  simp [Lists]

theorem Lists.insert (h : taken.Lists names) (name : String) :
    Lists (taken.insert name) (names ++ [name]) := by
  intro found
  rw [Std.ExtTreeSet.mem_insert, h found, List.mem_append, List.mem_singleton, or_comm,
    Std.compare_eq_iff_eq, eq_comm]

theorem Lists.of_perm {others : List String} (h : taken.Lists names) (hperm : names.Perm others) :
    taken.Lists others :=
  fun name => (h name).trans hperm.mem_iff

theorem Lists.unique {others : List String} (h : taken.Lists names) (h' : other.Lists others)
    (hsame : names = others) : taken = other := by
  subst hsame
  exact Std.ExtTreeSet.ext_mem fun name => (h name).trans (h' name).symm

end NameSet

theorem fresh_eq (taken : NameSet) (base : String) :
    ∃ chosen, fresh taken base = numbered base chosen ∧ numbered base chosen ∉ taken ∧
      ∀ smaller < chosen, numbered base smaller ∈ taken := by
  obtain ⟨chosen, -, heq, hfree, hleast⟩ := firstFree_eq base 0 taken
  exact ⟨chosen, heq, hfree, fun smaller => hleast smaller (Nat.zero_le _)⟩

theorem leastFree_fresh {taken : NameSet} {names : List String} (h : taken.Lists names)
    (base : String) : LeastFree names base (fresh taken base) := by
  obtain ⟨chosen, heq, hfree, hleast⟩ := fresh_eq taken base
  simp only [h _] at hfree hleast
  rw [heq]
  cases chosen with
  | zero => exact .plain hfree
  | succ chosen =>
    refine .suffixed (hleast 0 (Nat.succ_pos _)) (Nat.succ_pos _) hfree ?_
    intro smaller hpositive hlt
    obtain ⟨less, rfl⟩ := Nat.exists_eq_add_of_le' hpositive
    exact hleast (less + 1) hlt

end BlockLang.Code
