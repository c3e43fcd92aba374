import Std.Data.ExtTreeSet

/-! Names that do not clash: a name that is taken gets the least number that makes
it new. -/

namespace BlockLang.Code

/-- Names that are taken, in no order. -/
abbrev NameSet := Std.ExtTreeSet String

theorem NameSet.size_erase_lt {taken : NameSet} {name : String} (h : name ∈ taken) :
    (taken.erase name).size < taken.size := by
  have hsize : taken.size ≠ 0 := by
    rw [ne_eq, ← Std.ExtTreeSet.eq_empty_iff_size_eq_zero]
    rintro rfl
    exact Std.ExtTreeSet.not_mem_empty h
  rw [Std.ExtTreeSet.size_erase, if_pos (Std.ExtTreeSet.mem_iff_contains.1 h)]
  omega

/-- The `number`th choice for a name: the name itself, then `name.1`, `name.2`, … -/
def numbered (base : String) : Nat → String
  | 0 => base
  | number + 1 => base ++ "." ++ toString (number + 1)

/-- The first choice from the `number`th on that is not taken. A choice that is taken
is struck off, so the search comes to an end. -/
def firstFree (base : String) (number : Nat) (taken : NameSet) : String :=
  if h : numbered base number ∈ taken then
    have := NameSet.size_erase_lt h
    firstFree base (number + 1) (taken.erase (numbered base number))
  else numbered base number
termination_by taken.size

def fresh (taken : NameSet) (base : String) : String :=
  firstFree base 0 taken

end BlockLang.Code
