import BlockLang.Numeral
import Mathlib.Data.List.Forall2
import Mathlib.Data.Nat.Digits.Defs
import Mathlib.Tactic.MkIffOfInductiveProp

/-! The numerals the reader of numbers takes. Those that are documented have their
digits right behind the sign or the base; the reader takes one plus sign there. -/

namespace BlockLang.Numeral

/-- The character stands for the digit; letters may be of either case. -/
def IsDigit (base : Nat) (char : Char) (digit : Nat) : Prop :=
  digit < base ∧ (char = digit.digitChar ∨ char = digit.digitChar.toUpper)

/-- One or more digits, the first of them the most significant. -/
def Counts (base : Nat) (chars : List Char) (number : Nat) : Prop :=
  chars ≠ [] ∧ ∃ digits, List.Forall₂ (IsDigit base) chars digits ∧
    number = Nat.ofDigits base digits.reverse

/-- Decimal digits, or hexadecimal digits behind their mark, with `lead` right
before the digits. -/
@[mk_iff]
inductive Unsigned (lead : List Char) : List Char → Nat → Prop
  | decimal {chars : List Char} {number : Nat} (digits : Counts 10 chars number) :
    Unsigned lead (lead ++ chars) number
  | hexadecimal {mark : Char} {chars : List Char} {number : Nat} (cased : mark = 'x' ∨ mark = 'X')
    (digits : Counts 16 chars number) : Unsigned lead ('0' :: mark :: (lead ++ chars)) number

/-- A numeral, with `lead` right before its digits. The documented ones have
nothing there. -/
@[mk_iff]
inductive Signed (lead : List Char) : List Char → Int → Prop
  | positive {chars : List Char} {number : Nat} (magnitude : Unsigned lead chars number) :
    Signed lead chars number
  | negative {chars : List Char} {number : Nat} (magnitude : Unsigned lead chars number) :
    Signed lead ('-' :: chars) (-number)

section

variable {base digit number start : Nat} {char : Char} {chars : List Char}

/-- The digits among the characters with small codes. -/
theorem digit?_ofNat : ∀ code < 128, ∀ digit < 16,
    digit? 16 (Char.ofNat code) = some digit ↔
      Char.ofNat code = digit.digitChar ∨ Char.ofNat code = digit.digitChar.toUpper := by
  decide +kernel

theorem toNat_digitChar_lt : ∀ digit < 16,
    digit.digitChar.toNat < 128 ∧ digit.digitChar.toUpper.toNat < 128 := by
  decide

theorem toNat_lt_of_digit? (h : digit? base char = some digit) : char.toNat < 128 := by
  obtain ⟨hvalue, -⟩ := Option.filter_eq_some_iff.mp h
  have code {bound : Char} (hle : char ≤ bound) (hbound : bound.toNat < 128) : char.toNat < 128 :=
    Nat.lt_of_le_of_lt hle hbound
  split at hvalue
  next hrange => exact code hrange.2 (by decide)
  split at hvalue
  next hrange => exact code hrange.2 (by decide)
  split at hvalue
  next hrange => exact code hrange.2 (by decide)
  cases hvalue

theorem digit?_eq_some_iff (hbase : base ≤ 16) :
    digit? base char = some digit ↔ IsDigit base char digit := by
  have hwide : digit? base char = some digit ↔ digit < base ∧ digit? 16 char = some digit := by
    simp only [digit?, Option.filter_eq_some_iff, decide_eq_true_eq]
    constructor
    · rintro ⟨hvalue, hlt⟩
      exact ⟨hlt, hvalue, Nat.lt_of_lt_of_le hlt hbase⟩
    · rintro ⟨hlt, hvalue, -⟩
      exact ⟨hvalue, hlt⟩
  rw [hwide]
  refine and_congr_right fun hlt => ?_
  have hdigit : digit < 16 := Nat.lt_of_lt_of_le hlt hbase
  have hsmall (hcode : char.toNat < 128) := Char.ofNat_toNat char ▸
    digit?_ofNat char.toNat hcode digit hdigit
  constructor
  · intro hread
    exact (hsmall (toNat_lt_of_digit? hread)).mp hread
  · intro hchar
    have hcode : char.toNat < 128 := by
      have hcodes := toNat_digitChar_lt digit hdigit
      rcases hchar with rfl | rfl
      · exact hcodes.1
      · exact hcodes.2
    exact (hsmall hcode).mpr hchar

theorem digits?_eq_some_iff (hbase : base ≤ 16) :
    digits? base chars start = some number ↔
      ∃ digits, List.Forall₂ (IsDigit base) chars digits ∧
        number = digits.foldl (fun value digit => value * base + digit) start := by
  induction chars generalizing start with
  | nil =>
    constructor
    · rintro ⟨⟩
      exact ⟨[], .nil, rfl⟩
    · rintro ⟨_, ⟨⟩, rfl⟩
      rfl
  | cons char rest ih =>
    simp only [digits?, Option.bind_eq_some_iff, digit?_eq_some_iff hbase, ih]
    constructor
    · rintro ⟨digit, hdigit, digits, hdigits, rfl⟩
      exact ⟨digit :: digits, .cons hdigit hdigits, rfl⟩
    · rintro ⟨digits, hdigits, rfl⟩
      cases hdigits with
      | cons hdigit hrest => exact ⟨_, hdigit, _, hrest, rfl⟩

theorem foldl_eq_ofDigits (base : Nat) (digits : List Nat) :
    digits.foldl (fun value digit => value * base + digit) 0 =
      Nat.ofDigits base digits.reverse := by
  rw [Nat.ofDigits_eq_foldr, List.foldr_reverse]
  congr 1
  funext value digit
  simp [Nat.mul_comm, Nat.add_comm]

theorem counts_iff (hbase : base ≤ 16) :
    Counts base chars number ↔ chars ≠ [] ∧ digits? base chars 0 = some number := by
  simp only [Counts, digits?_eq_some_iff hbase, foldl_eq_ofDigits]

theorem Counts.notMem (hbase : base ≤ 16) (hnone : digit? base char = none)
    (h : Counts base chars number) : char ∉ chars := by
  obtain ⟨-, digits, hdigits, -⟩ := h
  intro hmem
  obtain ⟨digit, hdigit⟩ : ∃ digit, IsDigit base char digit := by
    induction hdigits with
    | nil => cases hmem
    | cons hfirst _ ih =>
      rcases List.mem_cons.mp hmem with rfl | hrest
      · exact ⟨_, hfirst⟩
      · exact ih hrest
  rw [(digit?_eq_some_iff hbase).mpr hdigit] at hnone
  cases hnone

end

section

variable {base number : Nat} {value : Int} {chars : List Char}

theorem unsigned?_eq_some_iff (hbase : base ≤ 16) (hplus : digit? base '+' = none) :
    unsigned? base chars = some number ↔
      Counts base chars number ∨ ∃ rest, chars = '+' :: rest ∧ Counts base rest number := by
  unfold unsigned?
  split
  · simp [counts_iff hbase]
  · simp [counts_iff hbase, digits?, hplus]
  next rest hrest =>
    have hne : rest ≠ [] := fun h => hrest (by rw [h])
    simp [counts_iff hbase, digits?, hplus, hne]
  next hempty _ hlead =>
    have hrest (rest : List Char) : chars ≠ '+' :: rest := hlead rest
    have hne : chars ≠ [] := hempty
    simp [counts_iff hbase, hrest, hne]

theorem unsigned?_hexadecimal {mark : Char} (cased : mark = 'x' ∨ mark = 'X') :
    unsigned? 16 chars = some number ↔
      Unsigned [] ('0' :: mark :: chars) number ∨ Unsigned ['+'] ('0' :: mark :: chars) number := by
  have hmark : digit? 10 mark = none := by
    rcases cased with rfl | rfl <;> decide
  have hdecimal : ¬Counts 10 ('0' :: mark :: chars) number :=
    fun h => h.notMem (by decide) hmark (by simp)
  rw [unsigned?_eq_some_iff (by decide) (by decide)]
  constructor
  · rintro (h | ⟨rest, rfl, h⟩)
    · exact .inl (.hexadecimal cased h)
    · exact .inr (.hexadecimal cased h)
  · simp only [unsigned_iff, List.nil_append, List.singleton_append]
    rintro ((⟨_, h, rfl⟩ | ⟨_, _, -, h, hchars⟩) | (⟨_, -, hchars⟩ | ⟨_, rest, -, h, hchars⟩))
    · exact absurd h hdecimal
    · cases hchars
      exact .inl h
    · cases hchars
    · cases hchars
      exact .inr ⟨rest, rfl, h⟩

theorem unsigned?_decimal (hlower : ∀ rest, chars ≠ '0' :: 'x' :: rest)
    (hupper : ∀ rest, chars ≠ '0' :: 'X' :: rest) :
    unsigned? 10 chars = some number ↔ Unsigned [] chars number ∨ Unsigned ['+'] chars number := by
  have hhexadecimal {mark : Char} (cased : mark = 'x' ∨ mark = 'X') (rest : List Char) :
      chars ≠ '0' :: mark :: rest := by
    rcases cased with rfl | rfl
    · exact hlower rest
    · exact hupper rest
  rw [unsigned?_eq_some_iff (by decide) (by decide)]
  constructor
  · rintro (h | ⟨rest, rfl, h⟩)
    · exact .inl (.decimal h)
    · exact .inr (.decimal h)
  · simp only [unsigned_iff, List.nil_append, List.singleton_append]
    rintro ((⟨_, h, rfl⟩ | ⟨_, _, cased, -, hchars⟩) | (⟨rest, h, rfl⟩ | ⟨_, _, cased, -, hchars⟩))
    · exact .inl h
    · exact absurd hchars (hhexadecimal cased _)
    · exact .inr ⟨rest, rfl, h⟩
    · exact absurd hchars (hhexadecimal cased _)

theorem magnitude?_eq_some_iff :
    magnitude? chars = some number ↔ Unsigned [] chars number ∨ Unsigned ['+'] chars number := by
  unfold magnitude?
  split
  · exact unsigned?_hexadecimal (.inl rfl)
  · exact unsigned?_hexadecimal (.inr rfl)
  next hlower hupper => exact unsigned?_decimal hlower hupper

/-- A magnitude has no minus sign of its own. -/
theorem not_unsigned_minus {lead : List Char} (hlead : lead = [] ∨ lead = ['+']) :
    ¬Unsigned lead ('-' :: chars) number := by
  rw [unsigned_iff]
  rintro (⟨digits, h, hchars⟩ | ⟨_, _, -, -, hchars⟩)
  · rcases hlead with rfl | rfl
    · exact h.notMem (by decide) (by decide) (hchars ▸ List.mem_cons_self)
    · cases hchars
  · cases hchars

theorem signed_minus_iff {lead : List Char} (hlead : lead = [] ∨ lead = ['+']) :
    Signed lead ('-' :: chars) value ↔
      ∃ number : Nat, Unsigned lead chars number ∧ -(number : Int) = value := by
  rw [signed_iff]
  constructor
  · rintro (⟨_, h, -⟩ | ⟨_, number, h, hchars, hvalue⟩)
    · exact absurd h (not_unsigned_minus hlead)
    · cases hchars
      exact ⟨number, h, hvalue.symm⟩
  · rintro ⟨number, h, rfl⟩
    exact .inr ⟨chars, number, h, rfl, rfl⟩

theorem signed_iff_unsigned {lead : List Char} (hminus : ∀ rest, chars ≠ '-' :: rest) :
    Signed lead chars value ↔
      ∃ number : Nat, Unsigned lead chars number ∧ (number : Int) = value := by
  rw [signed_iff]
  constructor
  · rintro (⟨number, h, hvalue⟩ | ⟨rest, _, -, hchars, -⟩)
    · exact ⟨number, h, hvalue.symm⟩
    · exact absurd hchars (hminus rest)
  · rintro ⟨number, h, rfl⟩
    exact .inl ⟨number, h, rfl⟩

theorem integer?_eq_some_iff :
    integer? chars = some value ↔ Signed [] chars value ∨ Signed ['+'] chars value := by
  unfold integer?
  split
  next rest =>
    have hmap : (magnitude? rest >>= fun number => pure (number : Int)).map (fun value => -value) =
        Option.map (fun number : Nat => -(number : Int)) (magnitude? rest) := by
      cases magnitude? rest <;> rfl
    rw [hmap]
    simp only [Option.map_eq_some_iff, magnitude?_eq_some_iff, signed_minus_iff (.inl rfl),
      signed_minus_iff (.inr rfl), or_and_right, exists_or]
  next hminus =>
    simp only [Option.map_eq_some_iff, magnitude?_eq_some_iff, signed_iff_unsigned hminus,
      or_and_right, exists_or, Int.ofNat_eq_natCast]

/-- The plus sign tells the two kinds of numerals apart. -/
theorem Signed.notMem_plus (h : Signed [] chars value) : '+' ∉ chars := by
  have hunsigned {chars : List Char} {number : Nat} (h : Unsigned [] chars number) :
      '+' ∉ chars := by
    cases h with
    | decimal digits => exact digits.notMem (by decide) (by decide)
    | hexadecimal cased digits =>
      have hdigits : '+' ∉ _ := digits.notMem (by decide) (by decide)
      rcases cased with rfl | rfl <;> simpa using hdigits
  cases h with
  | positive magnitude => exact hunsigned magnitude
  | negative magnitude => simpa using hunsigned magnitude

theorem Signed.mem_plus (h : Signed ['+'] chars value) : '+' ∈ chars := by
  have hunsigned {chars : List Char} {number : Nat} (h : Unsigned ['+'] chars number) :
      '+' ∈ chars := by
    cases h <;> simp
  cases h with
  | positive magnitude => exact hunsigned magnitude
  | negative magnitude => exact List.mem_cons_of_mem _ (hunsigned magnitude)

end

section

variable {base digit number : Nat} {char : Char} {chars : List Char}

/-- The digits that a number is written with denote it. -/
theorem counts_toDigits (hbase : 1 < base) (number : Nat) :
    Counts base (Nat.toDigits base number) number := by
  induction number using Nat.strongRecOn with
  | ind number ih =>
    rw [Nat.toDigits_eq_if hbase]
    split
    next hlt => exact ⟨List.cons_ne_nil _ _, [number], .cons ⟨hlt, .inl rfl⟩ .nil, by simp⟩
    next hle =>
      have hsmaller : number / base < number := Nat.div_lt_self (by omega) hbase
      have hlast : IsDigit base (number % base).digitChar (number % base) :=
        ⟨Nat.mod_lt _ (by omega), .inl rfl⟩
      obtain ⟨-, digits, hdigits, hnumber⟩ := ih (number / base) hsmaller
      refine ⟨by simp, digits ++ [number % base], List.rel_append hdigits (.cons hlast .nil), ?_⟩
      rw [List.reverse_append, List.reverse_singleton, List.singleton_append, Nat.ofDigits_cons,
        ← hnumber]
      exact (Nat.mod_add_div number base).symm

theorem IsDigit.isAlphanum (h : IsDigit base char digit) (hbase : base ≤ 16) :
    char.isAlphanum = true := by
  have hdigits : ∀ digit < 16, digit.digitChar.isAlphanum = true ∧
      digit.digitChar.toUpper.isAlphanum = true := by decide
  obtain ⟨hlt, hchar⟩ := h
  obtain ⟨hlower, hupper⟩ := hdigits digit (Nat.lt_of_lt_of_le hlt hbase)
  rcases hchar with rfl | rfl
  · exact hlower
  · exact hupper

theorem IsDigit.isDigit (h : IsDigit 10 char digit) : char.isDigit = true := by
  have hdigits : ∀ digit < 10, digit.digitChar.isDigit = true ∧
      digit.digitChar.toUpper.isDigit = true := by decide
  obtain ⟨hlt, hchar⟩ := h
  rcases hchar with rfl | rfl
  · exact (hdigits digit hlt).1
  · exact (hdigits digit hlt).2

theorem Counts.all_isAlphanum (h : Counts base chars number) (hbase : base ≤ 16) :
    chars.all Char.isAlphanum = true := by
  obtain ⟨-, digits, hdigits, -⟩ := h
  induction hdigits with
  | nil => rfl
  | cons hfirst _ ih => simp [hfirst.isAlphanum hbase, ih]

theorem Counts.head_isDigit (h : Counts 10 chars number) :
    chars.head?.any Char.isDigit = true := by
  obtain ⟨hne, digits, hdigits, -⟩ := h
  cases hdigits with
  | nil => exact (hne rfl).elim
  | cons hfirst _ => exact hfirst.isDigit

/-- A magnitude looks like a number of a source. -/
theorem Unsigned.shape (h : Unsigned [] chars number) :
    chars.head?.any Char.isDigit = true ∧ chars.all Char.isAlphanum = true := by
  cases h with
  | decimal digits => exact ⟨digits.head_isDigit, digits.all_isAlphanum (by decide)⟩
  | @hexadecimal mark digits _ cased hdigits =>
    have hmark : mark.isAlphanum = true := by
      rcases cased with rfl | rfl <;> decide
    have hzero : '0'.isAlphanum = true := by decide
    exact ⟨rfl, by simpa [hmark, hzero] using hdigits.all_isAlphanum (by decide)⟩

end

section

variable {text : String} {value : Int64}

theorem read?_eq_some_iff : read? text = some value ↔ integer? text.toList = some value.toInt := by
  simp only [read?, Option.bind_eq_some_iff, Option.ite_none_right_eq_some, Option.some.injEq]
  constructor
  · rintro ⟨number, hinteger, hrange, rfl⟩
    rw [Int64.toInt_ofInt_of_le hrange.1 (Int.lt_of_le_of_lt hrange.2 (by decide))]
    exact hinteger
  · intro hinteger
    exact ⟨_, hinteger, ⟨value.minValue_le_toInt, value.toInt_le⟩, value.ofInt_toInt⟩

theorem read?_iff_signed :
    read? text = some value ↔
      Signed [] text.toList value.toInt ∨ Signed ['+'] text.toList value.toInt := by
  rw [read?_eq_some_iff, integer?_eq_some_iff]

/-- The digits alone are read if they fit without a sign. -/
theorem read?_unsigned {number : Nat} (h : Unsigned [] text.toList number)
    (hnumber : number < 2 ^ 63) : read? text = some (.ofInt number) := by
  have hvalue : (Int64.ofInt number).toInt = number :=
    Int64.toInt_ofInt_of_le (by omega) (by omega)
  refine read?_iff_signed.mpr (.inl ?_)
  rw [hvalue]
  exact .positive h

theorem read?_unsigned_eq_none {number : Nat} (h : Unsigned [] text.toList number)
    (hnumber : 2 ^ 63 ≤ number) : read? text = none := by
  have hinteger : integer? text.toList = some (number : Int) :=
    integer?_eq_some_iff.mpr (.inl (.positive h))
  refine Option.eq_none_iff_forall_ne_some.mpr fun value hvalue => ?_
  have hsame := Option.some.inj (hinteger.symm.trans (read?_eq_some_iff.mp hvalue))
  have hlt := value.toInt_lt
  omega

end

/-- A text is read as the number that it spells, within 64 bits. Beside the
documented numerals it may have a plus sign right before the digits, and it is
for these texts alone that the reader departs from what is documented. -/
theorem read?_numerals (text : String) :
    (∀ value : Int64, read? text = some value ↔
      Signed [] text.toList value.toInt ∨ Signed ['+'] text.toList value.toInt) ∧
    ((∀ value : Int64, read? text = some value ↔ Signed [] text.toList value.toInt) ↔
      ∀ value : Int64, ¬Signed ['+'] text.toList value.toInt) := by
  refine ⟨fun value => read?_iff_signed, fun hdocumented value hplus => ?_, fun hnone value => ?_⟩
  · have hplain := (hdocumented value).mp (read?_iff_signed.mpr (.inr hplus))
    exact hplain.notMem_plus hplus.mem_plus
  · rw [read?_iff_signed]
    exact or_iff_left (hnone value)

theorem read?_plus_five :
    read? "+5" = some 5 ∧ ¬Signed [] "+5".toList (5 : Int64).toInt :=
  ⟨by decide +kernel, fun h => h.notMem_plus (by decide)⟩

end BlockLang.Numeral
