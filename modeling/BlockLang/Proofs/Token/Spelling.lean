import BlockLang.Token.Scan

/-! How tokens are spelt. The token that starts at a character is the one whose spelling
stands there and does not go on. -/

namespace BlockLang

namespace Keyword

/-- A word is a keyword if it is spelt as one, upper and lower case aside. -/
theorem ofWord?_eq_some_iff {text : String} {word : Keyword} :
    ofWord? text = some word ↔ text.toUpper = word.spelling := by
  unfold ofWord?
  constructor
  · intro h
    have hfound := List.find?_some h
    exact (eq_of_beq hfound).symm
  · intro h
    rw [h]
    cases word <;> decide +kernel

theorem ofWord?_eq_none_iff {text : String} :
    ofWord? text = none ↔ ∀ word : Keyword, text.toUpper ≠ word.spelling := by
  rw [Option.eq_none_iff_forall_ne_some]
  simp only [ne_eq, ofWord?_eq_some_iff]

theorem isUpper_of_mem_spelling (word : Keyword) :
    ∀ char ∈ word.spelling.toList, char.isUpper = true := by
  rw [← List.all_eq_true]
  cases word <;> decide +kernel

end Keyword

namespace Token

/-- The spellings of a token. A keyword may be spelt in any mix of upper and lower case; the
end of input takes up no text. -/
def Spelt : Token → String → Prop
  | keyword word, text => text.toUpper = word.spelling
  | sign mark, text => text = mark.spelling
  | identifier name, text => text = name
  | number digits, text => text = digits
  | string content, text => text = "\"" ++ content ++ "\""
  | eof, text => text = ""

/-- Tokens that a source can hold. -/
def WellFormed : Token → Prop
  | keyword _ => True
  | sign _ => True
  | identifier name =>
    name.toList.head?.any isWordStart = true ∧ name.toList.all isWordRest = true ∧
      ∀ word : Keyword, name.toUpper ≠ word.spelling
  | number digits =>
    digits.toList.head?.any Char.isDigit = true ∧ digits.toList.all Char.isAlphanum = true ∧
      (Numeral.read? digits).isSome = true
  | string content => '"' ∉ content.toList ∧ '\n' ∉ content.toList
  | eof => False

instance (token : Token) (text : String) : Decidable (token.Spelt text) :=
  match token with
  | keyword word => inferInstanceAs (Decidable (text.toUpper = word.spelling))
  | sign mark => inferInstanceAs (Decidable (text = mark.spelling))
  | identifier name => inferInstanceAs (Decidable (text = name))
  | number digits => inferInstanceAs (Decidable (text = digits))
  | string content => inferInstanceAs (Decidable (text = "\"" ++ content ++ "\""))
  | eof => inferInstanceAs (Decidable (text = ""))

instance (name : String) : Decidable (∀ word : Keyword, name.toUpper ≠ word.spelling) :=
  decidable_of_iff _ Keyword.ofWord?_eq_none_iff

instance (token : Token) : Decidable token.WellFormed :=
  match token with
  | keyword _ => inferInstanceAs (Decidable True)
  | sign _ => inferInstanceAs (Decidable True)
  | identifier name =>
    inferInstanceAs (Decidable (name.toList.head?.any isWordStart = true ∧
      name.toList.all isWordRest = true ∧ ∀ word : Keyword, name.toUpper ≠ word.spelling))
  | number digits =>
    inferInstanceAs (Decidable (digits.toList.head?.any Char.isDigit = true ∧
      digits.toList.all Char.isAlphanum = true ∧ (Numeral.read? digits).isSome = true))
  | string content => inferInstanceAs (Decidable ('"' ∉ content.toList ∧ '\n' ∉ content.toList))
  | eof => inferInstanceAs (Decidable False)

/-- Whether the character, right behind the token, would be taken for a part of it. -/
def goesOn : Token → Char → Bool
  | keyword _, char => isWordRest char
  | identifier _, char => isWordRest char
  | number _, char => char.isAlphanum
  | sign .colon, char => char == '='
  | sign .less, char => char == '=' || char == '>'
  | sign .greater, char => char == '='
  | _, _ => false

/-- The token does not go on in what follows it. -/
def Stops (token : Token) (after : List Char) : Prop :=
  ∀ char ∈ after.head?, token.goesOn char = false

/-- Less may follow. -/
theorem Stops.of_append {token : Token} {after rest : List Char} (h : token.Stops (after ++ rest)) :
    token.Stops after := by
  intro char hchar
  cases after with
  | nil => cases hchar
  | cons first others => exact h char hchar

section

variable {char : Char}

private theorem isDigit_iff : char.isDigit = true ↔ 48 ≤ char.toNat ∧ char.toNat ≤ 57 := by
  simp only [Char.isDigit, Bool.and_eq_true, decide_eq_true_eq, ge_iff_le, UInt32.le_iff_toNat_le]
  rfl

private theorem isUpper_iff : char.isUpper = true ↔ 65 ≤ char.toNat ∧ char.toNat ≤ 90 := by
  unfold Char.isUpper
  simp only [decide_eq_true_eq, ge_iff_le, UInt32.le_iff_toNat_le]
  rfl

private theorem isLower_iff : char.isLower = true ↔ 97 ≤ char.toNat ∧ char.toNat ≤ 122 := by
  unfold Char.isLower
  simp only [Bool.and_eq_true, decide_eq_true_eq, ge_iff_le, UInt32.le_iff_toNat_le]
  rfl

private theorem isAlpha_iff : char.isAlpha = true ↔ char.isUpper = true ∨ char.isLower = true := by
  unfold Char.isAlpha
  rw [Bool.or_eq_true]

theorem isAlpha_of_isUpper_toUpper (h : char.toUpper.isUpper = true) : char.isAlpha = true := by
  rw [isAlpha_iff]
  unfold Char.toUpper at h
  split at h
  · next hlower =>
    right
    rw [isLower_iff]
    exact ⟨UInt32.le_iff_toNat_le.1 hlower.1, UInt32.le_iff_toNat_le.1 hlower.2⟩
  · exact .inl h

theorem isWordStart_of_isAlpha (h : char.isAlpha = true) : isWordStart char = true := by
  simp [isWordStart, h]

theorem isWordRest_of_isWordStart (h : isWordStart char = true) : isWordRest char = true := by
  simp only [isWordStart, isWordRest, Char.isAlphanum, Bool.or_eq_true] at h ⊢
  exact h.imp_left .inl

theorem isWordRest_of_isAlphanum (h : char.isAlphanum = true) : isWordRest char = true := by
  simp [isWordRest, h]

theorem isDigit_of_isWordStart (h : isWordStart char = true) : char.isDigit = false := by
  rw [Bool.eq_false_iff, ne_eq, isDigit_iff]
  simp only [isWordStart, Bool.or_eq_true, isAlpha_iff, isUpper_iff, isLower_iff, beq_iff_eq] at h
  rcases h with (h | h) | rfl
  · omega
  · omega
  · decide

/-- What can stand at the start of a separator. -/
def Parts (char : Char) : Prop := Text.isBlank char = true ∨ char = '#'

theorem Parts.bounds (h : Parts char) : char.toNat ≤ 35 ∧ char.toNat ≠ 34 ∨ 133 ≤ char.toNat := by
  rcases h with h | rfl
  · simp only [Text.isBlank, Text.blankRanges, List.any_cons, List.any_nil, Bool.or_false,
      Bool.or_eq_true, Bool.and_eq_true, decide_eq_true_eq] at h
    omega
  · decide

theorem not_parts_of_isWordRest (h : isWordRest char = true) : ¬Parts char := by
  intro hparts
  have hbounds := hparts.bounds
  simp only [isWordRest, Char.isAlphanum, Bool.or_eq_true, isAlpha_iff, isUpper_iff, isLower_iff,
    isDigit_iff, beq_iff_eq] at h
  rcases h with ((h | h) | h) | rfl
  · omega
  · omega
  · omega
  · revert hbounds
    decide

theorem goesOn_of_parts (token : Token) (h : Parts char) : token.goesOn char = false := by
  have hword : isWordRest char = false :=
    Bool.eq_false_iff.2 fun hword => not_parts_of_isWordRest hword h
  have hbounds := h.bounds
  have hequal : (char == '=') = false := by
    rw [beq_eq_false_iff_ne]
    rintro rfl
    revert hbounds
    decide
  have hgreater : (char == '>') = false := by
    rw [beq_eq_false_iff_ne]
    rintro rfl
    revert hbounds
    decide
  have halphanum : char.isAlphanum = false :=
    Bool.eq_false_iff.2 fun halphanum =>
      not_parts_of_isWordRest (isWordRest_of_isAlphanum halphanum) h
  unfold goesOn
  split <;> simp [hword, hequal, hgreater, halphanum]

end

section

variable {first : Char} {rest text after : List Char} {token : Token} {extra : Nat}

theorem stops_dropWhile {p : Char → Bool} (rest : List Char) (h : token.goesOn = p) :
    token.Stops (rest.dropWhile p) := by
  intro char hchar
  have hhead := List.head?_dropWhile_not p rest
  rw [hchar] at hhead
  rw [h]
  exact hhead

theorem takeWhile_of_stops {p : Char → Bool} (htext : ∀ char ∈ text, p char = true)
    (h : token.Stops after) (hp : token.goesOn = p) : (text ++ after).takeWhile p = text := by
  rw [List.takeWhile_append_of_pos htext]
  cases after with
  | nil => simp
  | cons char others =>
    have hchar := h char rfl
    rw [hp] at hchar
    simp [hchar]

private theorem head_ne {char : Char} (h : ∀ tail, rest = char :: tail → False) :
    ∀ other ∈ rest.head?, (other == char) = false := by
  intro other hother
  rw [beq_eq_false_iff_ne]
  rintro rfl
  obtain ⟨tail, htail⟩ := List.head?_eq_some_iff.1 hother
  exact h tail htail

/-- A sign of one character, if there is no longer one. -/
private theorem singleSign?_spec {mark : Sign} (h : singleSign? first = some mark) :
    String.ofList [first] = mark.spelling ∧ (sign mark).goesOn = fun _ => false := by
  unfold singleSign? at h
  split at h
  all_goals first | cases h; exact ⟨rfl, rfl⟩ | cases h

/-- The sign that is found is spelt there, and no longer sign is. -/
theorem sign?_spec {mark : Sign} (h : sign? first rest = some (mark, extra)) :
    ∃ text after, rest = text ++ after ∧ extra = text.length ∧
      String.ofList (first :: text) = mark.spelling ∧ (sign mark).Stops after := by
  unfold sign? at h
  split at h
  · cases h
    exact ⟨['='], _, rfl, rfl, rfl, by simp [Stops, goesOn]⟩
  · next hequal =>
    cases h
    exact ⟨[], _, rfl, rfl, rfl, head_ne hequal⟩
  · cases h
    exact ⟨['='], _, rfl, rfl, rfl, by simp [Stops, goesOn]⟩
  · cases h
    exact ⟨['>'], _, rfl, rfl, rfl, by simp [Stops, goesOn]⟩
  · next hequal hgreater =>
    cases h
    refine ⟨[], _, rfl, rfl, rfl, fun char hchar => ?_⟩
    simp [goesOn, head_ne hequal char hchar, head_ne hgreater char hchar]
  · cases h
    exact ⟨['='], _, rfl, rfl, rfl, by simp [Stops, goesOn]⟩
  · next hequal =>
    cases h
    exact ⟨[], _, rfl, rfl, rfl, head_ne hequal⟩
  · obtain ⟨mark, hmark, hfound⟩ := Option.map_eq_some_iff.1 h
    cases hfound
    obtain ⟨hspelt, hgoesOn⟩ := singleSign?_spec hmark
    exact ⟨[], rest, rfl, rfl, hspelt, fun char _ => congrFun hgoesOn char⟩

/-- The token that is found is spelt there, and does not go on. -/
theorem next_spec (h : next first rest = .ok (token, extra)) :
    ∃ text after, rest = text ++ after ∧ extra = text.length ∧ token.WellFormed ∧
      token.Spelt (String.ofList (first :: text)) ∧ token.Stops after := by
  unfold next at h
  dsimp only at h
  split at h
  · next hdigit =>
    split at h
    · next hvalue =>
      cases h
      refine ⟨_, _, List.takeWhile_append_dropWhile.symm, rfl, ⟨?_, ?_, hvalue⟩, rfl,
        stops_dropWhile rest rfl⟩
      · simp [hdigit]
      · simp [Char.isAlphanum, hdigit]
    · cases h
  · split at h
    · next hstart =>
      refine ⟨rest.takeWhile isWordRest, rest.dropWhile isWordRest,
        List.takeWhile_append_dropWhile.symm, ?_⟩
      cases hword : Keyword.ofWord? (String.ofList (first :: rest.takeWhile isWordRest)) with
      | some word =>
        rw [hword] at h
        cases h
        exact ⟨rfl, trivial, Keyword.ofWord?_eq_some_iff.1 hword, stops_dropWhile rest rfl⟩
      | none =>
        rw [hword] at h
        cases h
        refine ⟨rfl, ⟨?_, ?_, Keyword.ofWord?_eq_none_iff.1 hword⟩, rfl, stops_dropWhile rest rfl⟩
        · simp [hstart]
        · simp [isWordRest_of_isWordStart hstart]
    · split at h
      · next hquote =>
        split at h
        · next hclose =>
          cases h
          have hrest : rest = rest.takeWhile isStringChar ++ rest.dropWhile isStringChar :=
            List.takeWhile_append_dropWhile.symm
          generalize hcontent : rest.takeWhile isStringChar = content at hrest hclose
          rw [hrest, List.getElem?_append_right (Nat.le_refl _), Nat.sub_self,
            ← List.head?_eq_getElem?] at hclose
          obtain ⟨after, hafter⟩ := List.head?_eq_some_iff.1 hclose
          refine ⟨content ++ ['"'], after, ?_, by simp, ?_, ?_, by simp [Stops, goesOn]⟩
          · rw [hrest, hafter]
            simp
          · have hall : content.all isStringChar = true := by
              rw [← hcontent]
              exact List.all_takeWhile
            simp only [List.all_eq_true, isStringChar, Bool.and_eq_true, bne_iff_ne] at hall
            simp only [WellFormed, String.toList_ofList]
            exact ⟨fun hmem => (hall _ hmem).1 rfl, fun hmem => (hall _ hmem).2 rfl⟩
          · subst hquote
            simp only [Spelt]
            apply String.toList_inj.1
            simp
        · cases h
      · split at h
        · next hsign =>
          cases h
          obtain ⟨text, after, hrest, hextra, hspelt, hstops⟩ := sign?_spec hsign
          exact ⟨text, after, hrest, hextra, trivial, hspelt, hstops⟩
        · cases h

private theorem next_word (hstart : isWordStart first = true)
    (hall : ∀ char ∈ text, isWordRest char = true) (hstops : token.Stops after)
    (hgoesOn : token.goesOn = isWordRest) : next first (text ++ after) =
      .ok (((Keyword.ofWord? (String.ofList (first :: text))).map keyword).getD
        (identifier (String.ofList (first :: text))), text.length) := by
  have hdigit : ¬first.isDigit = true := by simp [isDigit_of_isWordStart hstart]
  unfold next
  rw [if_neg hdigit, if_pos hstart]
  simp only [takeWhile_of_stops hall hstops hgoesOn]

/-- A keyword is spelt with letters. -/
private theorem isAlpha_of_spelt {word : Keyword} (h : (keyword word).Spelt (String.ofList text)) :
    ∀ char ∈ text, char.isAlpha = true := by
  intro char hchar
  have hupper := word.isUpper_of_mem_spelling char.toUpper
  rw [← show (String.ofList text).toUpper = word.spelling from h, String.toUpper,
    String.toList_map, String.toList_ofList] at hupper
  exact isAlpha_of_isUpper_toUpper (hupper (List.mem_map_of_mem hchar))

private theorem sign?_colon (h : (sign .colon).Stops after) : sign? ':' after = some (.colon, 0) := by
  cases after with
  | nil => rfl
  | cons char others =>
    have hequal : (char == '=') = false := h char rfl
    rw [beq_eq_false_iff_ne] at hequal
    simp [sign?, hequal]

private theorem sign?_less (h : (sign .less).Stops after) : sign? '<' after = some (.less, 0) := by
  cases after with
  | nil => rfl
  | cons char others =>
    have hneither : (char == '=' || char == '>') = false := h char rfl
    rw [Bool.or_eq_false_iff, beq_eq_false_iff_ne, beq_eq_false_iff_ne] at hneither
    simp [sign?, hneither]

private theorem sign?_greater (h : (sign .greater).Stops after) :
    sign? '>' after = some (.greater, 0) := by
  cases after with
  | nil => rfl
  | cons char others =>
    have hequal : (char == '=') = false := h char rfl
    rw [beq_eq_false_iff_ne] at hequal
    simp [sign?, hequal]

private theorem next_sign {mark : Sign} (hspelt : String.ofList (first :: text) = mark.spelling)
    (hstops : (sign mark).Stops after) :
    next first (text ++ after) = .ok (sign mark, text.length) := by
  have htext : first :: text = mark.spelling.toList := by
    rw [← hspelt, String.toList_ofList]
  have hsign : sign? first (text ++ after) = some (mark, text.length) := by
    cases mark <;> obtain ⟨rfl, rfl⟩ := List.cons.inj htext
    case colon => exact sign?_colon hstops
    case less => exact sign?_less hstops
    case greater => exact sign?_greater hstops
    all_goals rfl
  have hfirst : first.isDigit = false ∧ isWordStart first = false ∧ first ≠ '"' := by
    cases mark <;> obtain ⟨rfl, -⟩ := List.cons.inj htext <;> decide
  simp [next, hfirst, hsign]

/-- A token that is spelt somewhere and does not go on is found there. -/
theorem next_eq (hformed : token.WellFormed) (hspelt : token.Spelt (String.ofList (first :: text)))
    (hstops : token.Stops after) : next first (text ++ after) = .ok (token, text.length) := by
  cases token with
  | keyword word =>
    have halpha := isAlpha_of_spelt hspelt
    have hrest : ∀ char ∈ text, isWordRest char = true := fun char hchar =>
      isWordRest_of_isWordStart (isWordStart_of_isAlpha (halpha char (List.mem_cons_of_mem _ hchar)))
    rw [next_word (isWordStart_of_isAlpha (halpha first List.mem_cons_self)) hrest hstops rfl,
      Keyword.ofWord?_eq_some_iff.2 hspelt]
    rfl
  | sign mark => exact next_sign hspelt hstops
  | identifier name =>
    obtain ⟨hhead, hall, hword⟩ := hformed
    obtain rfl : String.ofList (first :: text) = name := hspelt
    simp only [String.toList_ofList, List.head?_cons, Option.any_some, List.all_cons,
      Bool.and_eq_true, List.all_eq_true] at hhead hall
    rw [next_word hhead hall.2 hstops rfl, Keyword.ofWord?_eq_none_iff.2 hword]
    rfl
  | number digits =>
    obtain ⟨hhead, hall, hvalue⟩ := hformed
    obtain rfl : String.ofList (first :: text) = digits := hspelt
    simp only [String.toList_ofList, List.head?_cons, Option.any_some, List.all_cons,
      Bool.and_eq_true, List.all_eq_true] at hhead hall
    unfold next
    rw [if_pos hhead]
    simp only [takeWhile_of_stops hall.2 hstops rfl, if_pos hvalue]
  | string content =>
    have htext := congrArg String.toList (show String.ofList (first :: text) = _ from hspelt)
    simp only [String.toList_ofList, String.toList_append] at htext
    obtain ⟨rfl, rfl⟩ : first = '"' ∧ text = content.toList ++ ['"'] := List.cons.inj htext
    have hall : ∀ char ∈ content.toList, isStringChar char = true := by
      intro char hchar
      simp only [isStringChar, Bool.and_eq_true, bne_iff_ne]
      exact ⟨fun heq => hformed.1 (heq ▸ hchar), fun heq => hformed.2 (heq ▸ hchar)⟩
    have htake : (content.toList ++ ['"'] ++ after).takeWhile isStringChar = content.toList := by
      rw [List.append_assoc, List.takeWhile_append_of_pos hall]
      simp [isStringChar]
    unfold next
    rw [if_neg (by decide), if_neg (by decide), if_pos rfl]
    simp only [htake]
    rw [if_pos (by simp)]
    simp
  | eof => exact hformed.elim

private theorem ne_nil_of_spelt (hspelt : token.Spelt (String.ofList text))
    (hformed : token.WellFormed) : text ≠ [] := by
  rintro rfl
  cases token with
  | keyword word => cases word <;> exact absurd hspelt (by unfold Spelt; decide +kernel)
  | sign mark => cases mark <;> exact absurd hspelt (by unfold Spelt; decide +kernel)
  | identifier name =>
    obtain rfl : String.ofList [] = name := hspelt
    simp [WellFormed] at hformed
  | number digits =>
    obtain rfl : String.ofList [] = digits := hspelt
    simp [WellFormed] at hformed
  | string content =>
    have htext := congrArg String.toList (show String.ofList [] = _ from hspelt)
    simp at htext
  | eof => exact hformed

/-- A spelling begins with a character that does not part tokens. -/
theorem Spelt.begins (hspelt : token.Spelt (String.ofList text)) (hformed : token.WellFormed) :
    ∃ first others, text = first :: others ∧ ¬Parts first := by
  obtain ⟨first, others, rfl⟩ := List.exists_cons_of_ne_nil (ne_nil_of_spelt hspelt hformed)
  refine ⟨first, others, rfl, ?_⟩
  cases token with
  | keyword word =>
    have hstart := isWordStart_of_isAlpha (isAlpha_of_spelt hspelt first List.mem_cons_self)
    exact not_parts_of_isWordRest (isWordRest_of_isWordStart hstart)
  | sign mark =>
    have htext := congrArg String.toList (show String.ofList (first :: others) = _ from hspelt)
    rw [String.toList_ofList] at htext
    cases mark <;> obtain ⟨rfl, -⟩ := List.cons.inj htext <;> unfold Parts <;> decide
  | identifier name =>
    obtain rfl : String.ofList (first :: others) = name := hspelt
    have hstart := hformed.1
    rw [String.toList_ofList, List.head?_cons, Option.any_some] at hstart
    exact not_parts_of_isWordRest (isWordRest_of_isWordStart hstart)
  | number digits =>
    obtain rfl : String.ofList (first :: others) = digits := hspelt
    have hdigit := hformed.1
    rw [String.toList_ofList, List.head?_cons, Option.any_some] at hdigit
    exact not_parts_of_isWordRest (isWordRest_of_isAlphanum (by simp [Char.isAlphanum, hdigit]))
  | string content =>
    have htext := congrArg String.toList (show String.ofList (first :: others) = _ from hspelt)
    simp only [String.toList_ofList, String.toList_append] at htext
    obtain rfl : first = '"' := (List.cons.inj htext).1
    unfold Parts
    decide
  | eof => exact hformed.elim

end

end Token

end BlockLang
