import BlockLang.Text.Basic

/-! The lines of a text, and where a position stands in its line. A text is split into all
of its lines but the last one, if that one is empty. -/

namespace BlockLang.Text

/-- A line of a text, counted from 1. Every line but the last is ended by a line feed, and
what is left of it has no carriage return at its end. -/
inductive LineAt : List Char → Nat → List Char → Prop
  | last {line : List Char} (hline : '\n' ∉ line) : LineAt line 1 line
  | ended {line rest : List Char} (hline : '\n' ∉ line) :
    LineAt (line ++ '\n' :: rest) 1 (chomp line)
  | later {first rest line : List Char} {number : Nat} (hfirst : '\n' ∉ first)
    (hrest : LineAt rest number line) : LineAt (first ++ '\n' :: rest) (number + 1) line

/-- What stands behind the last line feed of a text. -/
def lastLine (chars : List Char) : List Char :=
  (chars.reverse.takeWhile (· != '\n')).reverse

variable {line rest before : List Char}

private theorem bne_feed (hline : '\n' ∉ line) : ∀ char ∈ line, (char != '\n') = true := by
  intro char hchar
  simpa using fun heq : char = '\n' => hline (heq ▸ hchar)

theorem splitLines_of_notMem (hline : '\n' ∉ line) :
    splitLines line = if line = [] then [] else [line] := by
  cases line with
  | nil => simp [splitLines]
  | cons first rest => rw [splitLines, if_neg hline, if_neg (List.cons_ne_nil _ _)]

theorem splitLines_append (hline : '\n' ∉ line) (rest : List Char) :
    splitLines (line ++ '\n' :: rest) = chomp line :: splitLines rest := by
  have htake : (line ++ '\n' :: rest).takeWhile (· != '\n') = line := by
    rw [List.takeWhile_append_of_pos (bne_feed hline)]
    simp
  have hmem : '\n' ∈ line ++ '\n' :: rest := by simp
  obtain ⟨first, others, hchars⟩ : ∃ first others, line ++ '\n' :: rest = first :: others :=
    List.exists_cons_of_ne_nil (by simp)
  rw [hchars, splitLines, ← hchars, if_pos hmem]
  simp only [htake]
  congr 2
  simp

theorem lastLine_of_notMem (hline : '\n' ∉ line) : lastLine line = line := by
  have hreverse : '\n' ∉ line.reverse := by simpa using hline
  have htake : (line.reverse ++ []).takeWhile (· != '\n') = line.reverse ++ [] :=
    List.takeWhile_append_of_pos (bne_feed hreverse)
  rw [List.append_nil] at htake
  rw [lastLine, htake, List.reverse_reverse]

theorem lastLine_append (line rest : List Char) :
    lastLine (line ++ '\n' :: rest) = lastLine rest := by
  have hchars : (line ++ '\n' :: rest).reverse = rest.reverse ++ '\n' :: line.reverse := by simp
  unfold lastLine
  rw [hchars, List.takeWhile_append]
  split
  next hlength =>
    have hrest : rest.reverse.takeWhile (· != '\n') = rest.reverse :=
      (List.takeWhile_prefix _).eq_of_length hlength
    rw [hrest]
    simp
  next => rfl

/-- A text is one line, or has a first line and a text behind its line feed. -/
theorem lines_induction {motive : List Char → Prop}
    (last : ∀ line, '\n' ∉ line → motive line)
    (later : ∀ first rest, '\n' ∉ first → motive rest → motive (first ++ '\n' :: rest))
    (chars : List Char) : motive chars := by
  induction hlength : chars.length using Nat.strongRecOn generalizing chars with
  | ind length ih =>
    by_cases hfeed : '\n' ∈ chars
    · obtain ⟨first, rest, rfl, hfirst⟩ := List.eq_append_cons_of_mem hfeed
      refine later first rest hfirst (ih rest.length ?_ rest rfl)
      simp only [List.length_append, List.length_cons] at hlength
      omega
    · exact last chars hfeed

theorem count_append_feed (hline : '\n' ∉ line) (rest : List Char) :
    (line ++ '\n' :: rest).count '\n' = rest.count '\n' + 1 := by
  rw [List.count_append, List.count_eq_zero_of_not_mem hline, List.count_cons_self, Nat.zero_add]

/-- The last line of a text, and whether the text is split into it too. -/
theorem lineAt_lastLine (chars : List Char) :
    LineAt chars (1 + chars.count '\n') (lastLine chars) ∧
      (splitLines chars)[chars.count '\n']? =
        if lastLine chars = [] then none else some (lastLine chars) := by
  induction chars using lines_induction with
  | last line hline =>
    rw [lastLine_of_notMem hline, splitLines_of_notMem hline, List.count_eq_zero_of_not_mem hline]
    refine ⟨.last hline, ?_⟩
    split <;> rfl
  | later first rest hfirst ih =>
    rw [lastLine_append, splitLines_append hfirst, count_append_feed hfirst]
    exact ⟨.later hfirst ih.1, ih.2⟩

/-- A character that is no carriage return is not cut off from its line. -/
theorem getElem?_chomp {char : Char} (hchar : char ≠ '\r') (before after : List Char) :
    (chomp (before ++ char :: after))[before.length]? = some char := by
  unfold chomp
  split
  next hreturn =>
    have hne : after ≠ [] := by
      rintro rfl
      rw [List.getLast?_concat] at hreturn
      exact hchar (Option.some.inj hreturn)
    rw [List.dropLast_append_of_ne_nil (List.cons_ne_nil _ _), List.dropLast_cons_of_ne_nil hne]
    simp
  next => simp

/-- The line of a character, which stands in it behind what was read of that line before. -/
theorem exists_lineAt {char : Char} (hfeed : char ≠ '\n') (hreturn : char ≠ '\r')
    (before after : List Char) :
    ∃ found, LineAt (before ++ char :: after) (1 + before.count '\n') found ∧
      (splitLines (before ++ char :: after))[before.count '\n']? = some found ∧
      found[(lastLine before).length]? = some char := by
  induction before using lines_induction with
  | last line hline =>
    rw [lastLine_of_notMem hline, List.count_eq_zero_of_not_mem hline]
    by_cases hafter : '\n' ∈ after
    · obtain ⟨piece, rest, rfl, hpiece⟩ := List.eq_append_cons_of_mem hafter
      have hwhole : '\n' ∉ line ++ char :: piece := by
        simp [hline, hpiece, hfeed.symm]
      have hchars : line ++ char :: (piece ++ '\n' :: rest) =
          (line ++ char :: piece) ++ '\n' :: rest := by simp
      rw [hchars, splitLines_append hwhole]
      exact ⟨_, .ended hwhole, rfl, getElem?_chomp hreturn line piece⟩
    · have hwhole : '\n' ∉ line ++ char :: after := by
        simp [hline, hafter, hfeed.symm]
      rw [splitLines_of_notMem hwhole, if_neg (by simp)]
      exact ⟨_, .last hwhole, rfl, by simp⟩
  | later first rest hfirst ih =>
    obtain ⟨found, hfound, hsplit, hchar⟩ := ih
    rw [lastLine_append, count_append_feed hfirst, List.append_assoc, List.cons_append,
      splitLines_append hfirst]
    exact ⟨found, .later hfirst hfound, hsplit, hchar⟩

end BlockLang.Text
