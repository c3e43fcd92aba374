import BlockLang.Proofs.Token.Spelling

/-! What scanning makes of a text, piece by piece: blanks and comments are passed over, and
every token takes up its spelling and no more. -/

namespace BlockLang

/-- The place right behind a text, lines and columns counted from 1. -/
def Place.behind (text : String) : Place where
  line := 1 + text.toList.count '\n'
  column := 1 + (text.toList.reverse.takeWhile (· != '\n')).length

namespace Position

/-- The position right behind a text. -/
def behind (text : List Char) : Position where
  toPlace := .behind (String.ofList text)
  offset := (String.ofList text).utf8ByteSize

theorem offset_behind_append (text others : List Char) :
    (behind (text ++ others)).offset = (behind text).offset + (behind others).offset := by
  simp [behind]

theorem offset_behind_pos {text : List Char} (h : text ≠ []) : 0 < (behind text).offset := by
  cases text with
  | nil => exact (h rfl).elim
  | cons char others =>
    have hsize := Char.utf8Size_pos char
    simp [behind]
    omega

theorem after_behind (text : List Char) (char : Char) :
    (behind text).after char = behind (text ++ [char]) := by
  unfold after behind Place.behind
  by_cases hline : char = '\n'
  · simp [hline]
    exact ⟨by omega, rfl⟩
  · simp [hline]
    omega

theorem afterAll_behind (text chars : List Char) :
    (behind text).afterAll chars = behind (text ++ chars) := by
  induction chars generalizing text with
  | nil => simp
  | cons char others ih =>
    rw [afterAll_cons, after_behind, ih, List.append_assoc, List.singleton_append]

end Position

namespace Token

open Position (behind)

/-- The line of `text` is over: it ends here, or there is no more text. -/
def EndsLine (text rest : List Char) : Prop :=
  '\n' ∉ text ∧ (rest = [] ∨ rest.head? = some '\n')

/-- A piece that is passed over, if `rest` follows it. -/
inductive Gap : List Char → List Char → Prop
  | blank {char : Char} {rest : List Char} (h : Text.isBlank char = true) : Gap [char] rest
  | comment {text rest : List Char} (h : EndsLine text rest) : Gap ('#' :: text) rest

/-- The lexemes of a text that comes after `read`. -/
inductive Scanned : List Char → List Char → List Lexeme → Prop
  | done {read : List Char} : Scanned read [] [⟨eof, (behind read).spanTo (behind read)⟩]
  | gap {read piece rest : List Char} {lexemes : List Lexeme} (hgap : Gap piece rest)
    (hrest : Scanned (read ++ piece) rest lexemes) : Scanned read (piece ++ rest) lexemes
  | token {read text rest : List Char} {token : Token} {lexemes : List Lexeme}
    (hformed : token.WellFormed) (hspelt : token.Spelt (String.ofList text))
    (hstops : token.Stops rest) (hrest : Scanned (read ++ text) rest lexemes) :
    Scanned read (text ++ rest)
      (⟨token, (behind read).spanTo (behind (read ++ text))⟩ :: lexemes)

private theorem endsLine_takeWhile (rest : List Char) :
    EndsLine (rest.takeWhile (· != '\n')) (rest.dropWhile (· != '\n')) := by
  refine ⟨fun hmem => ?_, ?_⟩
  · have hall := List.all_eq_true.1 (List.all_takeWhile (p := (· != '\n')) (l := rest)) '\n' hmem
    simp at hall
  · have hhead := List.head?_dropWhile_not (· != '\n') rest
    cases hrest : rest.dropWhile (· != '\n') with
    | nil => exact .inl rfl
    | cons char others =>
      rw [hrest] at hhead
      simpa using hhead

private theorem EndsLine.takeWhile {text rest : List Char} (h : EndsLine text rest) :
    (text ++ rest).takeWhile (· != '\n') = text := by
  have htext : ∀ char ∈ text, (char != '\n') = true := by
    intro char hchar
    simpa using fun heq : char = '\n' => h.1 (heq ▸ hchar)
  rw [List.takeWhile_append_of_pos htext]
  rcases h.2 with rfl | hhead
  · simp
  · obtain ⟨others, rfl⟩ := List.head?_eq_some_iff.1 hhead
    simp

/-- Less may follow. -/
theorem EndsLine.of_append {text rest others : List Char} (h : EndsLine text (rest ++ others)) :
    EndsLine text rest := by
  refine ⟨h.1, ?_⟩
  cases rest with
  | nil => exact .inl rfl
  | cons char tail => exact .inr (h.2.resolve_left (List.cons_ne_nil _ _))

private theorem drop_length_takeWhile (p : Char → Bool) (rest : List Char) :
    rest.drop (rest.takeWhile p).length = rest.dropWhile p := by
  have hdrop := @List.drop_left _ (rest.takeWhile p) (rest.dropWhile p)
  rwa [List.takeWhile_append_dropWhile] at hdrop

/-- The rest of a text behind a comment. -/
private theorem comment_append_rest (rest : List Char) :
    '#' :: rest.takeWhile (· != '\n') ++ rest.drop (rest.takeWhile (· != '\n')).length =
      '#' :: rest := by
  rw [drop_length_takeWhile, List.cons_append, List.takeWhile_append_dropWhile]

private theorem scanned_from (position : Position) (chars read : List Char)
    (lexemes : List Lexeme) : position = behind read → scanFrom position chars = .ok lexemes →
      Scanned read chars lexemes := by
  fun_induction scanFrom position chars generalizing read lexemes with
  | case1 position =>
    rintro rfl ⟨⟩
    exact .done
  | case2 position first rest hblank ih =>
    intro hread h
    exact .gap (.blank hblank) (ih _ lexemes (by rw [hread, Position.after_behind]) h)
  | case3 position rest comment hblank ih =>
    intro hread h
    have hends := endsLine_takeWhile rest
    rw [← drop_length_takeWhile] at hends
    have hrest := ih (read ++ '#' :: comment) lexemes
      (by rw [hread, ← Position.afterAll_cons, Position.afterAll_behind]) h
    rw [← comment_append_rest rest]
    exact .gap (.comment hends) hrest
  | case4 position first rest hblank hcomment cause hnext => rintro _ ⟨⟩
  | case5 position first rest hblank hcomment token extra hnext stop ih =>
    intro hread h
    obtain ⟨text, after, rfl, rfl, hformed, hspelt, hstops⟩ := next_spec hnext
    have hstop : stop = behind (read ++ first :: text) := by
      dsimp only [stop]
      rw [List.take_left, hread, ← Position.afterAll_cons, Position.afterAll_behind]
    cases hrest : scanFrom stop ((text ++ after).drop text.length) with
    | error error =>
      rw [hrest] at h
      cases h
    | ok others =>
      rw [hrest] at h
      cases h
      have hothers := ih (read ++ first :: text) others hstop hrest
      rw [List.drop_left] at hothers
      rw [hread, hstop]
      exact .token hformed hspelt hstops hothers

/-- The lexemes of a text are those that scanning gives. -/
theorem Scanned.scanFrom_eq {read chars : List Char} {lexemes : List Lexeme}
    (h : Scanned read chars lexemes) : scanFrom (behind read) chars = .ok lexemes := by
  induction h with
  | done => rw [scanFrom]
  | @gap read piece rest lexemes hgap _ ih =>
    rw [← Position.afterAll_behind] at ih
    cases hgap with
    | blank hblank =>
      rw [List.singleton_append, scanFrom, if_pos hblank]
      exact ih
    | comment hends =>
      rw [List.cons_append, scanFrom, if_neg (by decide), if_pos rfl]
      simp only [hends.takeWhile, List.drop_left]
      exact ih
  | @token read text rest token lexemes hformed hspelt hstops _ ih =>
    obtain ⟨first, others, rfl, hparts⟩ := hspelt.begins hformed
    obtain ⟨hblank, hcomment⟩ := not_or.1 hparts
    rw [← Position.afterAll_behind] at ih ⊢
    rw [List.cons_append, scanFrom, if_neg hblank, if_neg hcomment, next_eq hformed hspelt hstops]
    simp only [List.take_left, List.drop_left]
    rw [Position.afterAll_cons] at ih ⊢
    rw [ih]
    rfl

private theorem scanned_before (position : Position) (chars read : List Char) (error : ScanError) :
    position = behind read → scanFrom position chars = .error error →
      ∃ before char after lexemes, chars = before ++ char :: after ∧ ¬Parts char ∧
        error.place = (behind (read ++ before)).toPlace ∧ Scanned read before lexemes := by
  fun_induction scanFrom position chars generalizing read error with
  | case1 position => rintro _ ⟨⟩
  | case2 position first rest hblank ih =>
    intro hread h
    obtain ⟨before, char, after, lexemes, rfl, hchar, hplace, hbefore⟩ :=
      ih (read ++ [first]) error (by rw [hread, Position.after_behind]) h
    rw [List.append_assoc] at hplace
    exact ⟨[first] ++ before, char, after, lexemes, rfl, hchar, hplace,
      .gap (.blank hblank) hbefore⟩
  | case3 position rest comment hblank ih =>
    intro hread h
    obtain ⟨before, char, after, lexemes, hrest, hchar, hplace, hbefore⟩ :=
      ih (read ++ '#' :: comment) error
        (by rw [hread, ← Position.afterAll_cons, Position.afterAll_behind]) h
    have hends := endsLine_takeWhile rest
    rw [← drop_length_takeWhile, hrest] at hends
    rw [List.append_assoc] at hplace
    refine ⟨'#' :: comment ++ before, char, after, lexemes, ?_, hchar, hplace,
      .gap (.comment hends.of_append) hbefore⟩
    rw [List.append_assoc, ← hrest, comment_append_rest]
  | case4 position first rest hblank hcomment cause hnext =>
    rintro rfl ⟨⟩
    exact ⟨[], first, rest, _, rfl, not_or.2 ⟨hblank, hcomment⟩, by rw [List.append_nil], .done⟩
  | case5 position first rest hblank hcomment token extra hnext stop ih =>
    intro hread h
    obtain ⟨text, left, rfl, rfl, hformed, hspelt, hstops⟩ := next_spec hnext
    have hstop : stop = behind (read ++ first :: text) := by
      dsimp only [stop]
      rw [List.take_left, hread, ← Position.afterAll_cons, Position.afterAll_behind]
    cases hrest : scanFrom stop ((text ++ left).drop text.length) with
    | error other =>
      rw [hrest] at h
      cases h
      obtain ⟨before, char, after, lexemes, hleft, hchar, hplace, hbefore⟩ :=
        ih (read ++ first :: text) _ hstop hrest
      rw [List.drop_left] at hleft
      rw [List.append_assoc] at hplace
      subst hleft
      exact ⟨first :: text ++ before, char, after, _, by simp, hchar, hplace,
        .token hformed hspelt hstops.of_append hbefore⟩
    | ok others =>
      rw [hrest] at h
      cases h

theorem scanned_of_scan {source : String} {lexemes : List Lexeme}
    (h : scan source = .ok lexemes) : Scanned [] source.toList lexemes :=
  scanned_from {} source.toList [] lexemes rfl h

theorem Scanned.scan_eq {chars : List Char} {lexemes : List Lexeme}
    (h : Scanned [] chars lexemes) : scan (String.ofList chars) = .ok lexemes := by
  rw [scan, String.toList_ofList]
  exact h.scanFrom_eq

/-- Every token of a source is one that a source can hold. -/
theorem Scanned.wellFormed {read chars : List Char} {lexemes : List Lexeme}
    (h : Scanned read chars lexemes) :
    ∀ lexeme ∈ lexemes, lexeme.token = .eof ∨ lexeme.token.WellFormed := by
  induction h with
  | done => simp
  | gap hgap hrest ih => exact ih
  | token hformed hspelt hstops hrest ih =>
    intro lexeme hlexeme
    rcases List.mem_cons.1 hlexeme with rfl | hlexeme
    · exact .inr hformed
    · exact ih lexeme hlexeme

/-- Where scanning breaks off, what comes before can be scanned. -/
theorem scanned_of_error {source : String} {error : ScanError} (h : scan source = .error error) :
    ∃ before after lexemes, source.toList = before ++ after ∧
      error.place = (behind before).toPlace ∧ Scanned [] before lexemes := by
  obtain ⟨before, char, after, lexemes, hchars, -, hplace, hbefore⟩ :=
    scanned_before {} source.toList [] error rfl h
  exact ⟨before, char :: after, lexemes, hchars, hplace, hbefore⟩

/-- Scanning breaks off at a character, and at none that parts tokens. -/
theorem exists_of_scan_error {source : String} {error : ScanError}
    (h : scan source = .error error) :
    ∃ before char after, source.toList = before ++ char :: after ∧ ¬Parts char ∧
      error.place = (behind before).toPlace := by
  obtain ⟨before, char, after, _, hchars, hchar, hplace, -⟩ :=
    scanned_before {} source.toList [] error rfl h
  exact ⟨before, char, after, hchars, hchar, hplace⟩

end Token

end BlockLang
