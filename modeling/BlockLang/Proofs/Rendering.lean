import BlockLang.Proofs.Token.Scanned

/-! Scanning undoes spelling. Tokens may be spelt out with any separators between them, and
are read back as they were. -/

namespace BlockLang

namespace Token

/-- What may stand between tokens: blanks, and comments that are closed by a line feed. -/
inductive Separator : List Char → Prop
  | none : Separator []
  | blank {char : Char} {rest : List Char} (hblank : Text.isBlank char = true)
    (hrest : Separator rest) : Separator (char :: rest)
  | comment {text rest : List Char} (hline : '\n' ∉ text) (hrest : Separator rest) :
    Separator ('#' :: text ++ '\n' :: rest)

/-- The tokens, each in one of its spellings. Neighbours are kept apart by a separator that is
not empty, and a separator may come last. -/
inductive Written : List Token → List Char → Prop
  | none : Written [] []
  | last {token : Token} {text after : List Char} (hspelt : token.Spelt (String.ofList text))
    (hafter : Separator after) : Written [token] (text ++ after)
  | more {token : Token} {tokens : List Token} {text between rest : List Char}
    (hspelt : token.Spelt (String.ofList text)) (hbetween : Separator between)
    (hparted : between ≠ []) (hrest : Written tokens rest) :
    Written (token :: tokens) (text ++ (between ++ rest))

/-- A source in which the tokens are written, with any separator in front. -/
def Rendered (tokens : List Token) (source : String) : Prop :=
  ∃ before chars, source.toList = before ++ chars ∧ Separator before ∧ Written tokens chars

variable {read chars between rest : List Char} {lexemes : List Lexeme}

/-- A separator is passed over. -/
theorem Separator.scanned (h : Separator between) (hrest : Scanned (read ++ between) rest lexemes) :
    Scanned read (between ++ rest) lexemes := by
  induction h generalizing read with
  | none => simpa using hrest
  | @blank char others hblank _ ih =>
    have hbehind : Scanned (read ++ [char]) (others ++ rest) lexemes := by
      apply ih
      simpa using hrest
    rw [List.cons_append]
    exact .gap (.blank hblank) hbehind
  | @comment text others hline _ ih =>
    have hbehind : Scanned (read ++ '#' :: text ++ ['\n']) (others ++ rest) lexemes := by
      apply ih
      simpa using hrest
    have hfeed : Scanned (read ++ '#' :: text) ('\n' :: (others ++ rest)) lexemes :=
      .gap (.blank (by decide)) hbehind
    rw [List.append_assoc]
    exact .gap (.comment ⟨hline, .inr rfl⟩) hfeed

/-- No token goes on in a separator, nor at the end of the text. -/
theorem Separator.stops (h : Separator between) (token : Token) (hrest : between ≠ [] ∨ rest = []) :
    token.Stops (between ++ rest) := by
  intro char hchar
  cases h with
  | none =>
    obtain rfl := hrest.resolve_left (· rfl)
    cases hchar
  | blank hblank _ =>
    obtain rfl := Option.some.inj hchar
    exact goesOn_of_parts token (.inl hblank)
  | comment hline _ =>
    obtain rfl := Option.some.inj hchar
    exact goesOn_of_parts token (.inr rfl)

/-- Tokens that are written somewhere are found there. -/
theorem Written.scanned {tokens : List Token} (h : Written tokens chars)
    (hformed : ∀ token ∈ tokens, token.WellFormed) (read : List Char) :
    ∃ lexemes, Scanned read chars lexemes ∧ lexemes.map Lexeme.token = tokens ++ [.eof] := by
  induction h generalizing read with
  | none => exact ⟨_, .done, rfl⟩
  | @last token text after hspelt hafter =>
    have hdone := hafter.scanned (@Scanned.done (read ++ text ++ after))
    have hstops := hafter.stops token (.inr rfl)
    rw [List.append_nil] at hdone hstops
    exact ⟨_, .token (hformed token List.mem_cons_self) hspelt hstops hdone, rfl⟩
  | @more token tokens text between rest hspelt hbetween hparted hrest ih =>
    obtain ⟨lexemes, hlexemes, htokens⟩ :=
      ih (fun other hother => hformed other (List.mem_cons_of_mem _ hother))
        (read ++ text ++ between)
    refine ⟨_, .token (hformed token List.mem_cons_self) hspelt
      (hbetween.stops token (.inl hparted)) (hbetween.scanned hlexemes), ?_⟩
    rw [List.map_cons, htokens, List.cons_append]

end Token

open Token

/-- A source in which well-formed tokens are written is scanned into these tokens, and only
well-formed tokens are ever found. -/
theorem scan_undoes_spelling :
    (∀ (tokens : List Token) (source : String), (∀ token ∈ tokens, token.WellFormed) →
      Rendered tokens source →
        ∃ lexemes, scan source = .ok lexemes ∧ lexemes.map Lexeme.token = tokens ++ [.eof]) ∧
    ∀ (source : String) (lexemes : List Lexeme), scan source = .ok lexemes →
      ∀ lexeme ∈ lexemes, lexeme.token = .eof ∨ lexeme.token.WellFormed := by
  refine ⟨?_, fun source lexemes h => (scanned_of_scan h).wellFormed⟩
  rintro tokens source hformed ⟨before, chars, hsource, hbefore, hwritten⟩
  obtain ⟨lexemes, hlexemes, htokens⟩ := hwritten.scanned hformed ([] ++ before)
  have hscan := (hbefore.scanned hlexemes).scan_eq
  rw [← hsource, String.ofList_toList] at hscan
  exact ⟨lexemes, hscan, htokens⟩

/-- Signs that could be longer, a comment right behind a number, and a quoted comment sign. -/
theorem closePacked_found :
    ∃ lexemes, scan "#\"\n wHiLe x_1 < 0x1F#=\n<> \"a # b\"\t" = .ok lexemes ∧
      lexemes.map Lexeme.token = [.keyword .while_, .identifier "x_1", .sign .less,
        .number "0x1F", .sign .notEqual, .string "a # b", .eof] := by
  have hspace : Separator [' '] := .blank (by decide) .none
  have hcomment : Separator ('#' :: ['='] ++ ['\n']) := .comment (by decide) .none
  have hwritten : Written [.keyword .while_, .identifier "x_1", .sign .less, .number "0x1F",
      .sign .notEqual, .string "a # b"]
      ("wHiLe".toList ++ ([' '] ++ ("x_1".toList ++ ([' '] ++ ("<".toList ++ ([' '] ++
        ("0x1F".toList ++ (('#' :: ['='] ++ ['\n']) ++ ("<>".toList ++ ([' '] ++
          ("\"a # b\"".toList ++ ['\t']))))))))))) :=
    .more (by decide +kernel) hspace (by simp) <| .more (by decide +kernel) hspace (by simp) <|
    .more (by decide +kernel) hspace (by simp) <| .more (by decide +kernel) hcomment (by simp) <|
    .more (by decide +kernel) hspace (by simp) <|
    .last (by decide +kernel) (.blank (by decide) .none)
  have hbefore : Separator ('#' :: ['"'] ++ '\n' :: [' ']) := .comment (by decide) hspace
  exact scan_undoes_spelling.1 _ _ (by decide +kernel)
    ⟨_, _, by decide +kernel, hbefore, hwritten⟩

end BlockLang
