import BlockLang.Proofs.Token.Scanned

/-! A text is scanned piece by piece. The tokens of a piece do not depend on what was
read before it, and those of a piece that no token can go on after do not depend on
what follows. -/

namespace BlockLang.Token

/-- The tokens that are scanned of a text, whatever comes before it. -/
def Pieces (chars : List Char) (tokens : List Token) : Prop :=
  ∀ read, ∃ lexemes, Scanned read chars lexemes ∧ lexemes.map Lexeme.token = tokens

variable {chars rest : List Char} {tokens others : List Token}

theorem Scanned.pieces {read : List Char} {lexemes : List Lexeme}
    (h : Scanned read chars lexemes) : Pieces chars (lexemes.map Lexeme.token) := by
  induction h with
  | done => exact fun read => ⟨_, .done, rfl⟩
  | @gap _ piece _ _ hgap _ ih =>
    intro read
    obtain ⟨lexemes, hrest, htokens⟩ := ih (read ++ piece)
    exact ⟨lexemes, .gap hgap hrest, htokens⟩
  | @token _ text _ token _ hformed hspelt hstops _ ih =>
    intro read
    obtain ⟨lexemes, hrest, htokens⟩ := ih (read ++ text)
    refine ⟨_, .token hformed hspelt hstops hrest, ?_⟩
    rw [List.map_cons, List.map_cons, htokens]

theorem Pieces.scan {source : String} (h : Pieces source.toList tokens) :
    ∃ lexemes, scan source = .ok lexemes ∧ lexemes.map Lexeme.token = tokens := by
  obtain ⟨lexemes, hlexemes, htokens⟩ := h []
  have hscan := hlexemes.scan_eq
  rw [String.ofList_toList] at hscan
  exact ⟨lexemes, hscan, htokens⟩

theorem Pieces.token {token : Token} {text : List Char} (hformed : token.WellFormed)
    (hspelt : token.Spelt (String.ofList text)) (hstops : token.Stops rest)
    (hrest : Pieces rest tokens) : Pieces (text ++ rest) (token :: tokens) := by
  intro read
  obtain ⟨lexemes, hlexemes, htokens⟩ := hrest (read ++ text)
  exact ⟨_, .token hformed hspelt hstops hlexemes, congrArg (token :: ·) htokens⟩

theorem Pieces.blank {char : Char} (hblank : Text.isBlank char = true)
    (hrest : Pieces rest tokens) : Pieces (char :: rest) tokens := by
  intro read
  obtain ⟨lexemes, hlexemes, htokens⟩ := hrest (read ++ [char])
  exact ⟨lexemes, .gap (.blank hblank) hlexemes, htokens⟩

theorem Scanned.ne_nil {read : List Char} {lexemes : List Lexeme}
    (h : Scanned read chars lexemes) : lexemes ≠ [] := by
  induction h with
  | done => exact List.cons_ne_nil _ _
  | gap _ _ ih => exact ih
  | token _ _ _ _ _ => exact List.cons_ne_nil _ _

/-- A text without comments, and behind it one that no token goes on in. -/
theorem Scanned.append {read : List Char} {lexemes more : List Lexeme}
    (h : Scanned read chars lexemes) (hplain : '#' ∉ chars)
    (hparted : ∀ token : Token, token.Stops rest) (hrest : Scanned (read ++ chars) rest more) :
    Scanned read (chars ++ rest) (lexemes.dropLast ++ more) := by
  induction h with
  | done => simpa using hrest
  | @gap read piece others lexemes hgap hothers ih =>
    cases hgap with
    | blank hblank =>
      have hbehind := ih (fun hmem => hplain (List.mem_cons_of_mem _ hmem)) (by simpa using hrest)
      rw [List.append_assoc]
      exact .gap (.blank hblank) hbehind
    | comment _ => exact absurd List.mem_cons_self hplain
  | @token read text others token lexemes hformed hspelt hstops hothers ih =>
    have hbehind := ih (fun hmem => hplain (List.mem_append_right _ hmem))
      (by simpa using hrest)
    have hlast : lexemes ≠ [] := hothers.ne_nil
    rw [List.append_assoc, List.dropLast_cons_of_ne_nil hlast]
    refine .token hformed hspelt ?_ hbehind
    cases others with
    | nil => exact hparted token
    | cons first _ => exact hstops

theorem Pieces.append (h : Pieces chars (tokens ++ [.eof])) (hplain : '#' ∉ chars)
    (hparted : ∀ token : Token, token.Stops rest) (hrest : Pieces rest others) :
    Pieces (chars ++ rest) (tokens ++ others) := by
  intro read
  obtain ⟨lexemes, hlexemes, htokens⟩ := h read
  obtain ⟨more, hmore, hothers⟩ := hrest (read ++ chars)
  refine ⟨_, hlexemes.append hplain hparted hmore, ?_⟩
  rw [List.map_append, List.map_dropLast, htokens, hothers, List.dropLast_concat]

/-- What cannot be scanned behind such a text cannot be scanned with it either. -/
theorem Scanned.append_error {read : List Char} {lexemes : List Lexeme} {error : ScanError}
    (h : Scanned read chars lexemes) (hplain : '#' ∉ chars)
    (hparted : ∀ token : Token, token.Stops rest)
    (hrest : scanFrom (.behind (read ++ chars)) rest = .error error) :
    scanFrom (.behind read) (chars ++ rest) = .error error := by
  induction h with
  | done => simpa using hrest
  | @gap read piece others lexemes hgap hothers ih =>
    cases hgap with
    | @blank char _ hblank =>
      have hbehind := ih (fun hmem => hplain (List.mem_cons_of_mem _ hmem)) (by simpa using hrest)
      rw [List.append_assoc, List.singleton_append, scanFrom, if_pos hblank,
        Position.after_behind]
      exact hbehind
    | comment _ => exact absurd List.mem_cons_self hplain
  | @token read text others token lexemes hformed hspelt hstops hothers ih =>
    have hbehind := ih (fun hmem => hplain (List.mem_append_right _ hmem))
      (by simpa using hrest)
    have hstops' : token.Stops (others ++ rest) := by
      cases others with
      | nil => exact hparted token
      | cons first _ => exact hstops
    obtain ⟨first, tail, rfl, hparts⟩ := hspelt.begins hformed
    obtain ⟨hblank, hcomment⟩ := not_or.1 hparts
    rw [List.append_assoc, List.cons_append, scanFrom, if_neg hblank, if_neg hcomment,
      next_eq hformed hspelt hstops']
    simp only [List.take_left, List.drop_left]
    rw [← Position.afterAll_cons, Position.afterAll_behind, hbehind]
    rfl

/-- The tokens of a given text. -/
theorem pieces_of_scan {source : String}
    (h : (Token.scan source).map (List.map Lexeme.token) = .ok tokens) :
    Pieces source.toList tokens := by
  cases hscan : Token.scan source with
  | error error =>
    rw [hscan] at h
    cases h
  | ok lexemes =>
    rw [hscan] at h
    cases h
    exact (scanned_of_scan hscan).pieces

end BlockLang.Token
