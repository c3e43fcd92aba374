import BlockLang.Proofs.Token.Scanned

/-! Scanning loses nothing of a source and misplaces nothing. Every token stands where its span
says, in its own spelling, and what lies between the tokens is blanks and comments. -/

namespace BlockLang

namespace Token

open Position (behind)

/-- The lexeme is spelt in the source at the bytes of its span, and the span's place is where
these bytes begin. -/
def Stands (source : String) (lexeme : Lexeme) : Prop :=
  ∃ before text after : String, source = before ++ text ++ after ∧ lexeme.token.Spelt text ∧
    lexeme.span =
      ⟨Place.behind before, before.utf8ByteSize, (before ++ text).utf8ByteSize⟩

/-- A comment takes up the bytes from `start` to `stop`, up to the end of its line. -/
def CommentAt (source : String) (start stop : Nat) : Prop :=
  ∃ before text after : String, source = before ++ ("#" ++ text) ++ after ∧
    EndsLine text.toList after.toList ∧ start = before.utf8ByteSize ∧
    stop = (before ++ ("#" ++ text)).utf8ByteSize

/-- The character at `offset` belongs to a token, or is blank, or belongs to a comment that
starts at `least` or later and meets no token. -/
def Accounted (source : String) (least : Nat) (lexemes : List Lexeme) (char : Char)
    (offset : Nat) : Prop :=
  (∃ lexeme ∈ lexemes, lexeme.span.start ≤ offset ∧ offset < lexeme.span.stop) ∨
  Text.isBlank char = true ∨
  ∃ start stop, CommentAt source start stop ∧ least ≤ start ∧ start ≤ offset ∧ offset < stop ∧
    ∀ lexeme ∈ lexemes, lexeme.span.stop ≤ start ∨ stop ≤ lexeme.span.start

/-- The lexemes tell the whole source. -/
structure Exact (source : String) (lexemes : List Lexeme) : Prop where
  stands : ∀ lexeme ∈ lexemes, Stands source lexeme
  ordered : lexemes.Pairwise fun first second => first.span.stop ≤ second.span.start
  nonempty : ∀ lexeme ∈ lexemes, lexeme.token ≠ .eof → lexeme.span.start < lexeme.span.stop
  accounted : ∀ before char after, source = before ++ String.singleton char ++ after →
    Accounted source 0 lexemes char before.utf8ByteSize
  ended : ∃ body place,
    lexemes = body ++ [⟨.eof, ⟨place, source.utf8ByteSize, source.utf8ByteSize⟩⟩] ∧
      ∀ lexeme ∈ body, lexeme.token ≠ .eof

section

variable {read chars : List Char} {lexemes : List Lexeme}

namespace Scanned

theorem stands (h : Scanned read chars lexemes) :
    ∀ lexeme ∈ lexemes, Stands (String.ofList (read ++ chars)) lexeme := by
  induction h with
  | @done read =>
    intro lexeme hlexeme
    obtain rfl := List.mem_singleton.1 hlexeme
    refine ⟨String.ofList read, "", "", ?_, rfl, ?_⟩
    · simp
    · simp [Position.spanTo, behind]
  | gap hgap hrest ih =>
    rw [← List.append_assoc]
    exact ih
  | @token read text rest token lexemes hformed hspelt hstops hrest ih =>
    rw [← List.append_assoc]
    intro lexeme hlexeme
    rcases List.mem_cons.1 hlexeme with rfl | hlexeme
    · refine ⟨String.ofList read, String.ofList text, String.ofList rest, ?_, hspelt, ?_⟩
      · rw [String.ofList_append, String.ofList_append]
      · simp [Position.spanTo, behind]
    · exact ih lexeme hlexeme

/-- No lexeme starts before the text does. -/
theorem start_le (h : Scanned read chars lexemes) :
    ∀ lexeme ∈ lexemes, (behind read).offset ≤ lexeme.span.start := by
  induction h with
  | done => simp [Position.spanTo]
  | gap hgap hrest ih =>
    intro lexeme hlexeme
    have hle := ih lexeme hlexeme
    rw [Position.offset_behind_append] at hle
    omega
  | token hformed hspelt hstops hrest ih =>
    intro lexeme hlexeme
    rcases List.mem_cons.1 hlexeme with rfl | hlexeme
    · exact Nat.le_refl _
    · have hle := ih lexeme hlexeme
      rw [Position.offset_behind_append] at hle
      omega

theorem ordered (h : Scanned read chars lexemes) :
    lexemes.Pairwise fun first second => first.span.stop ≤ second.span.start := by
  induction h with
  | done => exact List.pairwise_singleton _ _
  | gap hgap hrest ih => exact ih
  | token hformed hspelt hstops hrest ih => exact List.pairwise_cons.2 ⟨hrest.start_le, ih⟩

theorem nonempty (h : Scanned read chars lexemes) :
    ∀ lexeme ∈ lexemes, lexeme.token ≠ .eof → lexeme.span.start < lexeme.span.stop := by
  induction h with
  | done => simp
  | gap hgap hrest ih => exact ih
  | @token read text rest token lexemes hformed hspelt hstops hrest ih =>
    intro lexeme hlexeme
    rcases List.mem_cons.1 hlexeme with rfl | hlexeme
    · intro _
      obtain ⟨first, others, rfl, -⟩ := hspelt.begins hformed
      have hpos := Position.offset_behind_pos (List.cons_ne_nil first others)
      simp only [Position.spanTo, Position.offset_behind_append]
      omega
    · exact ih lexeme hlexeme

theorem ended (h : Scanned read chars lexemes) :
    ∃ body, lexemes =
        body ++ [⟨.eof, (behind (read ++ chars)).spanTo (behind (read ++ chars))⟩] ∧
      ∀ lexeme ∈ body, lexeme.token ≠ .eof := by
  induction h with
  | done => exact ⟨[], by simp, by simp⟩
  | gap hgap hrest ih =>
    rw [← List.append_assoc]
    exact ih
  | token hformed hspelt hstops hrest ih =>
    obtain ⟨body, rfl, hbody⟩ := ih
    rw [← List.append_assoc]
    refine ⟨_ :: body, rfl, ?_⟩
    intro lexeme hlexeme
    rcases List.mem_cons.1 hlexeme with rfl | hlexeme
    · rintro rfl
      exact hformed
    · exact hbody lexeme hlexeme

end Scanned

/-- A character of two joined texts stands in the first or in the second. -/
private theorem inside_or_behind {piece rest left right : List Char} {char : Char}
    (h : piece ++ rest = left ++ char :: right) :
    (∃ others, piece = left ++ char :: others) ∨
      ∃ others, left = piece ++ others ∧ rest = others ++ char :: right := by
  rcases List.append_eq_append_iff.1 h with ⟨others, hleft, hrest⟩ | ⟨others, hpiece, hright⟩
  · exact .inr ⟨others, hleft, hrest⟩
  · cases others with
    | nil => exact .inr ⟨[], by simpa using hpiece.symm, hright.symm⟩
    | cons first others =>
      obtain ⟨rfl, -⟩ := List.cons.inj hright
      exact .inl ⟨others, hpiece⟩

private theorem offset_inside (read left others : List Char) (char : Char) :
    (behind read).offset ≤ (behind (read ++ left)).offset ∧
      (behind (read ++ left)).offset < (behind (read ++ (left ++ char :: others))).offset := by
  have hpos := Position.offset_behind_pos (List.cons_ne_nil char others)
  simp only [Position.offset_behind_append]
  omega

/-- A token in front of everything meets no comment behind it. -/
private theorem Accounted.cons {source : String} {least offset : Nat} {char : Char}
    {lexeme : Lexeme} (h : Accounted source lexeme.span.stop lexemes char offset)
    (hleast : least ≤ lexeme.span.stop) :
    Accounted source least (lexeme :: lexemes) char offset := by
  rcases h with ⟨other, hother, hcovers⟩ | hblank | ⟨start, stop, hcomment, hle, hfrom, hto, hall⟩
  · exact .inl ⟨other, List.mem_cons_of_mem _ hother, hcovers⟩
  · exact .inr (.inl hblank)
  · refine .inr (.inr ⟨start, stop, hcomment, by omega, hfrom, hto, ?_⟩)
    intro other hother
    rcases List.mem_cons.1 hother with rfl | hother
    · exact .inl hle
    · exact hall other hother

private theorem Accounted.mono {source : String} {least lower offset : Nat} {char : Char}
    (h : Accounted source least lexemes char offset) (hle : lower ≤ least) :
    Accounted source lower lexemes char offset := by
  rcases h with hcovers | hblank | ⟨start, stop, hcomment, hleast, hrest⟩
  · exact .inl hcovers
  · exact .inr (.inl hblank)
  · exact .inr (.inr ⟨start, stop, hcomment, Nat.le_trans hle hleast, hrest⟩)

/-- A character of a piece that is passed over. -/
private theorem accounted_of_gap {piece rest left others : List Char} {char : Char}
    (hgap : Gap piece rest) (hrest : Scanned (read ++ piece) rest lexemes)
    (hpiece : piece = left ++ char :: others) :
    Accounted (String.ofList (read ++ (piece ++ rest))) (behind read).offset lexemes char
      (behind (read ++ left)).offset := by
  cases hgap with
  | blank hblank =>
    obtain ⟨rfl, rfl⟩ : left = [] ∧ char = _ := by
      cases left with
      | nil => exact ⟨rfl, (List.cons.inj hpiece).1.symm⟩
      | cons first others => simp at hpiece
    exact .inr (.inl hblank)
  | @comment text _ hends =>
    have hinside := offset_inside read left others char
    rw [← hpiece] at hinside
    have hcomment : String.ofList (read ++ '#' :: text) =
        String.ofList read ++ ("#" ++ String.ofList text) := by
      apply String.toList_inj.1
      simp
    refine .inr (.inr ⟨_, _, ⟨String.ofList read, String.ofList text, String.ofList rest, ?_, ?_,
      rfl, congrArg String.utf8ByteSize hcomment⟩, Nat.le_refl _, hinside.1, hinside.2, ?_⟩)
    · rw [← hcomment, ← String.ofList_append, List.append_assoc]
    · simpa using hends
    · intro lexeme hlexeme
      exact .inr (hrest.start_le lexeme hlexeme)

theorem Scanned.accounted (h : Scanned read chars lexemes) {left right : List Char} {char : Char}
    (hchars : chars = left ++ char :: right) :
    Accounted (String.ofList (read ++ chars)) (behind read).offset lexemes char
      (behind (read ++ left)).offset := by
  induction h generalizing left right with
  | done => simp at hchars
  | @gap read piece rest lexemes hgap hrest ih =>
    rcases inside_or_behind hchars with ⟨others, hpiece⟩ | ⟨others, rfl, hothers⟩
    · exact accounted_of_gap hgap hrest hpiece
    · have hbehind := ih hothers
      rw [List.append_assoc, List.append_assoc] at hbehind
      apply hbehind.mono
      rw [Position.offset_behind_append]
      omega
  | @token read text rest token lexemes hformed hspelt hstops hrest ih =>
    rcases inside_or_behind hchars with ⟨others, rfl⟩ | ⟨others, rfl, hothers⟩
    · exact .inl ⟨_, List.mem_cons_self, offset_inside read left others char⟩
    · have hbehind := ih hothers
      rw [List.append_assoc, List.append_assoc] at hbehind
      apply Accounted.cons hbehind
      simp only [Position.spanTo, Position.offset_behind_append]
      omega

end

end Token

open Token

/-- Scanning a source gives lexemes that tell the whole source, or names the place behind a
part of it that can be scanned. -/
theorem scan_lossless (source : String) :
    match scan source with
    | .ok lexemes => Exact source lexemes
    | .error error => ∃ before after : String, source = before ++ after ∧
        error.place = Place.behind before ∧ ∃ lexemes, scan before = .ok lexemes := by
  cases hscan : scan source with
  | ok lexemes =>
    have h := scanned_of_scan hscan
    have hsource : String.ofList ([] ++ source.toList) = source := by simp
    obtain ⟨body, hbody, hends⟩ := h.ended
    refine ⟨?_, h.ordered, h.nonempty, ?_, body, Place.behind source, ?_, hends⟩
    · have hstands := h.stands
      rwa [hsource] at hstands
    · rintro before char after hsplit
      have hchars : source.toList = before.toList ++ char :: after.toList := by
        rw [hsplit]
        simp
      have haccounted := h.accounted hchars
      rw [hsource] at haccounted
      simpa [Position.behind] using haccounted
    · rw [hbody]
      simp [Position.spanTo, Position.behind]
  | error error =>
    obtain ⟨before, after, lexemes, hsplit, hplace, hbefore⟩ := scanned_of_error hscan
    refine ⟨String.ofList before, String.ofList after, ?_, hplace, lexemes, hbefore.scan_eq⟩
    apply String.toList_inj.1
    simpa using hsplit

end BlockLang
