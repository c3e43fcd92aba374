import BlockLang.Proofs.Checking
import BlockLang.Proofs.Pointing
import BlockLang.Proofs.Positions
import BlockLang.Proofs.Refusal
import BlockLang.Proofs.Text.Lines
import BlockLang.Report

/-! Errors are shown with the line they are about and a caret under the first character that is
at fault. At the end of the input the caret stands behind the line, unless the line is empty. -/

namespace BlockLang

open BlockLang.Compiler BlockLang.Grammar

/-- The token is read off the source right behind `before`. -/
structure Token.StandsBehind (source : String) (lexeme : Lexeme) (before text : String) : Prop where
  within : ∃ after, source = before ++ text ++ after
  spelt : lexeme.token.Spelt text
  place : lexeme.span.toPlace = .behind before

/-- What an error is about, and what was read before it: a token with which no program goes on, a
name, or the character at which scanning breaks off. -/
inductive Error.About (source : String) : Error → String → String → Prop
  | token {location : Location} {message before text : String} {earlier later : List Lexeme}
    {lexeme : Lexeme} (hscan : Token.scan source = .ok (earlier ++ lexeme :: later))
    (hviable : Viable (earlier.map Lexeme.token))
    (hrefused : ¬Viable ((earlier ++ [lexeme]).map Lexeme.token))
    (hstands : Token.StandsBehind source lexeme before text) :
    About source (.malformed location message) before text
  | name {error : Error} {before name : String} {lexemes : List Lexeme} {span : Span}
    (hscan : Token.scan source = .ok lexemes) (hmem : ⟨.identifier name, span⟩ ∈ lexemes)
    (hname : error.name? = some name)
    (hstands : Token.StandsBehind source ⟨.identifier name, span⟩ before name) :
    About source error before name
  | character {location : Location} {before after : String} {char : Char} {cause : Token.ScanCause}
    (hscan : Token.scan source = .error ⟨.behind before, cause⟩)
    (hsource : source = before ++ char.toString ++ after) :
    About source (.unreadable location cause.message) before char.toString

/-- A line below the message, and below the line a caret under one of its columns. -/
def pointed (line : String) (column : Nat) : String :=
  "\n  " ++ line ++ "\n  " ++ String.ofList (List.replicate (column - 1) ' ') ++ "^"

section

variable {source before : String} {location : Location}

theorem Error.report_of_location {error : Error} (h : error.location? = some location) :
    error.report (some source) = "error: " ++ error.message ++ location.excerpt source := by
  unfold Error.report
  rw [h]

theorem Token.ne_of_not_parts {char : Char} (h : ¬Parts char) : char ≠ '\n' ∧ char ≠ '\r' := by
  constructor
  · rintro rfl
    exact h (.inl (by decide))
  · rintro rfl
    exact h (.inl (by decide))

theorem column_behind (before : String) :
    (Place.behind before).column - 1 = (Text.lastLine before.toList).length := by
  simp [Place.behind, Text.lastLine]

theorem line_behind (before : String) :
    (Place.behind before).line - 1 = before.toList.count '\n' := by
  simp [Place.behind]

/-- The excerpt of a place before a character. -/
theorem exists_excerpt {char : Char} {after : List Char} (hchar : ¬Token.Parts char)
    (hsource : source.toList = before.toList ++ char :: after)
    (hplace : location.toPlace = .behind before) :
    ∃ line : String, Text.LineAt source.toList location.line line.toList ∧
      line.toList[location.column - 1]? = some char ∧
      location.excerpt source = pointed line location.column := by
  obtain ⟨hfeed, hreturn⟩ := Token.ne_of_not_parts hchar
  obtain ⟨line, hline, hsplit, hat⟩ := Text.exists_lineAt hfeed hreturn before.toList after
  have hlines : (Text.lines source)[location.line - 1]? = some (String.ofList line) := by
    rw [Text.lines, List.getElem?_map, hplace, line_behind, hsource, hsplit]
    rfl
  refine ⟨String.ofList line, ?_, ?_, ?_⟩
  · rw [hsource, String.toList_ofList, hplace]
    exact hline
  · rw [String.toList_ofList, hplace, column_behind]
    exact hat
  · unfold Location.excerpt
    rw [hlines]
    rfl

/-- The excerpt of the place behind the whole source. An empty last line is not shown. -/
theorem exists_excerpt_end (hplace : location.toPlace = .behind source) :
    ∃ line : String, Text.LineAt source.toList location.line line.toList ∧
      location.column - 1 = line.toList.length ∧
      location.excerpt source = if line = "" then "" else pointed line location.column := by
  obtain ⟨hline, hsplit⟩ := Text.lineAt_lastLine source.toList
  have hlines : (Text.lines source)[location.line - 1]? =
      if String.ofList (Text.lastLine source.toList) = "" then none
      else some (String.ofList (Text.lastLine source.toList)) := by
    rw [Text.lines, List.getElem?_map, hplace, line_behind, hsplit]
    simp only [String.ofList_eq_empty_iff]
    split <;> rfl
  refine ⟨String.ofList (Text.lastLine source.toList), ?_, ?_, ?_⟩
  · rw [String.toList_ofList, hplace]
    exact hline
  · rw [String.toList_ofList, hplace, column_behind]
  · unfold Location.excerpt
    rw [hlines]
    by_cases hempty : String.ofList (Text.lastLine source.toList) = ""
    · rw [if_pos hempty, if_pos hempty]
    · rw [if_neg hempty, if_neg hempty]
      rfl

end

/-- What is at fault begins with a character behind `before`, or is the end of the source. -/
def Begins (source before text : String) : Prop :=
  (text = "" ∧ before = source) ∨ ∃ first others after, text.toList = first :: others ∧
    ¬Token.Parts first ∧ source = before ++ text ++ after

theorem exists_standsBehind {source : String} {lexemes : List Lexeme} {lexeme : Lexeme}
    (hscan : Token.scan source = .ok lexemes) (hmem : lexeme ∈ lexemes) :
    ∃ before text, Token.StandsBehind source lexeme before text ∧ Begins source before text := by
  have hscanned := Token.scanned_of_scan hscan
  rcases hscanned.wellFormed lexeme hmem with heof | hformed
  · obtain ⟨body, hlexemes, hbody⟩ := hscanned.ended
    rw [hlexemes] at hmem
    have hlast := (List.mem_append.1 hmem).resolve_left fun hlexeme => hbody lexeme hlexeme heof
    obtain rfl := List.mem_singleton.1 hlast
    refine ⟨source, "", ⟨⟨"", by simp⟩, rfl, ?_⟩, .inl ⟨rfl, rfl⟩⟩
    simp [Position.spanTo, Position.behind]
  · obtain ⟨before, text, after, hsource, hspelt, hspan⟩ := hscanned.stands lexeme hmem
    rw [List.nil_append, String.ofList_toList] at hsource
    have hchars : lexeme.token.Spelt (String.ofList text.toList) := by
      rwa [String.ofList_toList]
    obtain ⟨first, others, htext, hfirst⟩ := hchars.begins hformed
    refine ⟨before, text, ⟨⟨after, hsource⟩, hspelt, by rw [hspan]⟩, .inr ?_⟩
    exact ⟨first, others, after, htext, hfirst, hsource⟩

/-- A unit that cannot be scanned. -/
theorem exists_about_of_scan_error {source : String} {scanError : Token.ScanError}
    (hscan : Token.scan source = .error scanError) (location : Location) :
    ∃ before text, (Error.unreadable location scanError.cause.message).About source before text ∧
      scanError.place = .behind before ∧ Begins source before text := by
  obtain ⟨before, char, after, hsource, hchar, hplace⟩ := Token.exists_of_scan_error hscan
  have hbehind : scanError.place = .behind (String.ofList before) := hplace
  have hsource' : source = String.ofList before ++ char.toString ++ String.ofList after := by
    apply String.toList_inj.1
    simp [hsource]
  refine ⟨String.ofList before, char.toString, ?_, hbehind,
    .inr ⟨char, [], String.ofList after, by simp, hchar, hsource'⟩⟩
  obtain ⟨place, cause⟩ := scanError
  subst hbehind
  exact .character hscan hsource'

theorem Lexeme.eq_of_ident? {lexeme : Lexeme} {ident : Tree.Ident}
    (h : lexeme.ident? = some ident) :
    lexeme.token = .identifier ident.name ∧ lexeme.span.toPlace = ident.place := by
  unfold Lexeme.ident? at h
  split at h
  next name htoken =>
    cases h
    exact ⟨htoken, rfl⟩
  next => cases h

/-- A unit with an error in its tokens or its names. -/
theorem exists_about_of_takeUnitOf {file source : String} {lexemes : List Lexeme} {error : Error}
    {session : Session} {location : Location} (hscan : Token.scan source = .ok lexemes)
    (h : takeUnitOf lexemes (.start file) = .error (.error error) session)
    (hlocation : error.location? = some location) :
    ∃ before text, error.About source before text ∧ location.toPlace = .behind before ∧
      Begins source before text := by
  have hstarted := (Session.shows_start file).told
    (show ∀ fault, Log.Entry.enter (.unit file) ≠ .event (.cursorAstray fault) by simp)
  have hrun := takeTokens_of_takeUnitOf h
  have hnamed {name : String} (hname : error.name? = some name) :
      ∃ before text, error.About source before text ∧ location.toPlace = .behind before ∧
        Begins source before text := by
    have hreached : ((Session.start file).told (.enter (.unit file))).Reached file :=
      .step .start (.tell (.enter (.unit file)))
    obtain ⟨ident, hident, hplace, hfaulty⟩ := faulty_takeTokens hstarted hreached hrun hname
    obtain ⟨⟨token, span⟩, hmem, hlexeme⟩ := List.mem_filterMap.1 hident
    obtain ⟨rfl, hspan⟩ := Lexeme.eq_of_ident? hlexeme
    obtain ⟨before, text, hstands, hbegins⟩ := exists_standsBehind hscan hmem
    obtain rfl : text = ident.name := hstands.spelt
    refine ⟨before, ident.name, .name hscan hmem hfaulty.name?_eq hstands, ?_, hbegins⟩
    have hsame : location = session.location :=
      Option.some.inj (hlocation.symm.trans hfaulty.location?_eq)
    rw [hsame, hplace, ← hstands.place]
    exact hspan.symm
  cases error with
  | malformed _ message =>
    obtain rfl := Option.some.inj hlocation
    obtain ⟨tokens, span, rfl, -, hreadable⟩ := Token.scan_readable hscan
    obtain ⟨earlier, lexeme, later, hsplit, hplace, hviable, hrefused⟩ :=
      refused_takeTokens hreadable hrun
    rw [hsplit] at hscan
    obtain ⟨before, text, hstands, hbegins⟩ :=
      exists_standsBehind hscan (List.mem_append_right _ List.mem_cons_self)
    exact ⟨before, text, .token hscan hviable hrefused hstands, hplace.trans hstands.place, hbegins⟩
  | unreadable _ _ =>
    have hsettles := settles_takeTokens lexemes hstarted.sees.sound
    unfold Settles Ends at hsettles
    rw [hrun] at hsettles
    cases hsettles.1
  | duplicate _ name | unresolved _ name => exact hnamed rfl
  | wrongKind _ name _ _ => exact hnamed rfl
  | notNumeric _ name _ => exact hnamed rfl
  | rejected _ _ | internal _ | inaccessible _ _ => cases hlocation

/-- Whatever a unit that fails with a location is about, the location is where this begins. -/
theorem exists_about {file source : String} {error : Error} {session : Session}
    {location : Location} (h : readUnit file source = .error (.error error) session)
    (hlocation : error.location? = some location) :
    ∃ before text, error.About source before text ∧ location.toPlace = .behind before ∧
      Begins source before text := by
  cases hscan : Token.scan source with
  | error scanError =>
    rw [readUnit_unreadable hscan] at h
    cases h
    cases hlocation
    exact exists_about_of_scan_error hscan _
  | ok lexemes =>
    unfold readUnit at h
    rw [takeUnit_eq hscan] at h
    exact exists_about_of_takeUnitOf hscan h hlocation

theorem readUnit_of_outcome_error {file source : String} {scrutiny : Scrutiny} {failure : Failure}
    (h : outcome (compile file source scrutiny) = .error failure) :
    ∃ session, readUnit file source = .error failure session := by
  rw [outcome_compile] at h
  cases hread : readUnit file source with
  | ok value session =>
    rw [hread] at h
    cases h
  | error other session =>
    rw [hread] at h
    cases h
    exact ⟨session, rfl⟩

/-- An error with a location is shown with the line of the location and a caret. The caret stands
under the first character of what the error is about, or behind the line at the end of the
source. Only if the source ends there with an empty line, the message is shown alone. -/
theorem compile_points {file source : String} {scrutiny : Scrutiny} {error : Error}
    {location : Location} (h : outcome (compile file source scrutiny) = .error (.error error))
    (hlocation : error.location? = some location) :
    ∃ before text line : String, error.About source before text ∧
      location.toPlace = .behind before ∧ Text.LineAt source.toList location.line line.toList ∧
      (text = "" → before = source ∧ location.column - 1 = line.toList.length) ∧
      (text ≠ "" → location.column - 1 < line.toList.length ∧
        line.toList[location.column - 1]? = text.toList.head?) ∧
      error.report (some source) = "error: " ++ error.message ++
        if text = "" ∧ line = "" then "" else pointed line location.column := by
  obtain ⟨session, hread⟩ := readUnit_of_outcome_error h
  obtain ⟨before, text, habout, hplace, hbegins⟩ := exists_about hread hlocation
  rw [error.report_of_location hlocation]
  rcases hbegins with ⟨rfl, rfl⟩ | ⟨first, others, after, htext, hfirst, hsource⟩
  · obtain ⟨line, hline, hcolumn, hexcerpt⟩ := exists_excerpt_end hplace
    refine ⟨before, "", line, habout, hplace, hline, fun _ => ⟨rfl, hcolumn⟩,
      fun hne => (hne rfl).elim, ?_⟩
    rw [hexcerpt]
    simp only [true_and]
  · have hchars : source.toList = before.toList ++ first :: (others ++ after.toList) := by
      simp [hsource, htext]
    have hne : text ≠ "" := by
      rintro rfl
      cases htext
    obtain ⟨line, hline, hat, hexcerpt⟩ := exists_excerpt hfirst hchars hplace
    refine ⟨before, text, line, habout, hplace, hline, fun hempty => (hne hempty).elim,
      fun _ => ⟨(List.getElem?_eq_some_iff.1 hat).1, ?_⟩, ?_⟩
    · rw [hat, htext]
      rfl
    · rw [hexcerpt, if_neg fun hempty => hne hempty.1]

/-- The second line is ended by a carriage return as well. -/
def astray : String := "PROCEDURE P;\r\nBEGIN X := 1\r\nEND."

theorem astray_pointed :
    outcome (compile "unit" astray .all) =
        .error (.error (.unresolved ⟨⟨2, 7⟩, "unit"⟩ "X")) ∧
      ∃ before text line : String,
        (Error.unresolved ⟨⟨2, 7⟩, "unit"⟩ "X").About astray before text ∧
        Text.LineAt astray.toList 2 line.toList ∧
        (text ≠ "" → line.toList[6]? = text.toList.head?) ∧
        (Error.unresolved ⟨⟨2, 7⟩, "unit"⟩ "X").report (some astray) =
          "error: unit:2:7: symbol X not found" ++
            if text = "" ∧ line = "" then "" else pointed line 7 := by
  have hfails : failsWith "unit" astray (.unresolved ⟨⟨2, 7⟩, "unit"⟩ "X") = true := by
    decide +kernel
  obtain ⟨session, hread⟩ := failsWith_iff.1 hfails
  have houtcome : outcome (compile "unit" astray .all) =
      .error (.error (.unresolved ⟨⟨2, 7⟩, "unit"⟩ "X")) := by
    rw [outcome_compile, hread]
  obtain ⟨before, text, line, habout, -, hline, -, hcaret, hreport⟩ :=
    compile_points houtcome (show _ = some _ from rfl)
  exact ⟨houtcome, before, text, line, habout, hline, fun hne => (hcaret hne).2, hreport⟩

/-- The place behind a final line feed is on a line that is not shown. -/
theorem unended_alone :
    ∃ error : Error, outcome (compile "unit" "PROCEDURE MAIN; BEGIN\n" .none) =
        .error (.error error) ∧ error.location? = some ⟨⟨2, 1⟩, "unit"⟩ ∧
      Text.LineAt "PROCEDURE MAIN; BEGIN\n".toList 2 [] ∧
      error.report (some "PROCEDURE MAIN; BEGIN\n") ≠
        "error: " ++ error.message ++ pointed "" 1 := by
  have hfails : failsWith "unit" "PROCEDURE MAIN; BEGIN\n"
      (.malformed ⟨⟨2, 1⟩, "unit"⟩ "expected END, found end of input") = true := by
    decide +kernel
  obtain ⟨session, hread⟩ := failsWith_iff.1 hfails
  have hchars : "PROCEDURE MAIN; BEGIN\n".toList = "PROCEDURE MAIN; BEGIN".toList ++ ['\n'] := by
    decide +kernel
  refine ⟨_, by rw [outcome_compile, hread], rfl, ?_, by decide +kernel⟩
  rw [hchars]
  exact .later (by decide +kernel) (.last List.not_mem_nil)

end BlockLang
