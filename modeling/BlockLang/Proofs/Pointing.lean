import BlockLang.Proofs.Lexical.Blame
import BlockLang.Proofs.Session.Titles
import BlockLang.Proofs.Spacing
import BlockLang.Proofs.Tree.Standing

/-! An error of a name points at a token that is this name: where a scope declares it again, or
where it is used and does not stand for what is wanted. -/

namespace BlockLang

open Code Names BlockLang.Core Compiler Lexical BlockLang.Tree

namespace Lexical

section

variable (tokens : List Lexeme)

/-- The spots of the program that the tokens say, as far as they say one. -/
def spotsOf : List Spot := (Program.ofTokens tokens).decls.spots

def marksOf : List Mark := (spotsOf tokens).map Spot.mark

/-- A scope declares the name at a position, where the tokens hold it in a declaration. -/
structure Introduces (region : Region) (ident : Ident) (position : Nat) : Prop where
  scope : Declares (marksOf tokens) region ident.name position
  spot : ∃ spot words part, (spotsOf tokens)[position]? = some spot ∧
    spot.declared? = some ident ∧ Opens spot words ∧ part <:+: tokens ∧ ident.Heads words part

/-- How a name is at fault, and the error that says so. -/
inductive Faulty (ident : Ident) (location : Location) : Error → Prop
  | duplicate {region : Region} {first : Ident} {earlier position : Nat}
    (hagain : Introduces tokens region ident position)
    (hfirst : Introduces tokens region first earlier) (hsame : first.name = ident.name)
    (hearlier : earlier < position)
    (horder : [first, ident].Sublist (tokens.filterMap Lexeme.ident?)) :
    Faulty ident location (.duplicate location ident.name)
  | unresolved {position : Nat} {use : Use}
    (huse : (spotsOf tokens)[position]?.bind Spot.use? = some use) (hname : use.name = ident)
    (hnone : ∀ origin, ¬Resolves (marksOf tokens) position ident.name origin) :
    Faulty ident location (.unresolved location ident.name)
  | wrongKind {position origin : Nat} {use : Use} {entity : Entity}
    (huse : (spotsOf tokens)[position]?.bind Spot.use? = some use) (hname : use.name = ident)
    (hresolves : Resolves (marksOf tokens) position ident.name origin)
    (hcreated : Created (marksOf tokens) origin entity) (hkind : entity.kind ∉ use.kinds) :
    Faulty ident location (.wrongKind location ident.name use.wanted entity.kind.describe)
  | notNumeric {position origin : Nat} {text : String}
    (huse : (spotsOf tokens)[position]? = some (.operand ident))
    (hresolves : Resolves (marksOf tokens) position ident.name origin)
    (htext : HasText (marksOf tokens) origin text) (hread : Numeral.read? text = none) :
    Faulty ident location (.notNumeric location ident.name text)

end

theorem Spot.exists_of_declared?_mark {spot : Spot} {name : String}
    (h : spot.mark.declared? = some name) :
    ∃ ident, spot.declared? = some ident ∧ ident.name = name := by
  cases spot <;> cases h <;> exact ⟨_, rfl, rfl⟩

theorem Spot.mem_idents_of_declared? {spot : Spot} {ident : Ident}
    (h : spot.declared? = some ident) : ident ∈ spot.idents := by
  simp [idents, h]

theorem Spot.mem_idents_of_use? {spot : Spot} {use : Use} (h : spot.use? = some use) :
    use.name ∈ spot.idents := by
  simp [idents, h]

variable {tokens : List Lexeme} {position : Nat} {spot : Spot} {ident : Ident}

theorem ident_mem (hspot : (spotsOf tokens)[position]? = some spot) (hident : ident ∈ spot.idents) :
    ident ∈ tokens.filterMap Lexeme.ident? :=
  (Program.named_ofTokens tokens).1.subset
    (List.mem_flatMap.2 ⟨spot, List.mem_of_getElem? hspot, hident⟩)

/-- What stands at an earlier spot comes earlier. -/
theorem ident_sublist {earlier : Nat} {other : Spot} {first : Ident}
    (hother : (spotsOf tokens)[earlier]? = some other) (hfirst : first ∈ other.idents)
    (hspot : (spotsOf tokens)[position]? = some spot) (hident : ident ∈ spot.idents)
    (hearlier : earlier < position) :
    [first, ident].Sublist (tokens.filterMap Lexeme.ident?) := by
  refine List.Sublist.trans ?_ (Program.named_ofTokens tokens).1
  change [first, ident].Sublist ((spotsOf tokens).flatMap Spot.idents)
  have hsplit := List.take_append_drop position (spotsOf tokens)
  rw [← hsplit, List.flatMap_append]
  have hbefore : first ∈ ((spotsOf tokens).take position).flatMap Spot.idents := by
    have htake : ((spotsOf tokens).take position)[earlier]? = some other := by
      rw [List.getElem?_take_of_lt hearlier, hother]
    exact List.mem_flatMap.2 ⟨other, List.mem_of_getElem? htake, hfirst⟩
  have hafter : ident ∈ ((spotsOf tokens).drop position).flatMap Spot.idents := by
    have hdrop : ((spotsOf tokens).drop position)[0]? = some spot := by
      rw [List.getElem?_drop]
      exact hspot
    exact List.mem_flatMap.2 ⟨spot, List.mem_of_getElem? hdrop, hident⟩
  exact (List.singleton_sublist.2 hbefore).append (List.singleton_sublist.2 hafter)

theorem Introduces.of_declares {region : Region}
    (hscope : Declares (marksOf tokens) region ident.name position)
    (hspot : (spotsOf tokens)[position]? = some spot) (hdeclared : spot.declared? = some ident) :
    Introduces tokens region ident position := by
  obtain ⟨words, part, hopens, hpart, hheads⟩ :=
    (Program.named_ofTokens tokens).2 spot (List.mem_of_getElem? hspot) ident hdeclared
  exact ⟨hscope, spot, words, part, hspot, hdeclared, hopens, hpart, hheads⟩

/-- Every declaration in a scope is that of a name that stands there. -/
theorem exists_introduces {region : Region} {name : String}
    (h : Declares (marksOf tokens) region name position) :
    ∃ ident spot, (spotsOf tokens)[position]? = some spot ∧ spot.declared? = some ident ∧
      ident.name = name ∧ Introduces tokens region ident position := by
  obtain ⟨mark, hmark, hdeclared⟩ := Option.bind_eq_some_iff.1 h.mark
  unfold marksOf at hmark
  rw [List.getElem?_map] at hmark
  obtain ⟨spot, hspot, rfl⟩ := Option.map_eq_some_iff.1 hmark
  obtain ⟨ident, hident, rfl⟩ := Spot.exists_of_declared?_mark hdeclared
  exact ⟨ident, spot, hspot, hident, rfl, .of_declares h hspot hident⟩

theorem Faulty.location?_eq {location : Location} {error : Error}
    (h : Faulty tokens ident location error) : error.location? = some location := by
  cases h <;> rfl

theorem Faulty.name?_eq {location : Location} {error : Error}
    (h : Faulty tokens ident location error) : error.name? = some ident.name := by
  cases h <;> rfl

/-- What fails where the marks before have been tracked is at fault in the program. -/
theorem Fails.faulty {state : State} {session : Session} {file : String} {error : Error}
    (h : Fails state.env session spot error) (htracks : Tracks (marksOf tokens) position state)
    (hspot : (spotsOf tokens)[position]? = some spot) (hreached : session.Reached file) :
    ∃ ident ∈ spot.idents, session.location.toPlace = ident.place ∧
      Faulty tokens ident session.location error := by
  have huseAt : ∀ {use : Use}, spot.use? = some use →
      (spotsOf tokens)[position]?.bind Spot.use? = some use := by
    intro use huse
    rw [hspot, Option.bind_some, huse]
  cases h with
  | @duplicate name entity hname hplace hopen hagain =>
    refine ⟨name, Spot.mem_idents_of_declared? hname, hplace, ?_⟩
    have hregions : regionsAt (marksOf tokens) position ≠ [] := by
      intro hnone
      have hlength := htracks.frames.length_eq
      rw [hnone] at hlength
      exact hopen (List.length_eq_zero_iff.1 hlength.symm)
    have hregion := List.head?_eq_some_head hregions
    have hmark : (marksOf tokens)[position]? = some spot.mark := by
      unfold marksOf
      rw [List.getElem?_map, hspot]
      rfl
    have hscope : Declares (marksOf tokens) _ name.name position :=
      ⟨by rw [hmark, Option.bind_some, Spot.declared?_mark hname], hregion⟩
    by_contra hfirst
    -- Otherwise the name is new in this scope, and could have been declared.
    have hfresh : ∀ earlier < position,
        ¬Declares (marksOf tokens) ((regionsAt (marksOf tokens) position).head hregions)
          name.name earlier := by
      intro earlier hearlier hdeclares
      obtain ⟨first, other, hother, hdeclared, hsame, hintroduces⟩ := exists_introduces hdeclares
      refine hfirst (.duplicate (.of_declares hscope hspot hname) hintroduces hsame hearlier ?_)
      exact ident_sublist hother (Spot.mem_idents_of_declared? hdeclared) hspot
        (Spot.mem_idents_of_declared? hname) hearlier
    obtain ⟨declared, hdeclared⟩ := htracks.frames.declare?_of_fresh entity hregion hfresh
    rw [hagain] at hdeclared
    cases hdeclared
  | @unresolved use huse hplace hnone =>
    refine ⟨use.name, Spot.mem_idents_of_use? huse, hplace, .unresolved (huseAt huse) rfl ?_⟩
    intro origin hresolves
    obtain ⟨entity, hfound, -⟩ := htracks.frames.find?_of_resolves hresolves
    rw [hnone] at hfound
    cases hfound
  | @wrongKind use entity id symbol huse hplace hfound hkind hid hsymbol =>
    obtain ⟨origin, hresolves, hcreated⟩ := htracks.frames.resolves hfound
    rw [hreached.name_eq hid hsymbol]
    exact ⟨use.name, Spot.mem_idents_of_use? huse, hplace,
      .wrongKind (huseAt huse) rfl hresolves hcreated hkind⟩
  | @notNumeric name text hoperand hplace hfound hread =>
    subst hoperand
    obtain ⟨origin, hresolves, hcreated⟩ := htracks.frames.resolves hfound
    cases hcreated with
    | constant _ htext =>
      have hident : name ∈ (Spot.operand name).idents := List.mem_singleton_self name
      exact ⟨name, hident, hplace, .notNumeric hspot hresolves htext hread⟩

end Lexical

namespace Compiler

/-- An error of a name that the tokens of a program end with. -/
theorem faulty_takeTokens {tokens : List Lexeme} {file name : String} {error : Error}
    {session next : Session} (h : session.Shows [[]] [] []) (hreached : session.Reached file)
    (hrun : takeTokens tokens session = .error (.error error) next)
    (hname : error.name? = some name) :
    ∃ ident ∈ tokens.filterMap Lexeme.ident?, next.location = ⟨ident.place, file⟩ ∧
      Faulty tokens ident next.location error := by
  have hnext : next.Reached file := by
    have hstays := Program.stays_emit (Program.declarable_ofTokens tokens) session hreached
    unfold Session.after at hstays
    rwa [show (Program.ofTokens tokens).emit session = .error (.error error) next from hrun]
      at hstays
  rcases explained_takeTokens tokens h error next hrun with
    hnone | ⟨before, spot, after, state, hspots, hpassed, hfails⟩
  · rw [hname] at hnone
    cases hnone
  have hspots : spotsOf tokens = before ++ spot :: after := hspots
  have hspot : (spotsOf tokens)[before.length]? = some spot := by simp [hspots]
  have htracks : Tracks (marksOf tokens) before.length state := by
    refine tracks_of_run (by simp [marksOf, hspots]) ?_
    rw [← hpassed]
    simp [marksOf, hspots]
  obtain ⟨ident, hident, hplace, hfaulty⟩ := hfails.faulty htracks hspot hnext
  refine ⟨ident, ident_mem hspot hident, ?_, hfaulty⟩
  rw [← hplace, ← hnext.file_eq]

/-- After the program nothing is done that could fail. -/
theorem takeTokens_of_takeUnitOf {tokens : List Lexeme} {file : String} {error : Error}
    {session : Session} (h : takeUnitOf tokens (.start file) = .error (.error error) session) :
    takeTokens tokens ((Session.start file).told (.enter (.unit file))) =
      .error (.error error) session := by
  rcases of_bind_eq_error (show (takeTokens tokens >>= fun _ => _)
    ((Session.start file).told (.enter (.unit file))) = _ from h) with hrun | ⟨_, middle, -, hrest⟩
  · exact hrun
  · cases hrest

end Compiler

/-- Whatever name a unit fails with, the location is in its file and at a token that is this
name: declared for the second time in one scope, or used and not what it has to be. -/
theorem readUnit_faulty {file source name : String} {error : Error} {session : Session}
    (h : readUnit file source = .error (.error error) session) (hname : error.name? = some name) :
    ∃ tokens, Token.scan source = .ok tokens ∧
      ∃ ident ∈ tokens.filterMap Lexeme.ident?, ident.name = name ∧
        error.location? = some ⟨ident.place, file⟩ ∧ Faulty tokens ident ⟨ident.place, file⟩ error := by
  cases hscan : Token.scan source with
  | error unreadable =>
    unfold readUnit takeUnit at h
    rcases of_bind_eq_error (show (takeSource source >>= fun _ => _)
      ((Session.start file).told (.enter (.unit file))) = _ from h) with hrun | ⟨_, _, hok, -⟩
    · rw [takeSource_unreadable (by rw [scanAt, hscan]; rfl)] at hrun
      cases hrun
      cases hname
    · rw [takeSource_unreadable (by rw [scanAt, hscan]; rfl)] at hok
      cases hok
  | ok tokens =>
    refine ⟨tokens, rfl, ?_⟩
    unfold readUnit at h
    rw [takeUnit_eq hscan] at h
    have hstarted := (Session.shows_start file).told
      (show ∀ fault, Log.Entry.enter (.unit file) ≠ .event (.cursorAstray fault) by simp)
    have hreached : ((Session.start file).told (.enter (.unit file))).Reached file :=
      .step .start (.tell (.enter (.unit file)))
    obtain ⟨ident, hident, hlocation, hfaulty⟩ :=
      faulty_takeTokens hstarted hreached (takeTokens_of_takeUnitOf h) hname
    rw [hlocation] at hfaulty
    have hsame : ident.name = name := Option.some.inj (hfaulty.name?_eq.symm.trans hname)
    exact ⟨ident, hident, hsame, hfaulty.location?_eq, hfaulty⟩

/-- Whether a unit fails with the error. -/
def failsWith (file source : String) (error : Error) : Bool :=
  match readUnit file source with
  | .error (.error other) _ => other == error
  | _ => false

theorem failsWith_iff {file source : String} {error : Error} :
    failsWith file source error = true ↔
      ∃ session, readUnit file source = .error (.error error) session := by
  unfold failsWith
  split
  · next other session hread => simp [hread]
  · next hread =>
    refine iff_of_false nofun ?_
    rintro ⟨session, hsession⟩
    exact hread error session hsession

/-- A procedure may have a `Y` of its own, but not two variables `Z`. -/
def twice : String := "VAR Y: INT8;\nPROCEDURE P;\nVAR Z, Y, Z: INT8;\nBEGIN END."

theorem twice_faulty : ∃ session tokens,
    readUnit "unit" twice = .error (.error (.duplicate ⟨⟨3, 11⟩, "unit"⟩ "Z")) session ∧
      Token.scan twice = .ok tokens ∧ ⟨"Z", ⟨3, 11⟩⟩ ∈ tokens.filterMap Lexeme.ident? ∧
        Faulty tokens ⟨"Z", ⟨3, 11⟩⟩ ⟨⟨3, 11⟩, "unit"⟩ (.duplicate ⟨⟨3, 11⟩, "unit"⟩ "Z") := by
  have hfails : failsWith "unit" twice (.duplicate ⟨⟨3, 11⟩, "unit"⟩ "Z") = true := by
    decide +kernel
  obtain ⟨session, hread⟩ := failsWith_iff.1 hfails
  obtain ⟨tokens, hscan, ⟨name, place⟩, hident, hname, hlocation, hfaulty⟩ :=
    readUnit_faulty hread (show _ = some "Z" from rfl)
  cases hname
  cases hlocation
  exact ⟨session, tokens, hread, hscan, hident, hfaulty⟩

end BlockLang
