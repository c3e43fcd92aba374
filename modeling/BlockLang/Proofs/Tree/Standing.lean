import BlockLang.Proofs.Lexical.Spots
import BlockLang.Proofs.Tree.Derivation

/-! The names of a tree that has been read are those of the tokens it was read from. A name
that is declared comes after the word that begins its declaration. -/

namespace BlockLang

open Lexical BlockLang.Tree.Ahead

/-- The name that a token is, if it is one. -/
def Lexeme.ident? (lexeme : Lexeme) : Option Tree.Ident :=
  match lexeme.token with
  | .identifier name => some ⟨name, lexeme.span.toPlace⟩
  | _ => none

namespace Tree

/-- The names are among the tokens up to `after`, in this order. -/
def Named (idents : List Ident) (before after : List Lexeme) : Prop :=
  ∃ taken, before = taken ++ after ∧ idents.Sublist (taken.filterMap Lexeme.ident?)

namespace Named

variable {idents more : List Ident} {before middle after : List Lexeme}

theorem nothing (h : after <:+ before) : Named [] before after := by
  obtain ⟨taken, rfl⟩ := h
  exact ⟨taken, rfl, List.nil_sublist _⟩

theorem append (h : Named idents before middle) (h' : Named more middle after) :
    Named (idents ++ more) before after := by
  obtain ⟨taken, rfl, hidents⟩ := h
  obtain ⟨taken', rfl, hmore⟩ := h'
  refine ⟨taken ++ taken', by simp, ?_⟩
  rw [List.filterMap_append]
  exact hidents.append hmore

theorem through (h : Named idents before middle) (h' : after <:+ middle) :
    Named idents before after := by
  have hboth := h.append (nothing h')
  rwa [List.append_nil] at hboth

theorem suffix (h : Named idents before after) : after <:+ before := by
  obtain ⟨taken, rfl, -⟩ := h
  exact List.suffix_append _ _

theorem one (name : String) (span : Span) (after : List Lexeme) :
    Named [⟨name, span.toPlace⟩] (⟨.identifier name, span⟩ :: after) after :=
  ⟨[⟨.identifier name, span⟩], rfl, List.Sublist.refl _⟩

theorem of_identifier {ahead : Ahead} {ident : Ident} (h : ahead.identifier = .ok ident) :
    Named [ident] ahead.tokens ahead.skip.tokens := by
  obtain ⟨span, htokens, hident⟩ := tokens_of_identifier h
  rw [htokens, hident]
  exact .one ident.name span ahead.skip.tokens

theorem of_derives (h : NamesDerive idents before after) : Named idents before after := by
  induction h with
  | last => exact .one _ _ _
  | @more name names span comma before after _ ih =>
    exact (one name span _).append ((nothing (List.suffix_cons _ _)).append ih)

end Named

theorem identifier_of_peek {ahead : Ahead} {name : String} (h : ahead.peek = .identifier name) :
    ahead.identifier = .ok ⟨name, ahead.place⟩ := by
  unfold Ahead.identifier
  rw [h]

/-- The tokens begin with `words` and the name. -/
def Ident.Heads (words : List Token) (ident : Ident) (tokens : List Lexeme) : Prop :=
  ∃ opening span after, tokens = opening ++ ⟨.identifier ident.name, span⟩ :: after ∧
    opening.map Lexeme.token = words ∧ span.toPlace = ident.place

theorem Ident.Heads.cons {words : List Token} {ident : Ident} {tokens : List Lexeme}
    (h : ident.Heads words tokens) (token : Token) (span : Span) :
    ident.Heads (token :: words) (⟨token, span⟩ :: tokens) := by
  obtain ⟨opening, last, after, rfl, rfl, hplace⟩ := h
  exact ⟨⟨token, span⟩ :: opening, last, after, rfl, rfl, hplace⟩

theorem Ident.heads_of_identifier {ahead : Ahead} {ident : Ident}
    (h : ahead.identifier = .ok ident) : ident.Heads [] ahead.tokens := by
  obtain ⟨span, htokens, hident⟩ := tokens_of_identifier h
  exact ⟨[], span, ahead.skip.tokens, htokens, rfl, by rw [hident]⟩

theorem Ident.heads_of_mem {names : List Ident} {before after : List Lexeme}
    (h : NamesDerive names before after) {name : Ident} (hname : name ∈ names) :
    ∃ others : List String,
      name.Heads (others.flatMap fun other => [.identifier other, .sign .comma]) before := by
  induction h with
  | @last other span after =>
    obtain rfl := List.mem_singleton.1 hname
    exact ⟨[], [], span, after, rfl, rfl, rfl⟩
  | @more other names span comma before after _ ih =>
    rcases List.mem_cons.1 hname with rfl | hname
    · exact ⟨[], [], span, _, rfl, rfl, rfl⟩
    · obtain ⟨others, hheads⟩ := ih hname
      exact ⟨other :: others, (hheads.cons (.sign .comma) comma).cons (.identifier other) span⟩

end Tree

open BlockLang.Tree

namespace Lexical

/-- What a declaration holds up to the name at the spot. -/
inductive Opens : Spot → List Token → Prop
  | procedure (name : Ident) : Opens (.procedure name) [.keyword .procedure]
  | constant (name : Ident) (value : ConstValue) : Opens (.constant name value) [.keyword .const]
  | cell (name : Ident) (type : IntType) (others : List String) :
    Opens (.cell name type)
      (.keyword .var :: others.flatMap fun other => [.identifier other, .sign .comma])

namespace Spot

/-- The names that stand at the spot, in order. -/
def idents (spot : Spot) : List Ident :=
  spot.declared?.toList ++ (spot.use?.map Use.name).toList

/-- If the spot declares a name, the tokens hold the name within such a declaration. -/
def Opened (spot : Spot) (tokens : List Lexeme) : Prop :=
  ∀ name, spot.declared? = some name →
    ∃ words part, Opens spot words ∧ part <:+: tokens ∧ name.Heads words part

variable {spot : Spot}

theorem Opened.mono {inner tokens : List Lexeme} (h : spot.Opened inner)
    (hinner : inner <:+: tokens) :
    spot.Opened tokens := by
  intro name hname
  obtain ⟨words, part, hopens, hpart, hheads⟩ := h name hname
  exact ⟨words, part, hopens, hpart.trans hinner, hheads⟩

theorem opened_of_not_declared (h : spot.declared? = none) (tokens : List Lexeme) :
    spot.Opened tokens := by
  intro name hname
  rw [h] at hname
  cases hname

end Spot

/-- What stands at the spots was read from `ahead`, and `left` is left of it. -/
structure Reads (ahead : Ahead) (spots : List Spot) (left : Ahead) : Prop where
  named : Named (spots.flatMap Spot.idents) ahead.tokens left.tokens
  opened : ∀ spot ∈ spots, spot.Opened ahead.tokens

variable {ahead middle left : Ahead} {spot : Spot} {spots more : List Spot}

namespace Reads

theorem nothing (h : left.tokens <:+ ahead.tokens) : Reads ahead [] left := ⟨.nothing h, by simp⟩

theorem refl (ahead : Ahead) : Reads ahead [] ahead := nothing List.suffix_rfl

theorem skip (ahead : Ahead) : Reads ahead [] ahead.skip := nothing (List.tail_suffix _)

theorem drop (ahead : Ahead) : Reads ahead [] ahead.drop := nothing List.nil_suffix

theorem one (hnamed : Named spot.idents ahead.tokens left.tokens)
    (hopened : spot.Opened ahead.tokens) : Reads ahead [spot] left :=
  ⟨by rwa [List.flatMap_singleton], by simpa using hopened⟩

theorem trans (h : Reads ahead spots middle) (h' : Reads middle more left) :
    Reads ahead (spots ++ more) left where
  named := by
    rw [List.flatMap_append]
    exact h.named.append h'.named
  opened := by
    intro spot hspot
    rcases List.mem_append.1 hspot with hspot | hspot
    · exact h.opened spot hspot
    · exact (h'.opened spot hspot).mono h.named.suffix.isInfix

theorem through (h : Reads ahead spots middle) (h' : Reads middle [] left) :
    Reads ahead spots left :=
  ⟨h.named.through h'.named.suffix, h.opened⟩

theorem after (h : Reads ahead [] middle) (h' : Reads middle spots left) :
    Reads ahead spots left :=
  h.trans h'

/-- A spot without a name. -/
theorem mark (h : spot.idents = []) (ahead : Ahead) : Reads ahead [spot] ahead := by
  refine one (by rw [h]; exact .nothing List.suffix_rfl) (Spot.opened_of_not_declared ?_ _)
  cases spot <;> first | rfl | cases h

/-- A name that is used, as the next token. -/
theorem use {ident : Ident} (hidents : spot.idents = [ident]) (hdeclared : spot.declared? = none)
    (h : ahead.identifier = .ok ident) : Reads ahead [spot] ahead.skip :=
  one (by rw [hidents]; exact .of_identifier h) (Spot.opened_of_not_declared hdeclared _)

end Reads

end Lexical

namespace Tree

variable {ahead left start : Ahead}

/-- Expressions that begin at `start` and were read up to `ahead` are read on. -/
def ReadsOn (first : Expr) (ahead : Ahead) (result : Expr × Ahead) : Prop :=
  ∀ start, Reads start first.spots ahead → Reads start result.1.spots result.2

private theorem reads_readers :
    ExprReading (fun ahead result => Reads ahead result.1.spots result.2)
      (fun ahead result => Reads ahead result.1.spots result.2)
      (fun ahead result => Reads ahead result.1.spots result.2) ReadsOn ReadsOn where
  number ahead _ _ _ _ := .skip ahead
  badNumber ahead _ _ _ := .drop ahead
  name _ _ hpeek := .use rfl rfl (identifier_of_peek hpeek)
  paren ahead left _ _ hinner _ := ((Reads.skip ahead).after hinner).through (.skip left)
  unclosed ahead left _ _ _ hinner _ := ((Reads.skip ahead).after hinner).through (.drop left)
  negate ahead _ _ _ hoperand := (Reads.skip ahead).after hoperand
  missing ahead _ _ _ _ := .drop ahead
  firstFactor ahead _ _ _ hfirst hmore := hmore ahead hfirst
  nextFactor _ ahead _ _ _ _ _ hsecond hmore start hstart :=
    hmore start ((hstart.through (.skip ahead)).trans hsecond)
  noFactor _ _ _ _ hstart := hstart
  firstTerm ahead _ _ _ hfirst hmore := hmore ahead hfirst
  nextTerm _ ahead _ _ _ _ _ hsecond hmore start hstart :=
    hmore start ((hstart.through (.skip ahead)).trans hsecond)
  noTerm _ _ _ _ hstart := hstart

theorem reads_readExpr {expr : Expr} (h : given (readExpr ahead) = (expr, left)) :
    Reads ahead expr.spots left :=
  reads_readers.holds h

theorem reads_readCond {word : Keyword} {cond : Cond}
    (h : given (readCond word ahead) = (cond, left)) : Reads ahead cond.spots left := by
  rw [given_readCond] at h
  rcases hfirst : given (readExpr ahead) with ⟨first, after⟩
  have hreads := reads_readExpr hfirst
  rw [hfirst] at h
  dsimp only at h
  split at h
  · cases h
    exact hreads.through (.drop after)
  · next op hop =>
    rcases hsecond : given (readExpr after.skip) with ⟨second, last⟩
    have hboth := (hreads.through (.skip after)).trans (reads_readExpr hsecond)
    rw [hsecond] at h
    dsimp only at h
    split at h <;> cases h
    · exact hboth.through (.skip last)
    · exact hboth.through (.drop last)

theorem named_readConstValue {value : ConstValue}
    (h : givenOr (readConstValue ahead) = .ok (value, left)) (name : Ident) :
    ∃ idents, (Spot.constant name value).idents = name :: idents ∧
      Named idents ahead.tokens left.tokens := by
  unfold readConstValue at h
  split at h
  · cases h
    exact ⟨[], rfl, .nothing (List.tail_suffix _)⟩
  · cases h
    exact ⟨[], rfl, .nothing (List.tail_suffix _)⟩
  · split at h
    · cases h
      exact ⟨[], rfl, .nothing ((List.tail_suffix _).trans (List.tail_suffix _))⟩
    · cases h
  · next hpeek =>
    cases h
    exact ⟨_, rfl, .of_identifier (identifier_of_peek hpeek)⟩
  · cases h

theorem reads_readConst (hword : ahead.peek = .keyword .const) {declaration : Declaration}
    (h : givenOr (readConst ahead.skip) = .ok (declaration, left)) :
    Reads ahead declaration.spots left := by
  rw [givenOr_readConst] at h
  obtain ⟨name, hname, h⟩ := Except.exists_of_bind_eq_ok h
  obtain ⟨_, -, h⟩ := Except.exists_of_bind_eq_ok h
  obtain ⟨⟨value, after⟩, hvalue, h⟩ := Except.exists_of_bind_eq_ok h
  obtain ⟨idents, hidents, hnamed⟩ := named_readConstValue hvalue name
  obtain ⟨span, htokens, -⟩ := tokens_of_peek hword (by simp)
  have hheads := (Ident.heads_of_identifier hname).cons (.keyword .const) span
  rw [← htokens] at hheads
  -- Between the name and the value stands a sign.
  have hvalued : Named (name :: idents) ahead.tokens after.tokens :=
    (Named.nothing (List.tail_suffix _)).append
      (((Named.of_identifier hname).through (List.tail_suffix _)).append hnamed)
  dsimp only at h
  rcases hend : after.expect (.sign .semicolon) with mistake | _
  · rw [hend] at h
    cases value with
    | text spelling => cases h
    | copy source =>
      cases h
      cases hidents
      refine .one ?_ (Spot.opened_of_not_declared rfl _)
      obtain ⟨taken, htaken, hsublist⟩ := hvalued.through List.nil_suffix
      exact ⟨taken, htaken, (List.sublist_cons_self _ _).trans hsublist⟩
  · rw [hend] at h
    cases h
    refine .one ?_ fun other hother => ?_
    · rw [hidents]
      exact hvalued.through (List.tail_suffix _)
    · cases hother
      exact ⟨_, _, .constant name value, List.infix_rfl, hheads⟩

theorem reads_readVars (hword : ahead.peek = .keyword .var) {declaration : Declaration}
    {left : ahead.skip.Left} (h : readVars ahead.skip = .ok (declaration, left)) :
    Reads ahead declaration.spots left.val := by
  obtain ⟨⟨names, after, hafter⟩, hnames, h⟩ := Except.exists_of_bind_eq_ok h
  obtain ⟨_, -, h⟩ := Except.exists_of_bind_eq_ok h
  obtain ⟨type, -, h⟩ := Except.exists_of_bind_eq_ok h
  obtain ⟨_, -, h⟩ := Except.exists_of_bind_eq_ok h
  cases h
  have hderives := derives_readNames hnames
  obtain ⟨span, htokens, -⟩ := tokens_of_peek hword (by simp)
  refine ⟨?_, fun spot hspot => ?_⟩
  · have hidents : ∀ names : List Ident,
        (names.map fun name => Spot.cell name type).flatMap Spot.idents = names := by
      intro names
      rw [List.flatMap_map]
      exact List.flatMap_singleton' names
    have hnamed := (Named.nothing (List.tail_suffix ahead.tokens)).append (Named.of_derives hderives)
    change Named ((names.map fun name => Spot.cell name type).flatMap Spot.idents) _ _
    rw [hidents]
    exact hnamed.through (((List.tail_suffix _).trans (List.tail_suffix _)).trans (List.tail_suffix _))
  · obtain ⟨name, hname, rfl⟩ := List.mem_map.1 hspot
    obtain ⟨others, hheads⟩ := Ident.heads_of_mem hderives hname
    have hword := hheads.cons (.keyword .var) span
    rw [← htokens] at hword
    intro other hother
    cases hother
    exact ⟨_, _, .cell name type others, List.infix_rfl, hword⟩

theorem reads_readDeclaration? {declaration : Declaration} {left : ahead.Less}
    (h : readDeclaration? ahead = some (declaration, left)) :
    Reads ahead declaration.spots left.val := by
  unfold readDeclaration? at h
  dsimp only at h
  split at h
  · next hword =>
    split at h
    · next hread =>
      cases h
      exact reads_readConst hword (by rw [hread]; rfl)
    · cases h
      exact .drop ahead
  · split at h
    · next hword =>
      split at h
      · next hread =>
        cases h
        exact reads_readVars hword hread
      · cases h
        exact .drop ahead
    · cases h

theorem reads_readDeclarations (ahead : Ahead) :
    Reads ahead ((given (readDeclarations ahead)).1.flatMap Declaration.spots)
      (given (readDeclarations ahead)).2 := by
  fun_induction readDeclarations ahead with
  | case1 ahead hread => exact .refl ahead
  | case2 ahead declaration next hnext hread rest last hlast hrest ih =>
    rw [given_eq hrest] at ih
    exact (reads_readDeclaration? hread).trans ih

theorem spots_closeBody (body : Stmt) (ahead : Ahead) :
    (given (closeBody body ahead)).1.spots = body.spots := by
  unfold closeBody
  split
  · rfl
  · exact List.append_nil _

theorem reads_closeBody {body : Stmt} (h : Reads start body.spots ahead) {closed : Stmt}
    (hclose : given (closeBody body ahead) = (closed, left)) : Reads start closed.spots left := by
  have hspots := spots_closeBody body ahead
  rw [hclose] at hspots
  rw [hspots]
  refine h.through (.nothing ?_)
  unfold closeBody at hclose
  split at hclose <;> cases hclose
  · exact List.tail_suffix _
  · exact List.nil_suffix

theorem reads_skipSemicolons (ahead : Ahead) : Reads ahead [] (skipSemicolons ahead).val := by
  fun_induction skipSemicolons ahead with
  | case1 ahead hpeek _ left hleft hskip ih =>
    rw [hskip] at ih
    exact (Reads.skip ahead).after ih
  | case2 ahead hpeek => exact .refl ahead

private theorem reads_statements :
    StmtReading (fun ahead result => Reads ahead result.1.spots result.2)
      (fun ahead result => Reads ahead result.1.spots result.2) where
  assign ahead left name value hpeek _ hvalue := by
    have htarget : Reads ahead [.target ⟨name, ahead.place⟩] ahead.skip :=
      .use rfl rfl (identifier_of_peek hpeek)
    exact (htarget.through (.skip ahead.skip)).trans (reads_readExpr hvalue)
  call _ _ hpeek _ := .use rfl rfl (identifier_of_peek hpeek)
  callWord ahead _ _ hcallee := (Reads.skip ahead).after (.use rfl rfl hcallee)
  callNone ahead _ _ _ := .drop ahead
  branchElse ahead afterCond afterYes afterNo left condition yes no closed _ hcondition hyes _ hno
      hclose := by
    have hcondition := (Reads.skip ahead).after (reads_readCond hcondition)
    have hyes := (hcondition.trans hyes).through (.skip afterYes)
    exact hyes.trans (reads_closeBody hno hclose)
  branch ahead afterCond afterYes left condition yes no _ hcondition hyes _ hclose := by
    have hcondition := (Reads.skip ahead).after (reads_readCond hcondition)
    have hskip : Reads afterYes Stmt.skip.spots afterYes := .refl afterYes
    exact (hcondition.trans hyes).trans (reads_closeBody hskip hclose)
  loop ahead afterCond afterBody left condition inner closed _ hcondition hinner hclose := by
    have hcondition := (Reads.skip ahead).after (reads_readCond hcondition)
    exact hcondition.trans (reads_closeBody hinner hclose)
  ret ahead _ := .skip ahead
  block ahead afterLocals afterBody left locals inner closed _ hlocals hinner hclose := by
    have hdeclared := reads_readDeclarations ahead.skip
    rw [hlocals] at hdeclared
    have hopened : Reads ahead [.block] ahead.skip :=
      (Reads.mark rfl ahead).through (.skip ahead)
    have hbody := hdeclared.trans (reads_closeBody hinner hclose)
    exact hopened.trans (hbody.trans (.mark rfl left))
  missing ahead _ _ _ _ _ _ := .drop ahead
  done ahead _ := .refl ahead
  more _ afterFirst _ _ _ _ hfirst hsecond :=
    (hfirst.through (reads_skipSemicolons afterFirst)).trans hsecond

theorem reads_readStmts {stmt : Stmt} (h : given (readStmts ahead) = (stmt, left)) :
    Reads ahead stmt.spots left :=
  reads_statements.holds h

/-- What was read of a procedure, whose keyword is the next token of `start`. -/
def ReadsProcedure (start : Ahead) (result : Heading × Decls × Stmt × Ahead) : Prop :=
  Reads start (result.1.spots ++ (result.2.1.spots ++ result.2.2.1.spots ++ [.leave])) result.2.2.2

theorem reads_pass (mark : Sign) (ahead : Ahead) : Reads ahead [] (pass mark ahead) := by
  unfold pass
  split
  · exact .skip ahead
  · exact .refl ahead

theorem reads_heading {name : Ident} (hword : start.peek = .keyword .procedure)
    (hname : start.skip.identifier = .ok name) :
    Reads start [.procedure name] start.skip.skip := by
  obtain ⟨span, htokens, -⟩ := tokens_of_peek hword (by simp)
  have hheads := (Ident.heads_of_identifier hname).cons (.keyword .procedure) span
  rw [← htokens] at hheads
  refine .one ((Named.nothing (List.tail_suffix _)).append (.of_identifier hname)) ?_
  intro other hother
  cases hother
  exact ⟨_, _, .procedure name, List.infix_rfl, hheads⟩

private theorem reads_declarations :
    DeclsReading
      (fun ahead result => ∀ start, start.peek = .keyword .procedure → start.skip = ahead →
        ReadsProcedure start result)
      (fun ahead result => Reads ahead result.1.spots result.2) where
  unnamed ahead mistake _ start _ _ := by
    have hleave : Reads start [.leave] start := .mark rfl start
    exact hleave.through (.nothing List.nil_suffix)
  unended ahead name mistake hname _ start hword hskip := by
    subst hskip
    have hleave : Reads start.skip.skip [.leave] start.skip.skip := .mark rfl _
    exact ((reads_heading hword hname).trans hleave).through (.nothing List.nil_suffix)
  unbegun ahead afterLocals name locals mistake hname _ hlocals _ start hword hskip := by
    subst hskip
    have hnamed := (reads_heading hword hname).through (.skip start.skip.skip)
    have hleave : Reads afterLocals [.leave] afterLocals.drop :=
      (Reads.mark rfl _).through (.drop afterLocals)
    exact hnamed.trans ((hlocals.trans (.refl afterLocals)).trans hleave)
  ended ahead afterLocals afterBody last name locals body closed hname _ hlocals _ hbody hclose start
      hword hskip := by
    subst hskip
    have hnamed := (reads_heading hword hname).through (.skip start.skip.skip)
    have hclosed := reads_closeBody (reads_readStmts hbody) hclose
    have hleave : Reads last [.leave] (pass .semicolon last) :=
      (Reads.mark rfl last).through (reads_pass .semicolon last)
    exact hnamed.trans (((hlocals.through (.skip afterLocals)).trans hclosed).trans hleave)
  plain _ _ _ _ _ hread hrest := (reads_readDeclaration? hread).trans hrest
  nested ahead _ _ _ _ _ _ _ hpeek hprocedure hrest := (hprocedure ahead hpeek rfl).trans hrest
  done ahead _ _ := .refl ahead

theorem reads_readProgram (ahead : Ahead) :
    ∃ left, Reads ahead (readProgram ahead).decls.spots left := by
  fun_induction readProgram ahead with
  | case1 ahead declaration left hleft hread rest ih =>
    obtain ⟨last, hlast⟩ := ih
    exact ⟨last, (reads_readDeclaration? hread).trans hlast⟩
  | case2 ahead hread hpeek heading locals body left hleft hprocedure last rest =>
    have hreads := reads_declarations.holds (givenProcedure_eq hprocedure) ahead hpeek rfl
    have hnone : Reads left rest.spots left := by
      unfold rest
      split <;> exact .refl left
    exact ⟨left, hreads.trans hnone⟩
  | case3 ahead hread hpeek => exact ⟨ahead, .refl ahead⟩

/-- The names of a program are among its tokens, in this order, and those that it declares
stand in declarations. -/
theorem Program.named_ofTokens (tokens : List Lexeme) :
    ((Program.ofTokens tokens).decls.spots.flatMap Spot.idents).Sublist
        (tokens.filterMap Lexeme.ident?) ∧
      ∀ spot ∈ (Program.ofTokens tokens).decls.spots, spot.Opened tokens := by
  obtain ⟨left, ⟨taken, htaken, hsublist⟩, hopened⟩ := reads_readProgram (.ofTokens tokens)
  have htokens : (Ahead.ofTokens tokens).tokens <+: tokens := by
    unfold Ahead.ofTokens
    dsimp only
    split
    · exact List.dropLast_prefix _
    · exact List.prefix_rfl
  have hpart : taken <+: tokens := (List.prefix_append taken _).trans (htaken ▸ htokens)
  exact ⟨hsublist.trans (hpart.sublist.filterMap _), fun spot hspot =>
    (hopened spot hspot).mono htokens.isInfix⟩

end Tree

end BlockLang
