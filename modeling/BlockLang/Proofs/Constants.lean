import BlockLang.Proofs.Checking
import BlockLang.Proofs.Naming
import BlockLang.Proofs.Numeral
import BlockLang.Proofs.Token.Pieces

/-! Which constants a program can write. A sign and the digits behind it are tokens of
their own, and the digits alone have to fit in 64 bits. -/

namespace BlockLang

open BlockLang.Code BlockLang.Compiler BlockLang.Tree

/-- All stores of the code, in its order. -/
def Code.Module.stores (code : Module) : List Instr :=
  (code.functions.flatMap fun function => function.blocks.flatMap Block.instrs).filter fun instr =>
    match instr with
    | .store _ _ => true
    | _ => false

/-- The code has one store, of a 64-bit constant to the variable of the given name. -/
def Code.Module.OnlyStores (code : Module) (name : String) (value : Int64) : Prop :=
  ∃ id, code.globals[id]? = some ⟨name, .int 64⟩ ∧
    code.stores = [.store (.const (.int 64) value) id]

/-- A program that stores a constant which it gives a name. -/
def namingConstant (numeral : String) : String :=
  "VAR R: INT64; CONST K = " ++ numeral ++ "; PROCEDURE MAIN; BEGIN R := K END."

/-- A program that stores a constant where it is written. -/
def writingConstant (numeral : String) : String :=
  "VAR R: INT64; PROCEDURE MAIN; BEGIN R := " ++ numeral ++ " END."

/-- The program that assigns a value to its only cell, and does nothing else. -/
def Core.Program.assigning (value : Core.Expr) : Core.Program :=
  ⟨[.int64], [.seq (.assign 0 .int64 value) .skip]⟩

/-- The only variable is `R`, and all that is done is to assign `value` to it. -/
structure Tree.Decls.Assigns (decls : Decls) (value : Core.Expr) : Prop where
  items : decls.items [] = [⟨["R"], some (.int64, false)⟩, ⟨["MAIN"], none⟩]
  resolved : ∀ reached, (⟨decls, reached⟩ : Tree.Program).resolve = some (.assigning value)

/-- The expression is a constant of 64 bits, and no code is needed for it. -/
def Core.Expr.Folds (expr : Core.Expr) (value : Int64) : Prop :=
  expr.codeAs .int64 = pure (.const (.int 64) value)

theorem Code.Straight.intCast_constant (value : Int64) :
    intCast (Operand.constant value).value IntType.int64.backend
      (Operand.constant value).type.signed = pure (.const (.int 64) value) := by
  unfold Operand.constant IntType.ofConstant
  split
  next hrange =>
    have hcast : castConstant 32 64 true value = value := by
      apply Int64.toInt_inj.1
      rw [toInt_castConstant (inRange_int32 hrange.1 hrange.2) (by decide)]
      rfl
    exact congrArg (fun folded => (pure (Value.const (.int 64) folded) : Straight Value)) hcast
  next => rfl

theorem Core.Expr.folds_number (value : Int64) : (number value).Folds value :=
  Straight.intCast_constant value

theorem Core.Expr.folds_negate (value : Int64) : (negate (number value)).Folds (-value) :=
  Straight.intCast_constant (-value)

/-- Nothing is written but the store and the return. -/
theorem Core.Expr.Folds.instrs_draft {expr : Core.Expr} {value : Int64} (h : expr.Folds value) :
    (Core.Stmt.seq (.assign 0 .int64 expr) .skip).draft.blocks.flatMap Block.instrs =
      [.store (.const (.int 64) value) 0, .ret] := by
  change ((Draft.entry.say (expr.codeAs .int64) (.store · 0)).push .ret).blocks.flatMap _ = _
  rw [h]
  simp [Draft.say, Draft.write, Draft.push, Draft.extend, Draft.entry, Draft.openBlock]

theorem Code.Module.Lists.globals_eq {code : Module} {name other : String} {type : IntType}
    {names : List String}
    (h : code.Lists [⟨[name], some (type, false)⟩, ⟨[other], none⟩] names) :
    code.globals = [⟨name, type.backend⟩] := by
  obtain ⟨first, rest, rfl⟩ : ∃ first rest, names = first :: rest :=
    List.exists_cons_of_length_pos (by rw [h.length]; exact Nat.succ_pos _)
  have hfirst : first = name := h.plain 0 _ first rfl rfl rfl
  rw [h.globals, hfirst]
  cases rest <;> rfl

theorem exists_readUnit {source : String} {program : Core.Program}
    (h : Core.Program.ofSource? source = some program) (file : String) :
    ∃ session, readUnit file source = .ok () session ∧ session.Holds program := by
  have hends := ends_takeUnit file source
  unfold Ends at hends
  unfold readUnit
  split at hends
  next session hrun =>
    obtain ⟨found, hfound, -, hholds⟩ := hends
    obtain rfl := Option.some.inj (h.symm.trans hfound)
    exact ⟨session, hrun, hholds⟩
  next => simp [h] at hends
  next => exact hends.elim

/-- Taken in, such a program has one store. -/
theorem outcome_of_assigns {source : String} {tokens : List Lexeme} {span : Span} {decls : Decls}
    {expr : Core.Expr} {value : Int64} (hscan : Token.scan source = .ok (tokens ++ [⟨.eof, span⟩]))
    (hspells : decls.Spells tokens) (hassigns : decls.Assigns expr) (hfolds : expr.Folds value)
    (file : String) (scrutiny : Scrutiny) :
    ∃ code, outcome (compile file source scrutiny) = .ok code ∧ code.OnlyStores "R" value := by
  have hread : (Tree.Program.ofTokens (tokens ++ [⟨.eof, span⟩])).decls = decls :=
    hspells.read _ (tokens_ofTokens tokens span)
  have hprogram : Core.Program.ofSource? source = some (.assigning expr) := by
    have hresolved := hassigns.resolved (Tree.Program.ofTokens (tokens ++ [⟨.eof, span⟩])).reached
    rw [← hread] at hresolved
    simpa [Core.Program.ofSource?, hscan, Except.toOption] using hresolved
  obtain ⟨session, hsession, hholds⟩ := exists_readUnit hprogram file
  refine ⟨session.builder.code, by rw [outcome_compile, hsession], 0, ?_, ?_⟩
  · obtain ⟨others, _, decls', hscan', hspells', -, hlists, -⟩ := readUnit_lists hsession
    rw [hscan] at hscan'
    obtain ⟨rfl, -⟩ := List.append_inj' (Except.ok.inj hscan') rfl
    have hsame : decls' = decls := by
      rw [← hread]
      exact (hspells'.read _ (tokens_ofTokens tokens span)).symm
    rw [hsame, hassigns.items] at hlists
    rw [hlists.globals_eq]
    rfl
  · obtain ⟨function, hfunctions, hsketch⟩ := List.map_eq_singleton_iff.1 hholds.code.functions
    have hblocks : function.blocks = (Core.Stmt.draft _).blocks := congrArg Prod.fst hsketch
    unfold Module.stores
    rw [hfunctions, List.flatMap_singleton, hblocks, hfolds.instrs_draft]
    rfl

/-- Tokens at given places. -/
def placed (spans : Nat → Span) : List Token → List Lexeme
  | [] => []
  | token :: rest => ⟨token, spans 0⟩ :: placed (fun index => spans (index + 1)) rest

theorem exists_placed {lexemes : List Lexeme} {tokens : List Token}
    (h : lexemes.map Lexeme.token = tokens) : ∃ spans, lexemes = placed spans tokens := by
  subst h
  induction lexemes with
  | nil => exact ⟨fun _ => {}, rfl⟩
  | cons first rest ih =>
    obtain ⟨spans, hrest⟩ := ih
    refine ⟨fun index => index.casesOn first.span spans, ?_⟩
    exact congrArg (first :: ·) hrest

theorem exists_placed_eof {lexemes : List Lexeme} {tokens : List Token}
    (h : lexemes.map Lexeme.token = tokens ++ [.eof]) :
    ∃ spans span, lexemes = placed spans tokens ++ [⟨.eof, span⟩] := by
  obtain ⟨before, last, rfl, hbefore, hlast⟩ := List.map_eq_append_iff.1 h
  obtain ⟨⟨_, span⟩, rfl, rfl⟩ := List.map_eq_singleton_iff.1 hlast
  obtain ⟨spans, rfl⟩ := exists_placed hbefore
  exact ⟨spans, span, rfl⟩

/-- The tokens of a numeral: a minus sign is one of its own. -/
def numeralTokens (negative : Bool) (digits : String) : List Token :=
  if negative then [.sign .minus, .number digits] else [.number digits]

def numeralText (negative : Bool) (digits : String) : String :=
  if negative then "-" ++ digits else digits

def namingTokens (numeral : List Token) : List Token :=
  [.keyword .var, .identifier "R", .sign .colon, .identifier "INT64", .sign .semicolon,
    .keyword .const, .identifier "K", .sign .equal] ++ numeral ++
  [.sign .semicolon, .keyword .procedure, .identifier "MAIN", .sign .semicolon, .keyword .begin_,
    .identifier "R", .sign .assign, .identifier "K", .keyword .end_, .sign .dot]

def writingTokens (numeral : List Token) : List Token :=
  [.keyword .var, .identifier "R", .sign .colon, .identifier "INT64", .sign .semicolon,
    .keyword .procedure, .identifier "MAIN", .sign .semicolon, .keyword .begin_,
    .identifier "R", .sign .assign] ++ numeral ++ [.keyword .end_, .sign .dot]

private theorem ofName?_int64 : IntType.ofName? "INT64" = some .int64 := by
  decide +kernel

theorem assigns_naming {text : String} {number : Int64} (hread : Numeral.read? text = some number)
    (r k main target source : Place) :
    (Decls.plain (.vars [⟨"R", r⟩] .int64) (.plain (.const ⟨"K", k⟩ (.text text))
      (.nested (.named ⟨"MAIN", main⟩) .nil
        (.seq (.assign ⟨"R", target⟩ (.name ⟨"K", source⟩)) .skip) .nil))).Assigns
      (.number number) := by
  refine ⟨rfl, fun reached => ?_⟩
  simp [Tree.Program.resolve, Decls.resolve, Declaration.resolve, resolveNames, ConstValue.resolve,
    Heading.name?, Stmt.resolve, Expr.resolve, Core.Env.declare?, Core.Env.cell?, Core.Env.value?,
    Core.Env.find?, Core.Program.assigning, List.lookup_cons, List.findSome?_cons, hread]

theorem assigns_writing {value : Expr} {expr : Core.Expr}
    (hvalue : ∀ env, value.resolve env = some expr) (r main target : Place) :
    (Decls.plain (.vars [⟨"R", r⟩] .int64) (.nested (.named ⟨"MAIN", main⟩) .nil
      (.seq (.assign ⟨"R", target⟩ value) .skip) .nil)).Assigns expr := by
  refine ⟨rfl, fun reached => ?_⟩
  simp [Tree.Program.resolve, Decls.resolve, Declaration.resolve, resolveNames, Heading.name?,
    Stmt.resolve, Core.Env.declare?, Core.Env.cell?, Core.Env.find?, Core.Program.assigning,
    List.lookup_cons, List.findSome?_cons, hvalue]

theorem spells_naming {negative : Bool} {digits : String} {number : Int64}
    (hread : Numeral.read? (numeralText negative digits) = some number) (spans : Nat → Span) :
    ∃ decls : Decls, decls.Spells (placed spans (namingTokens (numeralTokens negative digits))) ∧
      decls.Assigns (.number number) := by
  cases negative with
  | false =>
    exact ⟨_, .plain (.vars ofName?_int64 .last) (.plain (.const .number) (.procedure
      (.nested .nil (.seq (.assign (.term (.factor .name))) .none .skip) .absent .nil) .present)),
      assigns_naming hread _ _ _ _ _⟩
  | true =>
    exact ⟨_, .plain (.vars ofName?_int64 .last) (.plain (.const .negative) (.procedure
      (.nested .nil (.seq (.assign (.term (.factor .name))) .none .skip) .absent .nil) .present)),
      assigns_naming hread _ _ _ _ _⟩

theorem spells_writing {digits : String} {magnitude : Int64}
    (hread : Numeral.read? digits = some magnitude) (negative : Bool) (spans : Nat → Span) :
    ∃ (decls : Decls) (expr : Core.Expr),
      decls.Spells (placed spans (writingTokens (numeralTokens negative digits))) ∧
      decls.Assigns expr ∧ expr.Folds (if negative then -magnitude else magnitude) := by
  cases negative with
  | false =>
    exact ⟨_, _, .plain (.vars ofName?_int64 .last) (.procedure (.nested .nil
      (.seq (.assign (.term (.factor (.number hread)))) .none .skip) .absent .nil) .present),
      assigns_writing (fun _ => rfl) _ _ _, Core.Expr.folds_number magnitude⟩
  | true =>
    exact ⟨_, _, .plain (.vars ofName?_int64 .last) (.procedure (.nested .nil
      (.seq (.assign (.term (.factor (.negate (.number hread))))) .none .skip) .absent .nil)
      .present), assigns_writing (fun _ => rfl) _ _ _, Core.Expr.folds_negate magnitude⟩

namespace Token

variable {digits : String} {number : Nat} {rest : List Char} {tokens : List Token}

theorem wellFormed_number (hdigits : Numeral.Unsigned [] digits.toList number)
    (hread : (Numeral.read? digits).isSome = true) : (Token.number digits).WellFormed :=
  ⟨hdigits.shape.1, hdigits.shape.2, hread⟩

theorem pieces_numeral (hdigits : Numeral.Unsigned [] digits.toList number)
    (hread : (Numeral.read? digits).isSome = true) (negative : Bool)
    (hstops : (Token.number digits).Stops rest) (hrest : Pieces rest tokens) :
    Pieces ((numeralText negative digits).toList ++ rest)
      (numeralTokens negative digits ++ tokens) := by
  have hnumber : Pieces (digits.toList ++ rest) (.number digits :: tokens) :=
    .token (wellFormed_number hdigits hread) String.ofList_toList hstops hrest
  cases negative with
  | false => exact hnumber
  | true =>
    have hsign : Pieces (['-'] ++ (digits.toList ++ rest))
        (.sign .minus :: .number digits :: tokens) :=
      .token trivial rfl (fun _ _ => rfl) hnumber
    rw [numeralText, if_pos rfl, String.toList_append, List.append_assoc]
    exact hsign

/-- Digits that cannot be read break off the scan. -/
theorem scanFrom_badDigits (hdigits : Numeral.Unsigned [] digits.toList number)
    (hread : Numeral.read? digits = none) (hstops : (Token.number digits).Stops rest)
    (position : Position) :
    scanFrom position (digits.toList ++ rest) = .error ⟨position.toPlace, .badNumber digits⟩ := by
  obtain ⟨hhead, hall⟩ := hdigits.shape
  obtain ⟨first, others, hchars⟩ : ∃ first others, digits.toList = first :: others := by
    cases hchars : digits.toList with
    | nil => simp [hchars] at hhead
    | cons first others => exact ⟨first, others, rfl⟩
  have htext : String.ofList (first :: others) = digits := by
    rw [← hchars, String.ofList_toList]
  simp only [hchars, List.head?_cons, Option.any_some, List.all_cons, Bool.and_eq_true,
    List.all_eq_true] at hhead hall
  obtain ⟨hblank, hcomment⟩ := not_or.1 (not_parts_of_isWordRest (isWordRest_of_isAlphanum hall.1))
  have hnext : next first (others ++ rest) = .error (.badNumber digits) := by
    unfold next
    rw [if_pos hhead]
    simp [takeWhile_of_stops hall.2 hstops rfl, htext, hread]
  rw [hchars, List.cons_append, scanFrom, if_neg hblank, if_neg hcomment, hnext]

theorem scanFrom_badNumber (hdigits : Numeral.Unsigned [] digits.toList number)
    (hread : Numeral.read? digits = none) (negative : Bool)
    (hstops : (Token.number digits).Stops rest) (position : Position) :
    ∃ place, scanFrom position ((numeralText negative digits).toList ++ rest) =
      .error ⟨place, .badNumber digits⟩ := by
  cases negative with
  | false => exact ⟨_, scanFrom_badDigits hdigits hread hstops position⟩
  | true =>
    have hsign : next '-' (digits.toList ++ rest) = .ok (.sign .minus, 0) := rfl
    rw [numeralText, if_pos rfl, String.toList_append, List.append_assoc]
    change ∃ place, scanFrom position ('-' :: (digits.toList ++ rest)) = _
    rw [scanFrom, if_neg (by decide), if_neg (by decide), hsign]
    simp only [List.drop_zero]
    rw [scanFrom_badDigits hdigits hread hstops]
    exact ⟨_, rfl⟩

variable {front back : String} {fronts backs : List Token}

theorem stops_blank (token : Token) (rest : List Char) : token.Stops (' ' :: rest) := by
  rintro _ ⟨⟩
  exact goesOn_of_parts token (.inl (by decide))

/-- A numeral between two texts, with a blank before it. -/
theorem pieces_around (hfront : Pieces front.toList (fronts ++ [.eof]))
    (hplain : '#' ∉ front.toList) (hback : Pieces back.toList backs)
    (hstops : ∀ char ∈ back.toList.head?, char.isAlphanum = false)
    (hdigits : Numeral.Unsigned [] digits.toList number)
    (hread : (Numeral.read? digits).isSome = true) (negative : Bool) :
    Pieces (front.toList ++ ' ' :: ((numeralText negative digits).toList ++ back.toList))
      (fronts ++ (numeralTokens negative digits ++ backs)) := by
  refine hfront.append hplain (fun token => stops_blank token _) (.blank (by decide) ?_)
  exact pieces_numeral hdigits hread negative hstops hback

theorem scan_around_badNumber (hfront : Pieces front.toList (fronts ++ [.eof]))
    (hplain : '#' ∉ front.toList)
    (hstops : ∀ char ∈ back.toList.head?, char.isAlphanum = false)
    (hdigits : Numeral.Unsigned [] digits.toList number) (hread : Numeral.read? digits = none)
    (negative : Bool) :
    ∃ place, scanFrom {} (front.toList ++ ' ' :: ((numeralText negative digits).toList ++
      back.toList)) = .error ⟨place, .badNumber digits⟩ := by
  obtain ⟨lexemes, hlexemes, -⟩ := hfront []
  obtain ⟨place, hplace⟩ := scanFrom_badNumber hdigits hread negative hstops
    ((Position.behind ([] ++ front.toList)).after ' ')
  refine ⟨place, hlexemes.append_error hplain (fun token => stops_blank token _) ?_⟩
  rw [scanFrom, if_pos (by decide)]
  exact hplace

/-- The texts around a numeral in a program, and their tokens. -/
structure Around (source : String → String) (frame : List Token → List Token) : Prop where
  found : ∀ (digits : String) (number : Nat), Numeral.Unsigned [] digits.toList number →
    (Numeral.read? digits).isSome = true → ∀ negative, ∃ lexemes,
      scan (source (numeralText negative digits)) = .ok lexemes ∧
        lexemes.map Lexeme.token = frame (numeralTokens negative digits) ++ [.eof]
  broken : ∀ (digits : String) (number : Nat), Numeral.Unsigned [] digits.toList number →
    Numeral.read? digits = none → ∀ negative, ∃ place,
      scan (source (numeralText negative digits)) = .error ⟨place, .badNumber digits⟩

theorem around_of_scan {source : String → String} (front back : String) {fronts backs : List Token}
    (hsource : ∀ numeral, source numeral = front ++ " " ++ numeral ++ back)
    (hfront : (scan front).map (List.map Lexeme.token) = .ok (fronts ++ [.eof]))
    (hplain : '#' ∉ front.toList)
    (hback : (scan back).map (List.map Lexeme.token) = .ok (backs ++ [.eof]))
    (hbacks : back.toList.head?.all (!·.isAlphanum) = true) :
    Around source fun numeral => fronts ++ numeral ++ backs := by
  have hstops : ∀ char ∈ back.toList.head?, char.isAlphanum = false := by
    simpa [Option.all_eq_true] using hbacks
  have hchars (numeral : String) : (source numeral).toList =
      front.toList ++ ' ' :: (numeral.toList ++ back.toList) := by
    rw [hsource]
    simp
  refine ⟨fun digits number hdigits hread negative => ?_,
    fun digits number hdigits hread negative => ?_⟩
  · have hpieces := pieces_around (pieces_of_scan hfront) hplain (pieces_of_scan hback) hstops
      hdigits hread negative
    rw [← hchars] at hpieces
    obtain ⟨lexemes, hscan, htokens⟩ := hpieces.scan
    exact ⟨lexemes, hscan, by simpa using htokens⟩
  · have hbroken :=
      scan_around_badNumber (pieces_of_scan hfront) hplain hstops hdigits hread negative
    rwa [← hchars] at hbroken

theorem around_naming : Around namingConstant namingTokens := by
  have hfront : "VAR R: INT64; CONST K = " = "VAR R: INT64; CONST K =" ++ " " := by decide +kernel
  have hsource (numeral : String) : namingConstant numeral =
      "VAR R: INT64; CONST K =" ++ " " ++ numeral ++ "; PROCEDURE MAIN; BEGIN R := K END." :=
    congrArg (· ++ numeral ++ "; PROCEDURE MAIN; BEGIN R := K END.") hfront
  exact around_of_scan _ _ hsource (by decide +kernel) (by decide +kernel) (by decide +kernel)
    (by decide +kernel)

theorem around_writing : Around writingConstant writingTokens := by
  have hfront : "VAR R: INT64; PROCEDURE MAIN; BEGIN R := " =
      "VAR R: INT64; PROCEDURE MAIN; BEGIN R :=" ++ " " := by decide +kernel
  have hsource (numeral : String) : writingConstant numeral =
      "VAR R: INT64; PROCEDURE MAIN; BEGIN R :=" ++ " " ++ numeral ++ " END." :=
    congrArg (· ++ numeral ++ " END.") hfront
  exact around_of_scan _ _ hsource (by decide +kernel) (by decide +kernel) (by decide +kernel)
    (by decide +kernel)

end Token

/-- A unit with a number that cannot be read. -/
theorem outcome_of_scan_error {source digits : String} {place : Place}
    (h : Token.scan source = .error ⟨place, .badNumber digits⟩) (file : String)
    (scrutiny : Scrutiny) :
    ∃ location, outcome (compile file source scrutiny) =
      .error (.error (.unreadable location (Token.ScanCause.badNumber digits).message)) := by
  refine ⟨(Location.top file).movedTo place, ?_⟩
  rw [outcome_compile, readUnit_unreadable h]

section

variable {digits : String} {number : Nat} {value : Int64} {negative : Bool}

theorem stores_naming (hdigits : Numeral.Unsigned [] digits.toList number)
    (hread : (Numeral.read? digits).isSome = true)
    (hvalue : Numeral.read? (numeralText negative digits) = some value) (file : String)
    (scrutiny : Scrutiny) :
    ∃ code, outcome (compile file (namingConstant (numeralText negative digits)) scrutiny) =
      .ok code ∧ code.OnlyStores "R" value := by
  obtain ⟨lexemes, hscan, htokens⟩ :=
    Token.around_naming.found digits number hdigits hread negative
  obtain ⟨spans, span, rfl⟩ := exists_placed_eof htokens
  obtain ⟨decls, hspells, hassigns⟩ := spells_naming hvalue spans
  exact outcome_of_assigns hscan hspells hassigns (Core.Expr.folds_number value) file scrutiny

theorem stores_writing {magnitude : Int64} (hdigits : Numeral.Unsigned [] digits.toList number)
    (hread : Numeral.read? digits = some magnitude) (negative : Bool) (file : String)
    (scrutiny : Scrutiny) :
    ∃ code, outcome (compile file (writingConstant (numeralText negative digits)) scrutiny) =
      .ok code ∧ code.OnlyStores "R" (if negative then -magnitude else magnitude) := by
  obtain ⟨lexemes, hscan, htokens⟩ :=
    Token.around_writing.found digits number hdigits (by rw [hread]; rfl) negative
  obtain ⟨spans, span, rfl⟩ := exists_placed_eof htokens
  obtain ⟨decls, expr, hspells, hassigns, hfolds⟩ := spells_writing hread negative spans
  exact outcome_of_assigns hscan hspells hassigns hfolds file scrutiny

end

namespace Numeral

/-- A number in decimal digits. -/
def decimal (value : Int64) : String :=
  toString value.toInt

/-- A number in hexadecimal digits, behind their mark. -/
def hexadecimal (value : Int64) : String :=
  (if value.toInt < 0 then "-0x" else "0x") ++ String.ofList (Nat.toDigits 16 value.toInt.natAbs)

theorem decimal_spelling (value : Int64) :
    decimal value = numeralText (value.toInt < 0) (toString value.toInt.natAbs) ∧
      Unsigned [] (toString value.toInt.natAbs).toList value.toInt.natAbs := by
  refine ⟨?_, ?_⟩
  · unfold decimal numeralText
    cases value.toInt with
    | ofNat number => rfl
    | negSucc number => rw [if_pos (decide_eq_true (Int.negSucc_lt_zero number))]; rfl
  · rw [Nat.toString_eq_ofList_toDigits, String.toList_ofList]
    exact .decimal (counts_toDigits (by decide) _)

theorem hexadecimal_spelling (value : Int64) :
    hexadecimal value =
        numeralText (value.toInt < 0) ("0x" ++ String.ofList (Nat.toDigits 16 value.toInt.natAbs)) ∧
      Unsigned [] ("0x" ++ String.ofList (Nat.toDigits 16 value.toInt.natAbs)).toList
        value.toInt.natAbs := by
  refine ⟨?_, ?_⟩
  · unfold hexadecimal numeralText
    simp only [decide_eq_true_eq]
    split
    next =>
      rw [← String.append_assoc]
      rfl
    next => rfl
  · have hchars : ("0x" ++ String.ofList (Nat.toDigits 16 value.toInt.natAbs)).toList =
        '0' :: 'x' :: ([] ++ Nat.toDigits 16 value.toInt.natAbs) := by
      simp
    rw [hchars]
    exact .hexadecimal (.inl rfl) (counts_toDigits (by decide) _)

end Numeral

/-- The source is taken in, and its code stores `value` in `R` and nothing else. -/
def Stores (file source : String) (scrutiny : Scrutiny) (value : Int64) : Prop :=
  ∃ code, outcome (compile file source scrutiny) = .ok code ∧ code.OnlyStores "R" value

/-- The source has a number that is too large. -/
def Oversized (file source : String) (scrutiny : Scrutiny) : Prop :=
  ∃ location digits, outcome (compile file source scrutiny) =
    .error (.error (.unreadable location (Token.ScanCause.badNumber digits).message))

theorem not_stores_of_oversized {file source : String} {scrutiny : Scrutiny} {value : Int64}
    (h : Oversized file source scrutiny) : ¬Stores file source scrutiny value := by
  rintro ⟨code, hcode, -⟩
  obtain ⟨location, digits, hfailed⟩ := h
  rw [hcode] at hfailed
  cases hfailed

/-- The least of all numbers has no sign of its own, and without one it is too large. -/
theorem natAbs_lt_iff (value : Int64) : value.toInt.natAbs < 2 ^ 63 ↔ value ≠ Int64.minValue := by
  have hlow := value.le_toInt
  have hhigh := value.toInt_lt
  have hmin : value = Int64.minValue ↔ value.toInt = -2 ^ 63 := by
    rw [← Int64.toInt_inj]
    rfl
  rw [ne_eq, hmin]
  omega

section

variable {value : Int64} {digits : String}

theorem read?_numeralText (hdigits : Numeral.Unsigned [] digits.toList value.toInt.natAbs) :
    Numeral.read? (numeralText (value.toInt < 0) digits) = some value := by
  refine Numeral.read?_iff_signed.2 (.inl ?_)
  unfold numeralText
  split
  next hnegative =>
    have hvalue : value.toInt = -(value.toInt.natAbs : Int) := by
      have hlt : value.toInt < 0 := of_decide_eq_true hnegative
      omega
    rw [hvalue, String.toList_append]
    exact .negative hdigits
  next hpositive =>
    have hvalue : value.toInt = (value.toInt.natAbs : Int) := by
      have hle : ¬value.toInt < 0 := fun hlt => hpositive (decide_eq_true hlt)
      omega
    rw [hvalue]
    exact .positive hdigits

theorem signed_natAbs (value : Int64) :
    (if decide (value.toInt < 0) = true then -(Int64.ofInt value.toInt.natAbs)
      else Int64.ofInt value.toInt.natAbs) = value := by
  simp only [decide_eq_true_eq]
  split
  next hnegative =>
    rw [← Int64.ofInt_neg, Int.ofNat_natAbs_of_nonpos (by omega), Int.neg_neg, value.ofInt_toInt]
  next hpositive => rw [Int.natAbs_of_nonneg (by omega), value.ofInt_toInt]

/-- A constant given by its sign and by digits for its magnitude. -/
theorem stores_of_digits (hdigits : Numeral.Unsigned [] digits.toList value.toInt.natAbs)
    (hvalue : value ≠ Int64.minValue) (file : String) (scrutiny : Scrutiny) :
    Stores file (namingConstant (numeralText (value.toInt < 0) digits)) scrutiny value ∧
      Stores file (writingConstant (numeralText (value.toInt < 0) digits)) scrutiny value := by
  have hread : Numeral.read? digits = some (.ofInt value.toInt.natAbs) :=
    Numeral.read?_unsigned hdigits ((natAbs_lt_iff value).2 hvalue)
  refine ⟨stores_naming hdigits (by rw [hread]; rfl) (read?_numeralText hdigits) file scrutiny, ?_⟩
  have hwriting := stores_writing hdigits hread (value.toInt < 0) file scrutiny
  rwa [signed_natAbs] at hwriting

theorem oversized_of_digits (hdigits : Numeral.Unsigned [] digits.toList value.toInt.natAbs)
    (hvalue : value = Int64.minValue) (file : String) (scrutiny : Scrutiny) :
    Oversized file (namingConstant (numeralText (value.toInt < 0) digits)) scrutiny ∧
      Oversized file (writingConstant (numeralText (value.toInt < 0) digits)) scrutiny := by
  have hread : Numeral.read? digits = none :=
    Numeral.read?_unsigned_eq_none hdigits (not_lt.1 fun hlt => (natAbs_lt_iff value).1 hlt hvalue)
  obtain ⟨_, hnaming⟩ := Token.around_naming.broken digits _ hdigits hread (value.toInt < 0)
  obtain ⟨_, hwriting⟩ := Token.around_writing.broken digits _ hdigits hread (value.toInt < 0)
  obtain ⟨first, hfirst⟩ := outcome_of_scan_error hnaming file scrutiny
  obtain ⟨second, hsecond⟩ := outcome_of_scan_error hwriting file scrutiny
  exact ⟨⟨first, digits, hfirst⟩, second, digits, hsecond⟩

end

/-- Every 64-bit number but the least one can be given as a constant, in decimal and in
hexadecimal digits, where it is stored or under a name. The least one cannot: a sign is no part
of a number's token, and the digits behind it are too large. -/
theorem constants_stored (file : String) (scrutiny : Scrutiny) (value : Int64)
    (numeral source : String)
    (hnumeral : numeral ∈ [Numeral.decimal value, Numeral.hexadecimal value])
    (hsource : source ∈ [namingConstant numeral, writingConstant numeral]) :
    (Stores file source scrutiny value ↔ value ≠ Int64.minValue) ∧
      (value = Int64.minValue → Oversized file source scrutiny) := by
  obtain ⟨digits, rfl, hdigits⟩ : ∃ digits, numeral = numeralText (value.toInt < 0) digits ∧
      Numeral.Unsigned [] digits.toList value.toInt.natAbs := by
    rcases List.mem_pair.1 hnumeral with rfl | rfl
    · exact ⟨_, Numeral.decimal_spelling value⟩
    · exact ⟨_, Numeral.hexadecimal_spelling value⟩
  have hstores (hvalue : value ≠ Int64.minValue) : Stores file source scrutiny value := by
    obtain ⟨hnaming, hwriting⟩ := stores_of_digits hdigits hvalue file scrutiny
    rcases List.mem_pair.1 hsource with rfl | rfl
    · exact hnaming
    · exact hwriting
  have hoversized (hvalue : value = Int64.minValue) : Oversized file source scrutiny := by
    obtain ⟨hnaming, hwriting⟩ := oversized_of_digits hdigits hvalue file scrutiny
    rcases List.mem_pair.1 hsource with rfl | rfl
    · exact hnaming
    · exact hwriting
  exact ⟨⟨fun h hvalue => not_stores_of_oversized (hoversized hvalue) h, hstores⟩, hoversized⟩

theorem hexConstant_stored :
    Numeral.hexadecimal (-255) = "-0xff" ∧
      Stores "unit" (namingConstant "-0xff") .all (-255) := by
  have hnumeral : Numeral.hexadecimal (-255) = "-0xff" := by decide +kernel
  have hstored := constants_stored "unit" .all (-255) "-0xff" (namingConstant "-0xff")
    (by simp [hnumeral]) List.mem_cons_self
  exact ⟨hnumeral, hstored.1.2 (by decide)⟩

theorem leastConstant_lost :
    Numeral.decimal Int64.minValue = "-9223372036854775808" ∧
      ¬Stores "unit" (namingConstant "-9223372036854775808") .none Int64.minValue ∧
      ¬Stores "unit" (writingConstant "-9223372036854775808") .none Int64.minValue := by
  have hnumeral : Numeral.decimal Int64.minValue = "-9223372036854775808" := by decide +kernel
  obtain ⟨hspelling, hdigits⟩ := Numeral.decimal_spelling Int64.minValue
  obtain ⟨hnaming, hwriting⟩ := oversized_of_digits hdigits rfl "unit" .none
  rw [← hspelling, hnumeral] at hnaming hwriting
  exact ⟨hnumeral, not_stores_of_oversized hnaming, not_stores_of_oversized hwriting⟩

end BlockLang
