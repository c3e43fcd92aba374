import BlockLang.Numeral
import BlockLang.Tree

/-! Reading trees from tokens. Every reader looks one token ahead and leaves no more
tokens than it was given. After a mistake nothing is left. -/

namespace BlockLang.Tree

/-- The tokens still to be read. The end of input follows them, and is never passed. -/
structure Ahead where
  tokens : List Lexeme
  /-- Where the input ends. -/
  stop : Place
  /-- The place of the last token read. -/
  reached : Option Place := none
  deriving Repr, DecidableEq

namespace Ahead

def peek (ahead : Ahead) : Token :=
  (ahead.tokens.head?.map Lexeme.token).getD .eof

/-- Where the next token stands. -/
def place (ahead : Ahead) : Place :=
  (ahead.tokens.head?.map fun lexeme => lexeme.span.toPlace).getD ahead.stop

def skip (ahead : Ahead) : Ahead :=
  { ahead with tokens := ahead.tokens.tail, reached := some ahead.place }

/-- Nothing more is read. -/
def drop (ahead : Ahead) : Ahead :=
  { ahead with tokens := [] }

def reachedAt (ahead : Ahead) (place : Place) : Ahead :=
  { ahead with reached := some place }

theorem skip_le (ahead : Ahead) : ahead.skip.tokens.length ≤ ahead.tokens.length := by
  simp [skip]

theorem skip_lt (ahead : Ahead) (h : ahead.peek ≠ .eof) :
    ahead.skip.tokens.length < ahead.tokens.length := by
  cases ht : ahead.tokens with
  | nil => simp [peek, ht] at h
  | cons first rest => simp [skip, ht]

theorem drop_le (ahead : Ahead) (bound : Nat) : ahead.drop.tokens.length ≤ bound := by
  simp [drop]

theorem drop_lt (ahead : Ahead) (h : ahead.peek ≠ .eof) :
    ahead.drop.tokens.length < ahead.tokens.length := by
  cases ht : ahead.tokens with
  | nil => simp [peek, ht] at h
  | cons first rest => simp [drop]

/-- What can be left over from `ahead`. -/
abbrev Left (ahead : Ahead) := { left : Ahead // left.tokens.length ≤ ahead.tokens.length }

/-- What is left over from `ahead` once something was read. -/
abbrev Less (ahead : Ahead) := { left : Ahead // left.tokens.length < ahead.tokens.length }

/-- The next token cannot stand here. -/
def refuse (ahead : Ahead) (cause : Cause) : Mistake :=
  ⟨ahead.place, cause, ahead.reached⟩

/-- The next token was read, and cannot stand here. -/
def reject (ahead : Ahead) (cause : Cause) : Mistake :=
  ⟨ahead.place, cause, some ahead.place⟩

def expect (ahead : Ahead) (token : Token) : Except Mistake Unit :=
  if ahead.peek = token then .ok () else .error (ahead.refuse (.expected token ahead.peek))

def identifier (ahead : Ahead) : Except Mistake Ident :=
  match ahead.peek with
  | .identifier name => .ok ⟨name, ahead.place⟩
  | found => .error (ahead.refuse (.expectedIdentifier found))

def typeName (ahead : Ahead) : Except Mistake IntType := do
  let ident ← ahead.identifier
  match IntType.ofName? ident.name with
  | some type => return type
  | none => throw (ahead.reject (.unknownType ident.name))

end Ahead

open Ahead

def Operator.ofAdding? : Token → Option Operator
  | .sign .plus => some .add
  | .sign .minus => some .sub
  | _ => none

def Operator.ofMultiplying? : Token → Option Operator
  | .sign .star => some .mul
  | .sign .slash => some .div
  | .keyword .mod => some .rem
  | _ => none

def Comparison.ofToken? : Token → Option Comparison
  | .sign .equal => some .equal
  | .sign .notEqual => some .notEqual
  | .sign .less => some .less
  | .sign .lessEqual => some .lessEqual
  | .sign .greater => some .greater
  | .sign .greaterEqual => some .greaterEqual
  | _ => none

theorem Operator.ne_eof_of_ofAdding? {token : Token} {op : Operator}
    (h : ofAdding? token = some op) : token ≠ .eof := by
  rintro rfl; simp [ofAdding?] at h

theorem Operator.ne_eof_of_ofMultiplying? {token : Token} {op : Operator}
    (h : ofMultiplying? token = some op) : token ≠ .eof := by
  rintro rfl; simp [ofMultiplying?] at h

mutual

def readFactor (ahead : Ahead) : Expr × Left ahead :=
  match h : ahead.peek with
  | .number text =>
    match Numeral.read? text with
    | some value => (.number value, ⟨ahead.skip, ahead.skip_le⟩)
    | none => (.missing (ahead.reject (.badNumber text)), ⟨ahead.drop, ahead.drop_le _⟩)
  | .identifier name => (.name ⟨name, ahead.place⟩, ⟨ahead.skip, ahead.skip_le⟩)
  | .sign .leftParen =>
    have shorter := ahead.skip_lt (by simp [h])
    let (inner, ⟨left, hleft⟩) := readExpr ahead.skip
    match left.expect (.sign .rightParen) with
    | .ok _ => (inner, ⟨left.skip, by have := left.skip_le; omega⟩)
    | .error mistake => (.unclosed inner mistake, ⟨left.drop, left.drop_le _⟩)
  | .sign .minus =>
    have shorter := ahead.skip_lt (by simp [h])
    let (operand, ⟨left, hleft⟩) := readFactor ahead.skip
    (.negate operand, ⟨left, by omega⟩)
  | found => (.missing (ahead.reject (.expectedExpression found)), ⟨ahead.drop, ahead.drop_le _⟩)
termination_by 5 * ahead.tokens.length

/-- Multiplying operators group to the left. -/
def readFactors (first : Expr) (ahead : Ahead) : Expr × Left ahead :=
  match h : Operator.ofMultiplying? ahead.peek with
  | some op =>
    have shorter := ahead.skip_lt (Operator.ne_eof_of_ofMultiplying? h)
    let (second, ⟨left, hleft⟩) := readFactor ahead.skip
    let (result, ⟨last, hlast⟩) := readFactors (.binary op first second) left
    (result, ⟨last, by omega⟩)
  | none => (first, ⟨ahead, Nat.le_refl _⟩)
termination_by 5 * ahead.tokens.length + 1

def readTerm (ahead : Ahead) : Expr × Left ahead :=
  let (first, ⟨left, hleft⟩) := readFactor ahead
  let (result, ⟨last, hlast⟩) := readFactors first left
  (result, ⟨last, by omega⟩)
termination_by 5 * ahead.tokens.length + 2

/-- Adding operators group to the left. -/
def readTerms (first : Expr) (ahead : Ahead) : Expr × Left ahead :=
  match h : Operator.ofAdding? ahead.peek with
  | some op =>
    have shorter := ahead.skip_lt (Operator.ne_eof_of_ofAdding? h)
    let (second, ⟨left, hleft⟩) := readTerm ahead.skip
    let (result, ⟨last, hlast⟩) := readTerms (.binary op first second) left
    (result, ⟨last, by omega⟩)
  | none => (first, ⟨ahead, Nat.le_refl _⟩)
termination_by 5 * ahead.tokens.length + 3

def readExpr (ahead : Ahead) : Expr × Left ahead :=
  let (first, ⟨left, hleft⟩) := readTerm ahead
  let (result, ⟨last, hlast⟩) := readTerms first left
  (result, ⟨last, by omega⟩)
termination_by 5 * ahead.tokens.length + 4

end

/-- A comparison and the word that has to follow it. -/
def readCond (word : Keyword) (ahead : Ahead) : Cond × Left ahead :=
  let (left, ⟨after, hafter⟩) := readExpr ahead
  match Comparison.ofToken? after.peek with
  | none =>
    (.half left (after.refuse (.expectedComparison after.peek)), ⟨after.drop, after.drop_le _⟩)
  | some op =>
    let (right, ⟨last, hlast⟩) := readExpr after.skip
    have := after.skip_le
    match last.expect (.keyword word) with
    | .ok _ => (.compare op left right, ⟨last.skip, by have := last.skip_le; omega⟩)
    | .error mistake => (.unfollowed op left right mistake, ⟨last.drop, last.drop_le _⟩)

def readConstValue (ahead : Ahead) : Except Mistake (ConstValue × Left ahead) :=
  match ahead.peek with
  | .number text | .string text => .ok (.text text, ⟨ahead.skip, ahead.skip_le⟩)
  | .sign .minus =>
    match ahead.skip.peek with
    | .number text =>
      .ok (.text ("-" ++ text), ⟨ahead.skip.skip, Nat.le_trans ahead.skip.skip_le ahead.skip_le⟩)
    | found => .error (ahead.skip.reject (.expectedNumber found))
  | .identifier name => .ok (.copy ⟨name, ahead.place⟩, ⟨ahead.skip, ahead.skip_le⟩)
  | found => .error (ahead.reject (.expectedConstant found))

/-- The rest of a constant's declaration. -/
def readConst (ahead : Ahead) : Except Mistake (Declaration × Left ahead) := do
  let name ← ahead.identifier
  ahead.skip.expect (.sign .equal)
  let (value, ⟨left, hleft⟩) ← readConstValue ahead.skip.skip
  have := ahead.skip_le
  have := ahead.skip.skip_le
  match left.expect (.sign .semicolon), value with
  | .ok _, _ =>
    return (.const name value,
      ⟨left.skip.reachedAt name.place, by have := left.skip_le; simp only [reachedAt]; omega⟩)
  | .error mistake, .copy source =>
    return (.unendedCopy source mistake, ⟨left.drop, left.drop_le _⟩)
  | .error mistake, .text _ => throw mistake

/-- One or more names with commas between them. -/
def readNames (ahead : Ahead) : Except Mistake (List Ident × Left ahead) :=
  match ahead.identifier with
  | .error mistake => .error mistake
  | .ok name =>
    have := ahead.skip_le
    if h : ahead.skip.peek = .sign .comma then
      have shorter := ahead.skip.skip_lt (by simp [h])
      match readNames ahead.skip.skip with
      | .ok (names, ⟨left, hleft⟩) => .ok (name :: names, ⟨left, by omega⟩)
      | .error mistake => .error mistake
    else .ok ([name], ⟨ahead.skip, ahead.skip_le⟩)
termination_by ahead.tokens.length

/-- The rest of a declaration of variables. -/
def readVars (ahead : Ahead) : Except Mistake (Declaration × Left ahead) := do
  let (names, ⟨left, hleft⟩) ← readNames ahead
  left.expect (.sign .colon)
  let type ← left.skip.typeName
  left.skip.skip.expect (.sign .semicolon)
  let last := (names.getLast?.map Ident.place).getD ahead.place
  return (.vars names type, ⟨left.skip.skip.skip.reachedAt last, by
    have := left.skip_le
    have := left.skip.skip_le
    have := left.skip.skip.skip_le
    simp only [reachedAt]
    omega⟩)

/-- A constant or variables, if they come next. -/
def readDeclaration? (ahead : Ahead) : Option (Declaration × Less ahead) :=
  let read (reader : (ahead : Ahead) → Except Mistake (Declaration × Left ahead))
      (h : ahead.peek ≠ .eof) : Declaration × Less ahead :=
    match reader ahead.skip with
    | .ok (declaration, ⟨left, hleft⟩) =>
      (declaration, ⟨left, Nat.lt_of_le_of_lt hleft (ahead.skip_lt h)⟩)
    | .error mistake => (.stop mistake, ⟨ahead.drop, ahead.drop_lt h⟩)
  if h : ahead.peek = .keyword .const then some (read readConst (by simp [h]))
  else if h : ahead.peek = .keyword .var then some (read readVars (by simp [h]))
  else none

def readDeclarations (ahead : Ahead) : List Declaration × Left ahead :=
  match readDeclaration? ahead with
  | none => ([], ⟨ahead, Nat.le_refl _⟩)
  | some (declaration, ⟨left, hleft⟩) =>
    let (rest, ⟨last, hlast⟩) := readDeclarations left
    (declaration :: rest, ⟨last, by omega⟩)
termination_by ahead.tokens.length

/-- The `END` of a body that has been read. -/
def closeBody (body : Stmt) (ahead : Ahead) : Stmt × Left ahead :=
  match ahead.expect (.keyword .end_) with
  | .ok _ => (body, ⟨ahead.skip, ahead.skip_le⟩)
  | .error mistake => (.seq body (.stop mistake), ⟨ahead.drop, ahead.drop_le _⟩)

def skipSemicolons (ahead : Ahead) : Left ahead :=
  if h : ahead.peek = .sign .semicolon then
    have shorter := ahead.skip_lt (by simp [h])
    let ⟨left, hleft⟩ := skipSemicolons ahead.skip
    ⟨left, by omega⟩
  else ⟨ahead, Nat.le_refl _⟩
termination_by ahead.tokens.length

/-- Whether statements stop before this token. -/
def endsBody : Token → Bool
  | .keyword .end_ | .keyword .else_ | .eof => true
  | _ => false

mutual

def readStmt (ahead : Ahead) (more : ahead.peek ≠ .eof) : Stmt × Less ahead :=
  have shorter := ahead.skip_lt more
  match ahead.peek with
  | .identifier name =>
    if ahead.skip.peek = .sign .assign then
      let (value, ⟨left, hleft⟩) := readExpr ahead.skip.skip
      (.assign ⟨name, ahead.place⟩ value, ⟨left, by have := ahead.skip.skip_le; omega⟩)
    else (.call ⟨name, ahead.place⟩, ⟨ahead.skip, shorter⟩)
  | .keyword .call =>
    match ahead.skip.identifier with
    | .ok callee => (.call callee, ⟨ahead.skip.skip, by have := ahead.skip.skip_le; omega⟩)
    | .error mistake => (.stop mistake, ⟨ahead.drop, ahead.drop_lt more⟩)
  | .keyword .if_ =>
    let (condition, ⟨afterCond, hcond⟩) := readCond .then_ ahead.skip
    let (yes, ⟨afterYes, hyes⟩) := readStmts afterCond
    if afterYes.peek = .keyword .else_ then
      have := afterYes.skip_le
      let (no, ⟨afterNo, hno⟩) := readStmts afterYes.skip
      let (no, ⟨last, hlast⟩) := closeBody no afterNo
      (.branch condition yes no, ⟨last, by omega⟩)
    else
      let (no, ⟨last, hlast⟩) := closeBody .skip afterYes
      (.branch condition yes no, ⟨last, by omega⟩)
  | .keyword .while_ =>
    let (condition, ⟨afterCond, hcond⟩) := readCond .do_ ahead.skip
    let (body, ⟨afterBody, hbody⟩) := readStmts afterCond
    let (body, ⟨last, hlast⟩) := closeBody body afterBody
    (.loop condition body, ⟨last, by omega⟩)
  | .keyword .return_ => (.ret, ⟨ahead.skip, shorter⟩)
  | .keyword .begin_ =>
    let (locals, ⟨afterLocals, hlocals⟩) := readDeclarations ahead.skip
    let (body, ⟨afterBody, hbody⟩) := readStmts afterLocals
    let (body, ⟨last, hlast⟩) := closeBody body afterBody
    (.block locals body, ⟨last, by omega⟩)
  | found => (.stop (ahead.refuse (.expectedStatement found)), ⟨ahead.drop, ahead.drop_lt more⟩)
termination_by 2 * ahead.tokens.length

/-- Statements up to a token that ends a body, any number of semicolons after each. -/
def readStmts (ahead : Ahead) : Stmt × Left ahead :=
  if h : endsBody ahead.peek then (.skip, ⟨ahead, Nat.le_refl _⟩)
  else
    let (first, ⟨afterFirst, hfirst⟩) :=
      readStmt ahead (by rintro heof; simp [heof, endsBody] at h)
    let ⟨next, hnext⟩ := skipSemicolons afterFirst
    let (second, ⟨last, hlast⟩) := readStmts next
    (.seq first second, ⟨last, by omega⟩)
termination_by 2 * ahead.tokens.length + 1

end

mutual

/-- A procedure's declaration after its keyword. -/
def readProcedure (ahead : Ahead) : Heading × Decls × Stmt × Left ahead :=
  match ahead.identifier with
  | .error mistake => (.unnamed mistake, .nil, .skip, ⟨ahead.drop, ahead.drop_le _⟩)
  | .ok name =>
    match ahead.skip.expect (.sign .semicolon) with
    | .error mistake => (.unended name mistake, .nil, .skip, ⟨ahead.drop, ahead.drop_le _⟩)
    | .ok _ =>
      have := ahead.skip_le
      have := ahead.skip.skip_le
      let (locals, ⟨afterLocals, hlocals⟩) := readDecls ahead.skip.skip
      match afterLocals.expect (.keyword .begin_) with
      | .error mistake =>
        (.named name, locals, .stop mistake, ⟨afterLocals.drop, afterLocals.drop_le _⟩)
      | .ok _ =>
        have := afterLocals.skip_le
        let (body, ⟨afterBody, hbody⟩) := readStmts afterLocals.skip
        let (body, ⟨last, hlast⟩) := closeBody body afterBody
        have := last.skip_le
        if last.peek = .sign .semicolon then (.named name, locals, body, ⟨last.skip, by omega⟩)
        else (.named name, locals, body, ⟨last, by omega⟩)
termination_by 2 * ahead.tokens.length + 2

def readDecls (ahead : Ahead) : Decls × Left ahead :=
  match readDeclaration? ahead with
  | some (declaration, ⟨left, hleft⟩) =>
    let (rest, ⟨last, hlast⟩) := readDecls left
    (.plain declaration rest, ⟨last, by omega⟩)
  | none =>
    if h : ahead.peek = .keyword .procedure then
      have shorter := ahead.skip_lt (by simp [h])
      let (heading, locals, body, ⟨left, hleft⟩) := readProcedure ahead.skip
      let (rest, ⟨last, hlast⟩) := readDecls left
      (.nested heading locals body rest, ⟨last, by omega⟩)
    else (.nil, ⟨ahead, Nat.le_refl _⟩)
termination_by 2 * ahead.tokens.length + 1

end

/-- Constants and variables, one procedure, an optional full stop and the end. -/
def readProgram (ahead : Ahead) : Program :=
  match readDeclaration? ahead with
  | some (declaration, ⟨left, _⟩) =>
    let rest := readProgram left
    { rest with decls := .plain declaration rest.decls }
  | none =>
    if ahead.peek = .keyword .procedure then
      let (heading, locals, body, ⟨left, _⟩) := readProcedure ahead.skip
      let last := if left.peek = .sign .dot then left.skip else left
      let rest : Decls :=
        if last.peek = .eof then .nil else .stop (last.refuse (.expectedEnd last.peek))
      ⟨.nested heading locals body rest, last.reached⟩
    else ⟨.stop (ahead.refuse .noProcedure), ahead.reached⟩
termination_by ahead.tokens.length

/-- The end of input is where the last token stands, whether or not it is the end. -/
def Ahead.ofTokens (tokens : List Lexeme) : Ahead :=
  let stop := (tokens.getLast?.map fun lexeme => lexeme.span.toPlace).getD {}
  let ended := (tokens.getLast?.map Lexeme.token) = some .eof
  { tokens := if ended then tokens.dropLast else tokens, stop }

def Program.ofTokens (tokens : List Lexeme) : Program :=
  readProgram (.ofTokens tokens)

end BlockLang.Tree
