import BlockLang.Numeral
import BlockLang.Text.Basic
import BlockLang.Token

/-! From characters to tokens. Each step takes the longest token that starts at
the next character; blanks separate tokens, and `#` starts a comment that runs to
the end of its line. -/

namespace BlockLang

namespace Token

inductive ScanCause where
  | badNumber (text : String)
  | unclosedString
  | strayCharacter (char : Char)
  deriving Repr, DecidableEq

def ScanCause.message : ScanCause → String
  | badNumber text => "Invalid number literal: '" ++ text ++ "'"
  | unclosedString => "Unclosed string literal"
  | strayCharacter char => "Unexpected character: '" ++ char.toString ++ "'"

/-- What went wrong, and where the token at fault starts. -/
structure ScanError where
  place : Place
  cause : ScanCause
  deriving Repr, DecidableEq

def isWordStart (char : Char) : Bool := char.isAlpha || char == '_'

def isWordRest (char : Char) : Bool := char.isAlphanum || char == '_'

def isStringChar (char : Char) : Bool := char != '"' && char != '\n'

/-- Signs of one character, apart from those that can start a longer one. -/
def singleSign? : Char → Option Sign
  | '=' => some .equal
  | '+' => some .plus
  | '-' => some .minus
  | '*' => some .star
  | '/' => some .slash
  | '(' => some .leftParen
  | ')' => some .rightParen
  | ';' => some .semicolon
  | ',' => some .comma
  | '.' => some .dot
  | _ => none

/-- The longest sign that starts with `first`, and how many characters of `rest`
belong to it. -/
def sign? (first : Char) (rest : List Char) : Option (Sign × Nat) :=
  match first, rest with
  | ':', '=' :: _ => some (.assign, 1)
  | ':', _ => some (.colon, 0)
  | '<', '=' :: _ => some (.lessEqual, 1)
  | '<', '>' :: _ => some (.notEqual, 1)
  | '<', _ => some (.less, 0)
  | '>', '=' :: _ => some (.greaterEqual, 1)
  | '>', _ => some (.greater, 0)
  | _, _ => (singleSign? first).map (·, 0)

/-- The token that starts with `first`, and how many characters of `rest` belong
to it. -/
def next (first : Char) (rest : List Char) : Except ScanCause (Token × Nat) :=
  if first.isDigit then
    let tail := rest.takeWhile Char.isAlphanum
    let text := String.ofList (first :: tail)
    if (Numeral.read? text).isSome then .ok (number text, tail.length)
    else .error (.badNumber text)
  else if isWordStart first then
    let tail := rest.takeWhile isWordRest
    let word := String.ofList (first :: tail)
    .ok (((Keyword.ofWord? word).map keyword).getD (identifier word), tail.length)
  else if first = '"' then
    let text := rest.takeWhile isStringChar
    if rest[text.length]? = some '"' then .ok (string (String.ofList text), text.length + 1)
    else .error .unclosedString
  else
    match sign? first rest with
    | some (mark, extra) => .ok (sign mark, extra)
    | none => .error (.strayCharacter first)

/-- The tokens of `chars`, which start at `position`. The last one is `eof`. -/
def scanFrom (position : Position) (chars : List Char) : Except ScanError (List Lexeme) :=
  match chars with
  | [] => .ok [⟨eof, position.spanTo position⟩]
  | first :: rest =>
    if Text.isBlank first then
      scanFrom (position.after first) rest
    else if first = '#' then
      let comment := rest.takeWhile (· != '\n')
      scanFrom ((position.after first).afterAll comment) (rest.drop comment.length)
    else
      match next first rest with
      | .error cause => .error ⟨position.toPlace, cause⟩
      | .ok (token, extra) => do
        let stop := (position.after first).afterAll (rest.take extra)
        return ⟨token, position.spanTo stop⟩ :: (← scanFrom stop (rest.drop extra))
termination_by chars.length

def scan (source : String) : Except ScanError (List Lexeme) :=
  scanFrom {} source.toList

end Token

end BlockLang
