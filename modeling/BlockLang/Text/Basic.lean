import BlockLang.Text.Unprintable

/-! Texts as they are read and told: the characters that are blank, the lines, and texts
between double quotes. -/

namespace BlockLang.Text

/-- The characters with the Unicode property `White_Space`. -/
def blankRanges : List (Nat × Nat) :=
  [(0x09, 0x0D), (0x20, 0x20), (0x85, 0x85), (0xA0, 0xA0), (0x1680, 0x1680), (0x2000, 0x200A),
    (0x2028, 0x2029), (0x202F, 0x202F), (0x205F, 0x205F), (0x3000, 0x3000)]

def isBlank (char : Char) : Bool :=
  blankRanges.any fun range => range.1 ≤ char.toNat && char.toNat ≤ range.2

/-- Drops the last character if it is a carriage return. -/
def chomp (line : List Char) : List Char :=
  if line.getLast? = some '\r' then line.dropLast else line

/-- A line feed ends a line, a carriage return right before it belongs to the line's end, and
nothing follows a final line feed. -/
def splitLines (chars : List Char) : List (List Char) :=
  match chars with
  | [] => []
  | first :: rest =>
    let line := (first :: rest).takeWhile (· != '\n')
    if '\n' ∈ first :: rest then chomp line :: splitLines ((first :: rest).drop (line.length + 1))
    else [first :: rest]
termination_by chars.length

def lines (text : String) : List String :=
  (splitLines text.toList).map String.ofList

/-- The code point in hexadecimal, between braces. -/
def codePoint (char : Char) : String :=
  "\\u\x7b" ++ String.ofList (Nat.toDigits 16 char.toNat) ++ "\x7d"

def escape (char : Char) : String :=
  match char with
  | '\x00' => "\\0"
  | '\t' => "\\t"
  | '\r' => "\\r"
  | '\n' => "\\n"
  | '\\' => "\\\\"
  | '"' => "\\\""
  | _ => if isPrintable char then char.toString else codePoint char

/-- The text on one line: what would break the line or the quotes is escaped, and so is what
cannot be seen. -/
def quoted (text : String) : String :=
  "\"" ++ String.join (text.toList.map escape) ++ "\""

end BlockLang.Text
