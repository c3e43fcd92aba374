/-! Numerals with 64-bit values: an optional minus sign, then decimal digits, or
hexadecimal digits after `0x` or `0X`. A plus sign may stand right before the
digits. -/

namespace BlockLang.Numeral

/-- The value of a digit in bases up to sixteen. -/
def digit? (base : Nat) (char : Char) : Option Nat :=
  let value? :=
    if '0' ≤ char ∧ char ≤ '9' then some (char.toNat - '0'.toNat)
    else if 'a' ≤ char ∧ char ≤ 'f' then some (char.toNat - 'a'.toNat + 10)
    else if 'A' ≤ char ∧ char ≤ 'F' then some (char.toNat - 'A'.toNat + 10)
    else none
  value?.filter (· < base)

/-- Reads a run of digits, continuing the value read so far. -/
def digits? (base : Nat) : List Char → Nat → Option Nat
  | [], value => some value
  | char :: rest, value => (digit? base char).bind fun digit => digits? base rest (value * base + digit)

/-- One or more digits, with an optional plus sign before them. -/
def unsigned? (base : Nat) : List Char → Option Nat
  | [] => none
  | ['+'] => none
  | '+' :: rest => digits? base rest 0
  | chars => digits? base chars 0

/-- The base is chosen by the first two characters. -/
def magnitude? : List Char → Option Nat
  | '0' :: 'x' :: rest => unsigned? 16 rest
  | '0' :: 'X' :: rest => unsigned? 16 rest
  | chars => unsigned? 10 chars

def integer? : List Char → Option Int
  | '-' :: rest => (magnitude? rest).map fun value => -(value : Int)
  | chars => (magnitude? chars).map Int.ofNat

/-- The value of a numeral, if the text is one and its value fits in 64 bits. -/
def read? (text : String) : Option Int64 :=
  (integer? text.toList).bind fun value =>
    if Int64.minValue.toInt ≤ value ∧ value ≤ Int64.maxValue.toInt then some (.ofInt value)
    else none

end BlockLang.Numeral
