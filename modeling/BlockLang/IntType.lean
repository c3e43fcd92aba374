/-! Declared integer types. The emitted code only knows widths, so the sign of a
type decides how values are widened, divided and compared. -/

namespace BlockLang

structure IntType where
  width : Nat
  signed : Bool
  deriving Repr, DecidableEq, Inhabited

namespace IntType

def int32 : IntType := ⟨32, true⟩

def int64 : IntType := ⟨64, true⟩

def name (type : IntType) : String :=
  (if type.signed then "INT" else "UINT") ++ toString type.width

/-- The types a program can name. -/
def declarable : List IntType :=
  [8, 16, 32, 64].flatMap fun width => [⟨width, true⟩, ⟨width, false⟩]

/-- Type names are read without regard to case. -/
def ofName? (text : String) : Option IntType :=
  declarable.find? fun type => type.name == text.toUpper

/-- The type both operands of an operator are brought to: the wider one, and at
equal width the unsigned one. -/
def join (left right : IntType) : IntType :=
  if right.width < left.width then left
  else if left.width < right.width then right
  else ⟨left.width, left.signed && right.signed⟩

/-- The type of a constant. -/
def ofConstant (value : Int64) : IntType :=
  if Int32.minValue.toInt64 ≤ value ∧ value ≤ Int32.maxValue.toInt64 then int32 else int64

end IntType

end BlockLang
