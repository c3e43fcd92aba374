import BlockLang.Place

/-! How work on a program ends early: an error is the program's, a fault is a
misuse of the library's own stores. -/

namespace BlockLang

inductive Error where
  | malformed (location : Location) (message : String)
  | unreadable (location : Location) (message : String)
  | duplicate (location : Location) (name : String)
  | unresolved (location : Location) (name : String)
  | wrongKind (location : Location) (name expected found : String)
  | notNumeric (location : Location) (name value : String)
  | rejected (function message : String)
  | internal (message : String)
  | inaccessible (path message : String)
  deriving Repr, DecidableEq, Inhabited

namespace Error

/-- Where in the source the error was met, if anywhere. -/
def location? : Error → Option Location
  | malformed location _ | unreadable location _ | duplicate location _ | unresolved location _
  | wrongKind location _ _ _ | notNumeric location _ _ => some location
  | rejected _ _ | internal _ | inaccessible _ _ => none

def message : Error → String
  | malformed location message => location.text ++ ": syntax error: " ++ message
  | unreadable location message => location.text ++ ": " ++ message
  | duplicate location name => location.text ++ ": symbol " ++ name ++ " already declared"
  | unresolved location name => location.text ++ ": symbol " ++ name ++ " not found"
  | wrongKind location name expected found =>
    location.text ++ ": " ++ name ++ " is a " ++ found ++ ", expected a " ++ expected
  | notNumeric location name value =>
    location.text ++ ": literal " ++ name ++ " has non-numeric value '" ++ value ++ "'"
  | rejected function message => "verification of " ++ function ++ " failed: " ++ message
  | internal message => "internal compiler error: " ++ message
  | inaccessible path message => "cannot access " ++ path ++ ": " ++ message

end Error

inductive Fault where
  /-- A symbol's meaning is given once only. -/
  | alreadyDeclared (name : String)
  | notA (name found expected : String)
  | outOfBounds (length index : Nat)
  /-- There is no signed value of no bits. -/
  | zeroWidth
  /-- A function has given out all the registers it can count. -/
  | registersSpent
  deriving Repr, DecidableEq, Inhabited

def Fault.message : Fault → String
  | alreadyDeclared name => "symbol " ++ name ++ " already has a payload"
  | notA name found expected => name ++ " is a " ++ found ++ ", not a " ++ expected
  | outOfBounds length index =>
    "index out of bounds: the len is " ++ toString length ++ " but the index is " ++ toString index
  | zeroWidth => "attempt to shift left with overflow"
  | registersSpent => "attempt to add with overflow"

inductive Failure where
  | error (error : Error)
  | fault (fault : Fault)
  deriving Repr, DecidableEq, Inhabited

/-- The item at `index`, or the fault of looking past the end. -/
def fetch {α : Type} (items : List α) (index : Nat) : Except Fault α :=
  match items[index]? with
  | some item => .ok item
  | none => .error (.outOfBounds items.length index)

end BlockLang
