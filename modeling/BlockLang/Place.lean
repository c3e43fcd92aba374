/-! Where things stand in a source text. Lines and columns start at 1, and a
column counts characters; `start` and `stop` of a span count UTF-8 bytes. -/

namespace BlockLang

structure Place where
  line : Nat := 1
  column : Nat := 1
  deriving Repr, DecidableEq, Inhabited

structure Span extends Place where
  start : Nat := 0
  stop : Nat := 0
  deriving Repr, DecidableEq, Inhabited

/-- A place in a named file. -/
structure Location extends Place where
  file : String
  deriving Repr, DecidableEq, Inhabited

namespace Location

def top (file : String) : Location := { file }

/-- The same file at another place. -/
def movedTo (location : Location) (place : Place) : Location :=
  { location with toPlace := place }

def text (location : Location) : String :=
  location.file ++ ":" ++ toString location.line ++ ":" ++ toString location.column

end Location

/-- A reading position: the place of the next character and the number of bytes
before it. -/
structure Position extends Place where
  offset : Nat := 0
  deriving Repr, DecidableEq, Inhabited

namespace Position

/-- Only a line feed starts a new line. -/
def after (position : Position) (char : Char) : Position where
  toPlace := if char = '\n' then ⟨position.line + 1, 1⟩ else ⟨position.line, position.column + 1⟩
  offset := position.offset + char.utf8Size

def afterAll (position : Position) (chars : List Char) : Position :=
  chars.foldl after position

@[simp] theorem afterAll_nil (position : Position) : position.afterAll [] = position := rfl

@[simp] theorem afterAll_cons (position : Position) (char : Char) (chars : List Char) :
    position.afterAll (char :: chars) = (position.after char).afterAll chars := rfl

def spanTo (position stop : Position) : Span :=
  ⟨position.toPlace, position.offset, stop.offset⟩

end Position

end BlockLang
