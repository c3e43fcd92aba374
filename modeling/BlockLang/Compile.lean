import BlockLang.Code.Check
import BlockLang.Emit
import BlockLang.Token.Scan
import BlockLang.Tree.Read

/-! From source text to checked code. -/

namespace BlockLang

open Code Names

namespace Compiler

/-- Takes in a program given as tokens. -/
def takeTokens (tokens : List Lexeme) : Compiler Unit :=
  (Tree.Program.ofTokens tokens).emit

/-- The tokens of a source; what cannot be read is told at its place in `location`'s file. -/
def scanAt (location : Location) (source : String) : Except Error (List Lexeme) :=
  (Token.scan source).mapError fun error =>
    .unreadable (location.movedTo error.place) error.cause.message

/-- Takes in a program given as text. -/
def takeSource (source : String) : Compiler Unit := do
  takeTokens (← orFail (scanAt (← get).location source))

/-- Takes in the one program of a unit. -/
def takeUnit (source : String) : Compiler Unit := do
  tell (.enter (.unit (← get).location.file))
  takeSource source
  let code := (← get).builder.code
  record (.finished code.functions.length code.globals.length)
  tell .leave

end Compiler

/-- Which functions are checked before the code is handed out. -/
inductive Scrutiny where
  | none
  | outermost
  | all
  deriving Repr, DecidableEq, Inhabited

namespace Compiler

def check : Scrutiny → Compiler Unit
  | .none => return
  | .outermost => do
    let entry ← symbol (← outermostProcedure)
    record (.checkingEntry entry.name)
    let (function, _) ← orFault entry.procedure
    orFail ((← get).builder.code.checkFunction function)
  | .all => do
    record .checkingAll
    orFail (← get).builder.code.check

/-- Takes in a unit, checks its code and hands it out. -/
def compileUnit (source : String) (scrutiny : Scrutiny) : Compiler Module := do
  takeUnit source
  check scrutiny
  return (← get).builder.code

end Compiler

/-- Takes in a source in a session of its own. -/
def readUnit (file source : String) : EStateM.Result Failure Session Unit :=
  Compiler.takeUnit source (.start file)

/-- The code of a source, with the session it was made in. -/
def compile (file source : String) (scrutiny : Scrutiny) :
    EStateM.Result Failure Session Module :=
  Compiler.compileUnit source scrutiny (.start file)

end BlockLang
