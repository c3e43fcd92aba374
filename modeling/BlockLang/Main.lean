import BlockLang.Shell.Run

/-! The program: the pure run on the files of the machine. -/

namespace BlockLang.Shell

/-- What the machine gives as its reason, with the number of the error if it has one. -/
def Refusal.ofFailure : IO.Error → Refusal
  | .alreadyExists _ code reason | .otherError code reason | .resourceBusy code reason
  | .resourceVanished code reason | .unsupportedOperation code reason
  | .hardwareFault code reason | .unsatisfiedConstraints code reason
  | .illegalOperation code reason | .protocolError code reason | .timeExpired code reason
  | .interrupted _ code reason | .noFileOrDirectory _ code reason
  | .invalidArgument _ code reason | .permissionDenied _ code reason
  | .resourceExhausted _ code reason | .inappropriateType _ code reason
  | .noSuchThing _ code reason => .other (reason ++ " (os error " ++ toString code ++ ")")
  | .unexpectedEof => .other "unexpected end of file"
  | .userError reason => .other reason

def readInput (path : String) : IO (Except Error String) := do
  let refused (refusal : Refusal) : Except Error String :=
    .error (.inaccessible path refusal.message)
  try
    let handle ← IO.FS.Handle.mk path .read
    match String.fromUTF8? (← handle.readBinToEnd) with
    | some text => return .ok text
    | none => return refused .notText
  catch failure => return refused (.ofFailure failure)

/-- The text has reached the file once it is flushed. -/
def writeOutput (path text : String) : IO (Except Refusal Unit) := do
  try
    let handle ← IO.FS.Handle.mk path .write
    handle.write text.toUTF8
    handle.flush
    return .ok ()
  catch failure => return .error (.ofFailure failure)

def Outcome.finish (outcome : Outcome) : IO UInt32 := do
  (← IO.getStdout).putStr outcome.stdout
  (← IO.getStderr).putStr outcome.stderr
  return outcome.exit.toUInt32

def Command.perform (command : Command) (verbosity : Nat) : IO UInt32 := do
  let reply := command.answer (← readInput command.input)
  let written ← match reply.product with
    | .save path text => writeOutput path text
    | _ => pure (.ok ())
  (reply.outcome verbosity written).finish

end BlockLang.Shell

open BlockLang.Shell in
def main (arguments : List String) : IO UInt32 :=
  match Request.ofArguments arguments with
  | .run verbosity command => command.perform verbosity
  | request => (request.simple?.getD { exit := 2 }).finish
