import BlockLang.Names.Symbol
import BlockLang.Text.Basic

/-! What the compiler tells of its work. Events stand inside frames, one for the
unit and one for each open procedure; a frame is named on every line told within. -/

namespace BlockLang.Log

inductive Level where
  | info | debug | trace
  deriving Repr, DecidableEq, Inhabited

def Level.label : Level → String
  | info => "INFO"
  | debug => "DEBUG"
  | trace => "TRACE"

/-- Every level tells what the ones before it tell. -/
def Level.rank : Level → Nat
  | info => 1
  | debug => 2
  | trace => 3

inductive Event where
  | cursorMoved (function block : String)
  /-- The block moved to does not exist. -/
  | cursorAstray (fault : Fault)
  | scopeEntered (depth : Nat)
  | scopeLeft (depth : Nat)
  | literalDeclared (name value : String)
  | cellDeclared (name global : String) (type : IntType)
  | procedureBegun (path : String) (depth : Nat)
  | procedureEnded (name : String)
  | outermostEnded (name : String)
  | kindMismatch (name : String) (expected : Names.Kind)
  | finished (functions globals : Nat)
  | checkingEntry (name : String)
  | checkingAll
  deriving Repr, DecidableEq

def Event.level : Event → Level
  | cursorMoved .. | cursorAstray _ | scopeEntered _ | scopeLeft _ => .trace
  | literalDeclared .. | cellDeclared .. | procedureBegun .. | procedureEnded _ | outermostEnded _
  | kindMismatch .. => .debug
  | finished .. | checkingEntry _ | checkingAll => .info

def Event.text : Event → String
  | cursorMoved function block => "insertion point moved function=" ++ function ++ " block=" ++ block
  | cursorAstray fault => "insertion point moved astray: " ++ fault.message
  | scopeEntered depth => "enter scope depth=" ++ toString depth
  | scopeLeft depth => "leave scope depth=" ++ toString depth
  | literalDeclared name value =>
    "declare literal name=" ++ Text.quoted name ++ " value=" ++ Text.quoted value
  | cellDeclared name global type =>
    "declare variable name=" ++ Text.quoted name ++ " global=" ++ global ++ " ty=" ++ type.name
  | procedureBegun path depth => "begin procedure name=" ++ path ++ " depth=" ++ toString depth
  | procedureEnded name => "end procedure name=" ++ Text.quoted name
  | outermostEnded name => "end outermost procedure name=" ++ Text.quoted name
  | kindMismatch name expected =>
    "kind mismatch name=" ++ Text.quoted name ++ " expected=" ++ expected.describe
  | finished functions globals =>
    "translation finished functions=" ++ toString functions ++ " globals=" ++ toString globals
  | checkingEntry name => "verifying entry procedure procedure=" ++ Text.quoted name
  | checkingAll => "verifying every procedure"

inductive Frame where
  | unit (file : String)
  | procedure (name : String)
  deriving Repr, DecidableEq

def Frame.level : Frame → Level
  | unit _ => .info
  | procedure _ => .debug

def Frame.text : Frame → String
  | unit file => "parse\x7bfile=" ++ file ++ "\x7d"
  | procedure name => "procedure\x7bname=" ++ name ++ "\x7d"

inductive Entry where
  | event (event : Event)
  | enter (frame : Frame)
  | leave
  deriving Repr, DecidableEq

/-- The line for an event, inside the given frames, outermost first. -/
def line (frames : List Frame) (event : Event) : String :=
  let within :=
    if frames.isEmpty then "" else ":".intercalate (frames.map Frame.text) ++ ": "
  event.level.label ++ " " ++ within ++ event.text

/-- The lines told at a verbosity, given the frames that are open, innermost first. -/
def linesFrom (verbosity : Nat) (frames : List Frame) : List Entry → List String
  | [] => []
  | .event event :: rest =>
    let told := if event.level.rank ≤ verbosity then
        [line (frames.reverse.filter fun frame => frame.level.rank ≤ verbosity) event]
      else []
    told ++ linesFrom verbosity frames rest
  | .enter frame :: rest => linesFrom verbosity (frame :: frames) rest
  | .leave :: rest => linesFrom verbosity frames.tail rest

/-- The lines of a log, which holds the newest entry first. -/
def lines (verbosity : Nat) (entries : List Entry) : List String :=
  linesFrom verbosity [] entries.reverse

end BlockLang.Log
