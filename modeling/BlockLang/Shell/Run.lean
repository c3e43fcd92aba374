import BlockLang.Report
import BlockLang.Shell.Arguments
import BlockLang.Shell.Disk
import BlockLang.Shell.Path

/-! Carrying out a command. What a command does depends on its input's text alone; it
ends in a text to print, a file to write or an error. -/

namespace BlockLang.Shell

structure Outcome where
  exit : Nat
  stdout : String := ""
  stderr : String := ""
  deriving Repr, DecidableEq

inductive Product where
  | print (text : String)
  | save (path text : String)
  /-- An error, and the source it points into. -/
  | failed (error : Error) (source? : Option String)
  deriving Repr, DecidableEq

/-- What a command comes to, and the log of the work. -/
structure Reply where
  log : List Log.Entry := []
  product : Product
  deriving Repr, DecidableEq

def Command.input : Command → String
  | compile input _ _ => input
  | check input => input
  | tokens input => input

/-- `width` characters, with `text` at the right end. -/
def alignRight (width : Nat) (text : String) : String :=
  String.ofList (List.replicate (width - text.length) ' ') ++ text

/-- `width` characters, with `text` at the left end. -/
def alignLeft (width : Nat) (text : String) : String :=
  text ++ String.ofList (List.replicate (width - text.length) ' ')

def tokenLine (lexeme : Lexeme) : String :=
  alignRight 4 (toString lexeme.span.line) ++ ":" ++ alignLeft 3 (toString lexeme.span.column) ++
    " " ++ lexeme.token.describe ++ "\n"

def summary (input : String) (code : Code.Module) : String :=
  input ++ ": ok (" ++ toString code.functions.length ++ " procedures, " ++
    toString code.globals.length ++ " variables)\n"

/-- Compiles a source and goes on with its code. A fault is told as an internal error. -/
def compileThen (input source : String) (scrutiny : Scrutiny)
    (use : Code.Module → Except Fault Product) : Reply :=
  let told (session : Session) (product : Except Fault Product) : Reply :=
    ⟨session.log, match product with
      | .ok product => product
      | .error fault => .failed (.internal fault.message) none⟩
  match compile input source scrutiny with
  | .ok code session => told session (use code)
  | .error (.error error) session => ⟨session.log, .failed error (some source)⟩
  | .error (.fault fault) session => told session (.error fault)

def Command.reply (source : String) : Command → Reply
  | compile input output? scrutiny =>
    compileThen input source scrutiny fun code => do
      let text ← code.listing
      return if output? = some "-" then .print text
        else .save (output?.getD (withExtension input "ll")) text
  | check input => compileThen input source .all fun code => return .print (summary input code)
  | tokens input =>
    match Compiler.scanAt (.top input) source with
    | .ok lexemes => ⟨[], .print (String.join (lexemes.map tokenLine))⟩
    | .error error => ⟨[], .failed error (some source)⟩

/-- The text of the file at `path`. -/
def Files.source {σ : Type} [Files σ] (files : σ) (path : String) : Except Error String :=
  (readText files path).mapError fun refusal => .inaccessible path refusal.message

def Disk.source (disk : Disk) (path : String) : Except Error String :=
  Files.source disk path

/-- The reply to a command whose input could be read, or not. -/
def Command.answer (command : Command) : Except Error String → Reply
  | .ok source => command.reply source
  | .error error => ⟨[], .failed error none⟩

def logText (verbosity : Nat) (log : List Log.Entry) : String :=
  String.join ((Log.lines verbosity log).map (· ++ "\n"))

/-- What is seen of a reply, once a file it asked for was written, or not. -/
def Reply.outcome (reply : Reply) (verbosity : Nat) (written : Except Refusal Unit) : Outcome :=
  let told := logText verbosity reply.log
  let failure (error : Error) (source? : Option String) : Outcome :=
    { exit := 1, stderr := told ++ error.report source? ++ "\n" }
  match reply.product with
  | .print text => { exit := 0, stdout := text, stderr := told }
  | .failed error source? => failure error source?
  | .save path _ =>
    match written with
    | .ok _ => { exit := 0, stderr := told ++ "Compiled to: " ++ path ++ "\n" }
    | .error refusal => failure (.inaccessible path refusal.message) none

def versionText : String := "nestc 0.1.0\n"

def usageText : String :=
  "Usage: nestc [-v]... compile [-o FILE] [--no-verify | --verify-all] INPUT\n" ++
  "       nestc [-v]... check INPUT\n" ++
  "       nestc [-v]... tokens INPUT\n"

/-- The outcome of a request that runs no command. -/
def Request.simple? : Request → Option Outcome
  | version => some { exit := 0, stdout := versionText }
  | help => some { exit := 0, stdout := usageText }
  | misused => some { exit := 2, stderr := usageText }
  | run _ _ => none

def Command.run {σ : Type} [Files σ] (command : Command) (verbosity : Nat) (files : σ) :
    Outcome × σ :=
  let reply := command.answer (Files.source files command.input)
  match reply.product with
  | .save path text =>
    match Files.writeText files path text with
    | .ok files => (reply.outcome verbosity (.ok ()), files)
    | .error refusal => (reply.outcome verbosity (.error refusal), files)
  | _ => (reply.outcome verbosity (.ok ()), files)

/-- A whole run: what it prints and how it ends, and the files after it. -/
def run {σ : Type} [Files σ] (arguments : List String) (files : σ) : Outcome × σ :=
  match Request.ofArguments arguments with
  | .run verbosity command => command.run verbosity files
  | request => (request.simple?.getD { exit := 2 }, files)

end BlockLang.Shell
