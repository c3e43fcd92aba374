import BlockLang.Compile

/-! The command line. Arguments are taken from left to right; the first one that is
wrong, or that asks for help or the version, decides. -/

namespace BlockLang.Shell

inductive Command where
  | compile (input : String) (output? : Option String) (scrutiny : Scrutiny)
  | check (input : String)
  | tokens (input : String)
  deriving Repr, DecidableEq

inductive Request where
  | run (verbosity : Nat) (command : Command)
  | version
  | help
  /-- The arguments make no sense. -/
  | misused
  deriving Repr, DecidableEq

/-- The commands a request can name. -/
inductive Verb where
  | compile | check | tokens
  deriving Repr, DecidableEq

def Verb.ofName? : String → Option Verb
  | "compile" => some .compile
  | "check" => some .check
  | "tokens" => some .tokens
  | _ => none

/-- What the arguments of a command have said so far. -/
structure Options where
  verbosity : Nat := 0
  input? : Option String := none
  output? : Option String := none
  noVerify : Bool := false
  verifyAll : Bool := false
  /-- The next argument is the output. -/
  awaitsOutput : Bool := false
  /-- Only inputs follow. -/
  onlyInputs : Bool := false
  deriving Repr, DecidableEq

namespace Options

def setInput (options : Options) (input : String) : Except Request Options :=
  if options.input?.isSome then .error .misused else .ok { options with input? := some input }

def setOutput (options : Options) (output : String) : Except Request Options :=
  if options.output?.isSome then .error .misused
  else .ok { options with output? := some output, awaitsOutput := false }

def setNoVerify (options : Options) : Except Request Options :=
  if options.noVerify then .error .misused else .ok { options with noVerify := true }

def setVerifyAll (options : Options) : Except Request Options :=
  if options.verifyAll then .error .misused else .ok { options with verifyAll := true }

/-- A cluster of short options. Whatever follows an `o` is the output, and an equals
sign may stand between. -/
def takeShort (verb : Verb) (options : Options) : List Char → Except Request Options
  | [] => .ok options
  | 'v' :: rest => takeShort verb { options with verbosity := options.verbosity + 1 } rest
  | 'h' :: _ => .error .help
  | 'o' :: rest =>
    if verb ≠ .compile then .error .misused
    else
      match rest with
      | [] => .ok { options with awaitsOutput := true }
      | '=' :: output => options.setOutput (String.ofList output)
      | output => options.setOutput (String.ofList output)
  | _ :: _ => .error .misused

def takeLong (verb : Verb) (options : Options) (name : List Char) : Except Request Options :=
  if name = "verbose".toList then .ok { options with verbosity := options.verbosity + 1 }
  else if name = "help".toList then .error .help
  else if verb ≠ .compile then .error .misused
  else if name = "no-verify".toList then options.setNoVerify
  else if name = "verify-all".toList then options.setVerifyAll
  else if name = "output".toList then .ok { options with awaitsOutput := true }
  else if "output=".toList <+: name then options.setOutput (String.ofList (name.drop "output=".length))
  else .error .misused

/-- A dash alone is a name, not an option. -/
def take (verb : Verb) (options : Options) (argument : String) : Except Request Options :=
  if options.onlyInputs then options.setInput argument
  else
    match argument.toList with
    | ['-', '-'] =>
      if options.awaitsOutput then .error .misused else .ok { options with onlyInputs := true }
    | '-' :: '-' :: name => if options.awaitsOutput then .error .misused else takeLong verb options name
    | '-' :: first :: rest =>
      if options.awaitsOutput then .error .misused else takeShort verb options (first :: rest)
    | _ => if options.awaitsOutput then options.setOutput argument else options.setInput argument

def scrutiny (options : Options) : Scrutiny :=
  if options.noVerify then .none else if options.verifyAll then .all else .outermost

/-- The verbosity asked for after the command counts before that asked for in front. -/
def request (verb : Verb) (outer : Nat) (options : Options) : Request :=
  if options.awaitsOutput || (options.noVerify && options.verifyAll) then .misused
  else
    match options.input? with
    | none => .misused
    | some input =>
      let verbosity := if options.verbosity = 0 then outer else options.verbosity
      .run verbosity <|
        match verb with
        | .compile => .compile input options.output? options.scrutiny
        | .check => .check input
        | .tokens => .tokens input

end Options

/-- A cluster of short options in front of the command. -/
def takeFront (verbosity : Nat) : List Char → Except Request Nat
  | [] => .ok verbosity
  | 'v' :: rest => takeFront (verbosity + 1) rest
  | 'V' :: _ => .error .version
  | 'h' :: _ => .error .help
  | _ :: _ => .error .misused

/-- The request that arguments make, given the verbosity asked for before them. -/
def requestFrom (verbosity : Nat) : List String → Request
  | [] => .misused
  | argument :: rest =>
    match argument.toList with
    | '-' :: '-' :: name =>
      if name = "verbose".toList then requestFrom (verbosity + 1) rest
      else if name = "version".toList then .version
      else if name = "help".toList then .help
      else .misused
    | '-' :: first :: more =>
      match takeFront verbosity (first :: more) with
      | .ok verbosity => requestFrom verbosity rest
      | .error request => request
    | _ =>
      if argument = "help" then
        match rest with
        | [] => .help
        | [name] => if name = "help" ∨ (Verb.ofName? name).isSome then .help else .misused
        | _ => .misused
      else
        match Verb.ofName? argument with
        | none => .misused
        | some verb =>
          match rest.foldlM (Options.take verb) {} with
          | .ok options => options.request verb verbosity
          | .error request => request

def Request.ofArguments (arguments : List String) : Request :=
  requestFrom 0 arguments

end BlockLang.Shell
