import BlockLang.Failure
import BlockLang.Text.Basic

/-! Errors as shown to the user. -/

namespace BlockLang

/-- The line the error points at and a caret under its column. -/
def Location.excerpt (location : Location) (source : String) : String :=
  match (Text.lines source)[location.line - 1]? with
  | some line => "\n  " ++ line ++ "\n  " ++ String.ofList (List.replicate (location.column - 1) ' ') ++ "^"
  | none => ""

def Error.report (error : Error) (source? : Option String) : String :=
  let excerpt :=
    match error.location?, source? with
    | some location, some source => location.excerpt source
    | _, _ => ""
  "error: " ++ error.message ++ excerpt

end BlockLang
