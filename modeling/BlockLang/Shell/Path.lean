/-! Paths with `/` between their parts. -/

namespace BlockLang.Shell

/-- Drops slashes and single dots from the end of a path that is given backwards. -/
def trimBackwards : List Char → List Char
  | '/' :: rest => trimBackwards rest
  | '.' :: '/' :: rest => trimBackwards rest
  | chars => chars

/-- A name without what follows its last dot. A dot in front is part of the name. -/
def stem (name : List Char) : List Char :=
  let tail := name.reverse.takeWhile (· != '.')
  let front := name.take (name.length - tail.length - 1)
  if tail.length = name.length ∨ front = [] then name else front

/-- The path with the extension of its last part replaced, or added. A path without a
name in it stays as it is; where only a dot stands before the extension, the path is
left without one, since two dots are the folder above and no name. -/
def withExtension (path extension : String) : String :=
  let trimmed := (trimBackwards path.toList.reverse).reverse
  let name := (trimmed.reverse.takeWhile (· != '/')).reverse
  if name = [] ∨ name = ['.'] ∨ name = ['.', '.'] then path
  else
    let front := String.ofList (trimmed.take (trimmed.length - name.length) ++ stem name) ++ "."
    if stem name = ['.'] then front else front ++ extension

end BlockLang.Shell
