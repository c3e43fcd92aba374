/-! The files around a run, seen from its working folder. Reading and writing are
refused, or done in full. A disk is one way to keep files. -/

namespace BlockLang.Shell

inductive Refusal where
  | notFound
  | notFolder
  | isFolder
  | notText
  /-- What else the system gives as its reason. -/
  | other (message : String)
  deriving Repr, DecidableEq

def Refusal.message : Refusal → String
  | notFound => "No such file or directory (os error 2)"
  | notFolder => "Not a directory (os error 20)"
  | isFolder => "Is a directory (os error 21)"
  | notText => "stream did not contain valid UTF-8"
  | other message => message

/-- Files that are read and written by their paths. -/
class Files (σ : Type) where
  readText : σ → String → Except Refusal String
  /-- Makes the file or replaces what it holds. -/
  writeText : σ → String → String → Except Refusal σ

inductive Node where
  | file (bytes : ByteArray)
  | folder

/-- The parts of a path that holds no `.`, no doubled slash, and `..` in front only. -/
abbrev Route := List String

structure Disk where
  entries : List (Route × Node) := []

namespace Disk

/-- The working folder, those above it and the root are there in any case. -/
def node? (disk : Disk) (route : Route) : Option Node :=
  if route.all (· == "..") || route == ["/"] then some .folder else disk.entries.lookup route

def put (disk : Disk) (route : Route) (node : Node) : Disk where
  entries := (route, node) :: disk.entries.filter fun entry => entry.1 != route

/-- One part further along a path. -/
def follow (route : Route) (part : String) : Route :=
  if part = "" ∨ part = "." then route
  else if part = ".." then
    if route.all (· == "..") then route ++ [".."]
    else if route = ["/"] then route
    else route.dropLast
  else route ++ [part]

/-- Paths lead through folders only. -/
def requireFolder (disk : Disk) (route : Route) : Except Refusal Unit :=
  match disk.node? route with
  | some .folder => .ok ()
  | some (.file _) => .error .notFolder
  | none => .error .notFound

def walk (disk : Disk) (route : Route) : List String → Except Refusal Route
  | [] => .ok route
  | part :: rest => do
    disk.requireFolder route
    disk.walk (follow route part) rest

/-- What stands between the slashes of a path. -/
def segments (path : String) : List String :=
  (path.toList.splitOn '/').map String.ofList

/-- Where a path starts, and its parts. -/
def parts (path : String) : Except Refusal (Route × List String) :=
  if path = "" then .error .notFound
  else .ok (if path.toList.head? = some '/' then ["/"] else [], segments path)

def read (disk : Disk) (path : String) : Except Refusal ByteArray := do
  let (start, steps) ← parts path
  match disk.node? (← disk.walk start steps) with
  | some (.file bytes) => return bytes
  | some .folder => throw .isFolder
  | none => throw .notFound

def readText (disk : Disk) (path : String) : Except Refusal String := do
  match String.fromUTF8? (← disk.read path) with
  | some text => return text
  | none => throw .notText

/-- Makes the file or replaces what it holds. A path that ends in a slash or in dots
can only be a folder's. -/
def write (disk : Disk) (path : String) (bytes : ByteArray) : Except Refusal Disk := do
  let (start, steps) ← parts path
  let named := (steps.reverse.dropWhile (· == "")).reverse
  let parent ← disk.walk start named.dropLast
  disk.requireFolder parent
  match named.getLast? with
  | none => throw .isFolder
  | some name =>
    if name = "." ∨ name = ".." ∨ steps.length ≠ named.length then throw .isFolder
    else
      match disk.node? (parent ++ [name]) with
      | some .folder => throw .isFolder
      | _ => return disk.put (parent ++ [name]) (.file bytes)

/-- Makes a folder and those it lies in. -/
def makeFolder (disk : Disk) (path : String) : Disk :=
  let steps := segments path
  (List.range (steps.length + 1)).foldl (fun disk count =>
    let route := (steps.take count).foldl follow []
    match disk.node? route with
    | some _ => disk
    | none => disk.put route .folder) disk

/-- Makes a file and the folders it lies in. -/
def makeFile (disk : Disk) (path : String) (bytes : ByteArray) : Disk :=
  let steps := segments path
  (disk.makeFolder ("/".intercalate steps.dropLast)).put (steps.foldl follow []) (.file bytes)

end Disk

instance : Files Disk where
  readText := Disk.readText
  writeText disk path text := disk.write path text.toUTF8

end BlockLang.Shell
