-- Slash-separated paths, what a build asks of a file system, and the steps in which it puts a file
-- into place.

namespace Backend.Path

/-- The parts of a path between its slashes, empty ones too. -/
def pieces (path : String) : List String := (path.toList.splitOn '/').map String.ofList

/-- Takes a part in, with the part before it at the head. Empty parts and single dots say nothing.
Two dots take back the part before them; at the front they stay, unless the path is rooted. -/
def push (rooted : Bool) (done : List String) (part : String) : List String :=
  if part == "" || part == "." then done
  else if part == ".." then
    match done with
    | [] => if rooted then [] else [part]
    | last :: rest => if last == ".." then part :: done else rest
  else part :: done

/-- The path starts at the root. -/
def isRooted (path : String) : Bool := path.toList.head? == some '/'

/-- The parts of the shortest form of a path. -/
def parts (path : String) : List String := ((pieces path).foldl (push (isRooted path)) []).reverse

/-- The shortest form of a path. -/
def clean (path : String) : String :=
  let body := "/".intercalate (parts path)
  if isRooted path then "/" ++ body else if body == "" then "." else body

/-- A name inside a directory. -/
def join (dir name : String) : String := clean (dir ++ "/" ++ name)

/-- The last part of a path as it is written. -/
def base (path : String) : String :=
  if path == "" then "."
  else
    let trimmed := path.toList.reverse.dropWhile (· == '/')
    if trimmed.isEmpty then "/" else String.ofList (trimmed.takeWhile (· != '/')).reverse

/-- The text without an ending, if it has it. -/
def dropSuffix (ending s : String) : String :=
  if ending.toList.reverse.isPrefixOf s.toList.reverse then
    String.ofList (s.toList.take (s.length - ending.length))
  else s

/-- Cuts a path, given from its end, after every run of slashes that something follows. -/
def cuts : List Char → List (List Char)
  | [] => []
  | '/' :: rest => cuts rest
  | _ :: rest => (if rest.head? == some '/' then [rest] else []) ++ cuts rest

/-- The path and all paths to directories above it that are part of it, the shortest first. Those
above it end in their slashes. -/
def ancestry (path : String) : List String :=
  ((path.toList.reverse :: cuts path.toList.reverse).map fun p => String.ofList p.reverse).reverse

end Backend.Path

namespace Backend.Build

/-- Why the file system refuses. -/
inductive FileCause where
  | missing
  | notDirectory
  | isDirectory
  | nameTaken
  | other (text : String)
  deriving DecidableEq

def FileCause.message : FileCause → String
  | .missing => "no such file or directory"
  | .notDirectory => "not a directory"
  | .isDirectory => "is a directory"
  | .nameTaken => "file exists"
  | .other text => text

/-- An operation on a path that failed. -/
structure FileError where
  operation : String
  path : String
  cause : FileCause
  deriving DecidableEq

def FileError.message (e : FileError) : String := s!"{e.operation} {e.path}: {e.cause.message}"

/-- A step on the way of a file to its place: it is filled under a temporary name, gets its own name
at once, and is then noted as written; a file that cannot be filled is removed. -/
inductive FileStep where
  | create (temp : String)
  | fill (temp : String) (content : List UInt8)
  | rename (temp target : String)
  | record (target : String)
  | remove (temp : String)
  deriving DecidableEq

/-- The path that a step notes as written. -/
def FileStep.recorded? : FileStep → Option String
  | .record target => some target
  | _ => none

/-- The file operations of a build. `touch` makes sure that a file exists. -/
class FileSystem (m : Type → Type) where
  pathExists : String → m Bool
  readFile : String → m (Except FileError (List UInt8))
  writeFile : String → List UInt8 → m (Except FileError Unit)
  touch : String → m (Except FileError Unit)
  makeDirs : String → m (Except FileError Unit)
  perform : FileStep → m Unit

end Backend.Build
