-- A file system that is a value: the files of a directory by path, and the directories among them.
import Backend.Assoc
import Backend.Build.FileSystem

namespace Backend.Build

/-- Files and directories below a working directory. The paths are in their shortest form. -/
structure FileTree where
  files : List (String × List UInt8)
  dirs : List String

namespace FileTree

/-- The content of the file at a path in its shortest form. -/
def file? (t : FileTree) (path : String) : Option (List UInt8) := t.files.lookup path

/-- A path in its shortest form is a directory: the working directory, the root, one that was made,
or one with files in it. -/
def isDir (t : FileTree) (path : String) : Bool :=
  path == "." || path == "/" || t.dirs.contains path ||
    t.files.any fun (f, _) => (path ++ "/").toList.isPrefixOf f.toList

/-- Follows a path part by part to its shortest form. A part can only follow a directory, and so can
a slash at the end; nothing needs to stand at the end itself. -/
def locate (t : FileTree) (path : String) : Except FileCause String :=
  if path == "" then .error .missing
  else
    (Path.pieces path).foldlM (fun here part =>
      if (t.file? here).isSome then .error .notDirectory
      else if t.isDir here then .ok (Path.join here part)
      else .error .missing) (if Path.isRooted path then "/" else ".")

def pathExists (t : FileTree) (path : String) : Bool :=
  match t.locate path with
  | .ok p => (t.file? p).isSome || t.isDir p
  | .error _ => false

def readFile (t : FileTree) (path : String) : Except FileError (List UInt8) :=
  match t.locate path with
  | .error cause => .error ⟨"open", path, cause⟩
  | .ok p =>
    match t.file? p with
    | some content => .ok content
    | none =>
      if t.isDir p then .error ⟨"read", path, .isDirectory⟩ else .error ⟨"open", path, .missing⟩

/-- The tree with a file under a path. -/
def put (t : FileTree) (path : String) (content : List UInt8) : FileTree :=
  { t with files := assocInsert (Path.clean path) content t.files }

def erase (t : FileTree) (path : String) : FileTree :=
  { t with files := t.files.filter fun (f, _) => f != Path.clean path }

/-- Writes a file. A path that ends in a slash is meant for a directory, if one could stand
there. -/
def writeFile (t : FileTree) (path : String) (content : List UInt8) :
    Except FileError Unit × FileTree :=
  let bare := path.toList.reverse.dropWhile (· == '/')
  match t.locate (String.ofList bare.reverse) with
  | .error cause => (.error ⟨"open", path, cause⟩, t)
  | .ok p =>
    if bare.length < path.length || t.isDir p then (.error ⟨"open", path, .isDirectory⟩, t)
    else (.ok (), t.put p content)

def touch (t : FileTree) (path : String) : Except FileError Unit × FileTree :=
  match t.readFile path with
  | .ok _ => (.ok (), t)
  | .error _ => t.writeFile path []

/-- Makes a directory and those above it. The first of them that is a file stands in the way: the
path itself as something else than a directory, one above it as a name that is taken. -/
def makeDirs (t : FileTree) (path : String) : Except FileError Unit × FileTree :=
  let blocked := (Path.ancestry path).find? fun p => (t.file? (Path.clean p)).isSome
  match blocked with
  | some p =>
    (.error ⟨"mkdir", p, if p.toList.getLast? == some '/' then .nameTaken else .notDirectory⟩, t)
  | none => (.ok (), { t with dirs := t.dirs ++ (Path.ancestry path).map Path.clean })

/-- What a step does to the files. -/
def perform (t : FileTree) : FileStep → FileTree
  | .create temp => t.put temp []
  | .fill temp content => t.put temp content
  | .rename temp target => (t.erase temp).put target ((t.file? (Path.clean temp)).getD [])
  | .record _ => t
  | .remove temp => t.erase temp

end FileTree

instance : FileSystem (StateM FileTree) where
  pathExists path := return (← get).pathExists path
  readFile path := return (← get).readFile path
  writeFile path content := modifyGet fun t => t.writeFile path content
  touch path := modifyGet fun t => t.touch path
  makeDirs path := modifyGet fun t => t.makeDirs path
  perform step := modify fun t => t.perform step

end Backend.Build
