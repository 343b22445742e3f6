/-! A directory that holds files, and how a path is followed from it. Nothing is found outside of
the directory. -/

namespace Flowgraph.Command

/-- Why a file could not be read or written. -/
inductive FileFault
  | missing
  | notDirectory
  | isDirectory
  | nameTooLong
  deriving DecidableEq

def FileFault.message : FileFault → String
  | missing => "No such file or directory (os error 2)"
  | notDirectory => "Not a directory (os error 20)"
  | isDirectory => "Is a directory (os error 21)"
  | nameTooLong => "File name too long (os error 36)"

/-- Files by name. -/
structure Directory where
  files : List (String × String)
  deriving DecidableEq

namespace Directory

def empty : Directory := ⟨[]⟩

def put (d : Directory) (name text : String) : Directory :=
  ⟨d.files.filter (·.1 ≠ name) ++ [(name, text)]⟩

/-- Where a path has led. -/
inductive Place
  /-- A directory: this one, or one outside. -/
  | directory (inside : Bool)
  | file (name text : String)
  | absent (name : String) (inside : Bool)
  deriving DecidableEq

/-- Bytes that a name may have. -/
def longestName : Nat := 255

/-- Bytes that a path may have. -/
def longestPath : Nat := 4095

def step (d : Directory) (place : Place) (part : String) : Except FileFault Place :=
  match place with
  | .file .. => .error .notDirectory
  | .absent .. => .error .missing
  | .directory inside =>
    if part = "." then .ok place
    else if part = ".." then .ok (.directory false)
    else if longestName < part.utf8ByteSize then .error .nameTooLong
    else
      match if inside then d.files.lookup part else none with
      | some text => .ok (.file part text)
      | none => .ok (.absent part inside)

/-- Follows the parts of a path; slashes in a row count once. -/
def follow (d : Directory) (path : String) : Except FileFault Place :=
  if path.isEmpty then .error .missing
  else if longestPath < path.utf8ByteSize then .error .nameTooLong
  else
    ((path.splitOn "/").filter (!·.isEmpty)).foldlM d.step (.directory (!path.startsWith "/"))

/-- A slash at the end asks for a directory. -/
def read (d : Directory) (path : String) : Except FileFault String := do
  match ← d.follow path with
  | .directory _ => throw .isDirectory
  | .absent .. => throw .missing
  | .file _ text => if path.endsWith "/" then throw .notDirectory else return text

/-- Writes a file, which need not be there before. -/
def write (d : Directory) (path text : String) : Except FileFault Directory := do
  match ← d.follow path with
  | .directory _ => throw .isDirectory
  | .absent name inside =>
    if path.endsWith "/" then throw .isDirectory
    else if inside then return d.put name text
    else throw .missing
  | .file name _ => if path.endsWith "/" then throw .isDirectory else return d.put name text

end Directory

end Flowgraph.Command
