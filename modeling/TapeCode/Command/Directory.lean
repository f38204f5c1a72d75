/-!
# Directories

A directory as the command sees it: files and folders below a top folder, found by paths with
slashes. A *place* is the list of names on the way from the top. Paths may pass through `.` and
`..`; of the folders above the top, and of the root where an absolute path begins, nothing is
known but that they exist.

The main definitions are `Directory.read` and `Directory.write`, which say when a path cannot be
opened, read or created.
-/

namespace TapeCode

/-- Why a path cannot be used. -/
inductive PathError where
  | notFound
  | notDirectory
  | isDirectory
  | nameTooLong
  deriving DecidableEq, Repr

/-- The system's text for a path error. -/
def PathError.text : PathError → String
  | notFound => "No such file or directory (os error 2)"
  | notDirectory => "Not a directory (os error 20)"
  | isDirectory => "Is a directory (os error 21)"
  | nameTooLong => "File name too long (os error 36)"

/-- Files and folders below a top folder. -/
structure Directory where
  files : List (List String × List UInt8)
  folders : List (List String)
  deriving DecidableEq, Repr

namespace Directory

/-- The content of the file at a place. -/
def file? (dir : Directory) (place : List String) : Option (List UInt8) :=
  dir.files.lookup place

/-- The place of the root, where absolute paths begin. -/
def root : List String := ["/"]

/-- The place where a path begins. -/
def origin (path : String) : List String :=
  if path.startsWith "/" then root else []

/-- The place is the top or above it. -/
def isAbove (place : List String) : Bool :=
  place.all (· == "..")

/-- There is a folder at the place. -/
def isFolder (dir : Directory) (place : List String) : Bool :=
  isAbove place || place == root || dir.folders.contains place

/-- The place that a name leads to from a folder. The root is its own parent. -/
def enter (place : List String) (name : String) : List String :=
  if name = "" || name = "." then place
  else if name = ".." then
    if isAbove place then place ++ [".."]
    else if place = root then root
    else place.dropLast
  else place ++ [name]

/-- The number of bytes that a name may have. -/
def nameLimit : Nat := 255

/-- The number of bytes that a path may have. -/
def pathLimit : Nat := 4095

/-- Fails unless there is a folder at the place. -/
def expectFolder (dir : Directory) (place : List String) : Except PathError Unit :=
  if dir.isFolder place then .ok ()
  else if (dir.file? place).isSome then .error .notDirectory
  else .error .notFound

/-- The place that a list of names leads to; all places passed on the way must be folders, and
none of the names may be too long. -/
def walk (dir : Directory) (place : List String) : List String → Except PathError (List String)
  | [] => .ok place
  | name :: names => do
    dir.expectFolder place
    if nameLimit < name.utf8ByteSize then .error .nameTooLong
    else dir.walk (enter place name) names

/-- The place that a path leads to. A path that is too long leads nowhere. -/
def find (dir : Directory) (path : String) : Except PathError (List String) :=
  if pathLimit < path.utf8ByteSize then .error .nameTooLong
  else dir.walk (origin path) (path.splitOn "/")

/-- Why a source cannot be read: opening it may fail, and a folder opens but has no content. -/
inductive ReadError where
  | cannotOpen (cause : PathError)
  | cannotRead (cause : PathError)
  deriving DecidableEq, Repr

/-- The content of the file at a path. -/
def read (dir : Directory) (path : String) : Except ReadError (List UInt8) :=
  match dir.find path with
  | .error cause => .error (.cannotOpen cause)
  | .ok place =>
    match dir.file? place with
    | some bytes => .ok bytes
    | none =>
      if dir.isFolder place then .error (.cannotRead .isDirectory)
      else .error (.cannotOpen .notFound)

/-- The place where a path lets a file be written: its folder must exist. A path that ends in a
slash names a folder. -/
def target (dir : Directory) (path : String) : Except PathError (List String) := do
  let names := (path.splitOn "/").filter (· != "")
  if pathLimit < path.utf8ByteSize then .error .nameTooLong
  let folder ← dir.walk (origin path) names.dropLast
  dir.expectFolder folder
  if path.endsWith "/" then .error .isDirectory
  else dir.walk folder (names.drop (names.length - 1))

/-- The directory after a file has been written at a path, which may not exist before. -/
def write (dir : Directory) (path : String) (bytes : List UInt8) :
    Except PathError Directory := do
  let place ← dir.target path
  if dir.isFolder place then .error .isDirectory
  else return { dir with files := (place, bytes) :: dir.files.filter (·.1 != place) }

/-- The files that lie directly at the top, with their contents. -/
def topFiles (dir : Directory) : List (String × List UInt8) :=
  dir.files.filterMap fun (place, bytes) =>
    match place with
    | [name] => some (name, bytes)
    | _ => none

end Directory

end TapeCode
