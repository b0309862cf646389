import SchemaGuards.GenerationError
import SchemaGuards.Text.Blank

/-!
# Storing files

Files are stored into a fresh directory, one after the other, by paths relative to it. Directories
are not made along the way: a path through one that does not exist stops the storing, and what was
stored before stays. A path may lead out of the directory. Its names have a greatest length, and so
has the path as a whole, which is judged before its names.
-/
namespace SchemaGuards.Emission

structure File where
  path : String
  content : String
deriving DecidableEq, Repr

structure Directory where
  /-- The path of the directory itself. -/
  location : String
  /-- The files that lie directly in it, by their names; a name occurs once. -/
  files : List File := []

/-- Why a path cannot be written to, in the words of the file system. -/
inductive StorageFault where
  | missing
  | notDirectory
  | nameTooLong
  | nulCharacter
deriving DecidableEq, Repr

def StorageFault.message : StorageFault → String
  | .missing => "No such file or directory (os error 2)"
  | .notDirectory => "Not a directory (os error 20)"
  | .nameTooLong => "File name too long (os error 36)"
  | .nulCharacter => "file name contained an unexpected NUL byte"

def StorageFault.toError (fault : StorageFault) : GenerationError := .storage fault.message

def nameLimit : Nat := 255

def pathLimit : Nat := 4095

def isAbsolute (path : String) : Bool := path.toList.head? = some '/'

/-- The names of a path that count when paths are compared. Empty names do not count, nor do dots that stand
for the directory before them; a dot that a path begins with does. -/
def comparedNames (path : String) : List String :=
  match Text.splitText '/' path with
  | [] => []
  | first :: rest =>
    (if first = "" then [] else [first]) ++ rest.filter (fun name => name ≠ "" && name ≠ ".")

def isSamePath (path other : String) : Bool :=
  isAbsolute path = isAbsolute other && comparedNames path = comparedNames other

namespace Directory

def fullPath (directory : Directory) (path : String) : String :=
  if isAbsolute path then path else directory.location ++ "/" ++ path

/-- Puts a file in place of one of the same name. -/
def put (directory : Directory) (file : File) : Directory :=
  { directory with files := directory.files.filter (fun other => other.path ≠ file.path) ++ [file] }

/-- Follows the segments of a path, from the directory itself or from one around it; gives the name
under which the file lies in the directory, or nothing when it lies outside. -/
def follow (directory : Directory) (inside : Bool) : List String → Except StorageFault (Option String)
  | [] => .ok none
  | [name] => if nameLimit < name.utf8ByteSize then .error .nameTooLong else .ok (if inside then some name else none)
  | segment :: rest =>
    if segment = "" || segment = "." then follow directory inside rest
    else if segment = ".." then follow directory false rest
    else if nameLimit < segment.utf8ByteSize then .error .nameTooLong
    else if inside && directory.files.any (fun file => file.path = segment) then .error .notDirectory
    else .error .missing

def store (directory : Directory) (file : File) : Except StorageFault Directory :=
  if '\x00' ∈ file.path.toList then .error .nulCharacter
  else if pathLimit < (directory.fullPath file.path).utf8ByteSize then .error .nameTooLong
  else
    let segments := (file.path.toList.splitOn '/').map String.ofList
    (directory.follow (!isAbsolute file.path) segments).map (fun name =>
      match name with
      | some name => directory.put ⟨name, file.content⟩
      | none => directory)

def storeAll (directory : Directory) : List File → Directory × Except GenerationError Unit
  | [] => (directory, .ok ())
  | file :: rest =>
    match directory.store file with
    | .ok next => next.storeAll rest
    | .error fault => (directory, .error fault.toError)

end Directory
end SchemaGuards.Emission
