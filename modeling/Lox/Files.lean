import Lox.Text.Quoted
import Lox.Text.Utf8

/-!
# Files

What a path names in a working folder that holds nothing but plain files, and what is reported when
a source text cannot be read from there. `Folder.read` follows a path name by name; the folders
around the working folder can be named, but nothing is found in them.
-/

set_option autoImplicit false

namespace Lox

/-! ## Reports -/

/-- Why a file has no bytes to give. -/
inductive FileError where
  /-- Nothing has this name. -/
  | missing
  /-- The path goes on after a plain file. -/
  | notFolder
  /-- The path names a folder. -/
  | isFolder
  /-- A name, or the whole path, is longer than the system allows. -/
  | nameTooLong
  /-- The file may not be read. -/
  | forbidden
  deriving DecidableEq, Repr

/-- The system's words for an error. A folder can be opened; what fails is to map its contents. -/
def FileError.cause : FileError → String
  | .missing => "No such file or directory (os error 2)"
  | .notFolder => "Not a directory (os error 20)"
  | .isFolder => "No such device (os error 19)"
  | .nameTooLong => "File name too long (os error 36)"
  | .forbidden => "Permission denied (os error 13)"

/-- Why a source text cannot be read. -/
inductive SourceError where
  | unreadable (error : FileError)
  | notText (error : Utf8.DecodeError)
  deriving DecidableEq, Repr

/-- What cannot be done with the file. -/
def SourceError.problem (path : String) : SourceError → String
  | .unreadable .isFolder => "Failed to map file " ++ Text.quoted path
  | .unreadable _ => "Failed to open file " ++ Text.quoted path
  | .notText _ => "File " ++ Text.quoted path ++ " is not valid UTF-8"

def SourceError.cause : SourceError → String
  | .unreadable e => e.cause
  | .notText e => e.text

/-- An error about the source text at a path, with its cause below it. -/
def SourceError.text (path : String) (e : SourceError) : String :=
  "Error: " ++ e.problem path ++ "\n\nCaused by:\n    " ++ e.cause ++ "\n"

/-- The source text that the bytes of a file are. -/
def sourceText (bytes : Except FileError (List UInt8)) : Except SourceError String :=
  match bytes with
  | .error e => .error (.unreadable e)
  | .ok bytes =>
    match Utf8.decode bytes with
    | .error e => .error (.notText e)
    | .ok source => .ok source

/-! ## A working folder -/

/-- A folder of plain files, by name. -/
structure Folder where
  files : List (String × List UInt8)

/-- Where a path has led. -/
inductive Place where
  /-- The working folder. -/
  | here
  /-- A folder around the working folder. -/
  | above
  | file (bytes : List UInt8)

namespace Folder

/-- The longest name that a file can have, in bytes. -/
def longestName : Nat := 255

/-- The longest path that can be followed, in bytes. -/
def longestPath : Nat := 4095

/-- The place that a name leads to. An empty name and a point stay where they are; only folders can
be gone on from. -/
def step (d : Folder) (place : Place) (name : String) : Except FileError Place :=
  match place with
  | .file _ => .error .notFolder
  | _ =>
    if name = "" ∨ name = "." then .ok place
    else if name = ".." then .ok .above
    else if longestName < name.utf8ByteSize then .error .nameTooLong
    else
      match place, d.files.lookup name with
      | .here, some bytes => .ok (.file bytes)
      | _, _ => .error .missing

/-- The bytes of the file at a path. -/
def read (d : Folder) (path : String) : Except FileError (List UInt8) := do
  if longestPath < path.utf8ByteSize then throw .nameTooLong
  if path.isEmpty then throw .missing
  let start := if path.startsWith "/" then Place.above else Place.here
  match ← (path.splitOn "/").foldlM d.step start with
  | .file bytes => return bytes
  | _ => throw .isFolder

end Folder
end Lox
