/-! # Reading a script from a folder

The files that a command finds are those of the folder it works in, by their
names.  A path is followed component by component; what it leads to is a file, a
folder or nothing, and a file has nothing inside.
-/
namespace LoxLang.Cli

/-- Why a script cannot be read. -/
inductive ReadError where
  | missing
  | isFolder
  | notFolder
  | notUtf8
  /-- A reason of the system that the others do not cover. -/
  | other (reason : String)
deriving Repr, DecidableEq

/-- The wording of a reason. -/
def ReadError.text : ReadError → String
  | missing => "No such file or directory (os error 2)"
  | isFolder => "Is a directory (os error 21)"
  | notFolder => "Not a directory (os error 20)"
  | notUtf8 => "stream did not contain valid UTF-8"
  | other reason => reason

/-- The text that bytes encode. -/
def decode (bytes : List UInt8) : Except ReadError String :=
  match String.fromUTF8? ⟨bytes.toArray⟩ with
  | some text => .ok text
  | none => .error .notUtf8

/-- Files by their names. -/
structure Folder where
  files : List (String × List UInt8)
deriving Repr, DecidableEq

namespace Folder

/-- Where a path has led so far. -/
inductive Place where
  /-- To the folder itself. -/
  | here
  /-- To a folder around it, of which nothing else is known. -/
  | outside
  /-- To a file. -/
  | file (bytes : List UInt8)
deriving Repr, DecidableEq

/-- Follows the components of a path.  Empty ones lead nowhere new. -/
def follow (folder : Folder) : Place → List String → Except ReadError (List UInt8)
  | .file bytes, [] => .ok bytes
  | .file _, _ :: _ => .error .notFolder
  | _, [] => .error .isFolder
  | place, name :: names =>
    if name = "" ∨ name = "." then folder.follow place names
    else if name = ".." then folder.follow .outside names
    else
      match place, folder.files.lookup name with
      | .here, some bytes => folder.follow (.file bytes) names
      | _, _ => .error .missing

/-- The components of a path, which slashes separate. -/
def components (path : List Char) : List String :=
  (path.splitOn '/').map String.ofList

/-- The bytes of the file that a path leads to. -/
def read (folder : Folder) (path : String) : Except ReadError (List UInt8) :=
  folder.follow (if path.toList.head? = some '/' then .outside else .here)
    (components path.toList)

end Folder
end LoxLang.Cli
