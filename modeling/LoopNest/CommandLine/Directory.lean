/-!
# Directories

A path is followed name by name from a directory. An empty name and `.` stay in place, `..` leads to
the directory above, of which nothing else is known, and nothing leads on from a file.
-/

namespace LoopNest

/-- Why a file cannot be read. -/
inductive ReadError where
  | missing
  | denied
  | notDirectory
  | isDirectory
  | nameTooLong
  | notText
  | other (reason : String)

def ReadError.message : ReadError → String
  | missing => "No such file or directory (os error 2)"
  | denied => "Permission denied (os error 13)"
  | notDirectory => "Not a directory (os error 20)"
  | isDirectory => "Is a directory (os error 21)"
  | nameTooLong => "File name too long (os error 36)"
  | notText => "stream did not contain valid UTF-8"
  | other reason => reason

/-- A directory of texts by name. -/
structure Directory where
  files : List (String × String)

namespace Directory

/-- Where a path leads. -/
inductive Place where
  | here
  | above
  | file (content : String)

/-- The place that a name leads to. A name has at most 255 bytes. -/
def follow (d : Directory) (place : Place) (name : String) : Except ReadError Place :=
  match place with
  | .file _ => .error .notDirectory
  | .here =>
    if name = "" ∨ name = "." then .ok .here
    else if name = ".." then .ok .above
    else if 255 < name.utf8ByteSize then .error .nameTooLong
    else
      match d.files.lookup name with
      | some content => .ok (.file content)
      | none => .error .missing
  | .above =>
    if name = "" ∨ name = "." ∨ name = ".." then .ok .above
    else if 255 < name.utf8ByteSize then .error .nameTooLong
    else .error .missing

/-- The content of the file that a path leads to. A path has at most 4095 bytes, and one that starts
with a slash does not start here. -/
def read (d : Directory) (path : String) : Except ReadError String := do
  if path = "" then throw .missing
  if 4095 < path.utf8ByteSize then throw .nameTooLong
  let start := if path.toList.head? = some '/' then Place.above else .here
  match ← (path.splitOn "/").foldlM d.follow start with
  | .file content => return content
  | .here | .above => throw .isDirectory

end Directory

end LoopNest
