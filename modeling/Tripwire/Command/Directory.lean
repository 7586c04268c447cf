/-!
# Files by their paths

How a path leads to a file, and why it may not.

* `ReadFailure`: why a file cannot be read, with its `diagnostic`;
* `Directory`: files held in memory, and the place from which relative paths start;
* `Directory.find`: where a path leads;
* `Directory.read`: the text of the file that a path leads to.

A place is given by the names on the way from the root, the last name first.
-/

namespace Tripwire.Command

/-- Why a file cannot be read. -/
inductive ReadFailure
  | notFound
  | notADirectory
  | isADirectory
  | nameTooLong
  deriving DecidableEq, Repr

/-- The failure in constructor notation. -/
def ReadFailure.diagnostic : ReadFailure → String
  | .notFound => "Os \x7b code: 2, kind: NotFound, message: \"No such file or directory\" \x7d"
  | .notADirectory => "Os \x7b code: 20, kind: NotADirectory, message: \"Not a directory\" \x7d"
  | .isADirectory => "Os \x7b code: 21, kind: IsADirectory, message: \"Is a directory\" \x7d"
  | .nameTooLong => "Os \x7b code: 36, kind: InvalidFilename, message: \"File name too long\" \x7d"

/-- Files held in memory, each with its place, and the place from which relative paths start. What
holds a file is a folder; `folders` has the places of others. -/
structure Directory where
  start : List String
  folders : List (List String)
  files : List (List String × String)
  deriving DecidableEq, Repr

/-- What a path leads to. -/
inductive Find
  | file (text : String)
  | folder (place : List String)
  deriving DecidableEq, Repr

namespace Directory

/-- The longest name of a file, in bytes. -/
def maxName : Nat := 255

/-- The longest path, in bytes. -/
def maxPath : Nat := 4095

/-- Whether there is a folder at a place: the start is one, and what holds a folder or a file. -/
def isFolder (d : Directory) (place : List String) : Bool :=
  (d.start :: d.folders).any place.isSuffixOf ||
    d.files.any fun (file, _) => file != place && place.isSuffixOf file

/-- What stands at a place. -/
def at? (d : Directory) (place : List String) : Option Find :=
  match d.files.lookup place with
  | some text => some (.file text)
  | none => if d.isFolder place then some (.folder place) else none

/-- Follows one part of a path. An empty part and a point stay in the folder, two points lead to the
folder around it; the root is around itself. -/
def enter (d : Directory) (here : Find) (name : String) : Except ReadFailure Find :=
  match here with
  | .file _ => .error .notADirectory
  | .folder place =>
    if name == "" || name == "." then .ok (.folder place)
    else if name == ".." then .ok (.folder place.tail)
    else if name.utf8ByteSize > maxName then .error .nameTooLong
    else
      match d.at? (name :: place) with
      | some found => .ok found
      | none => .error .notFound

/-- Where a path leads. A leading stroke means that it starts at the root. -/
def find (d : Directory) (path : String) : Except ReadFailure Find :=
  if path == "" then .error .notFound
  else if path.utf8ByteSize > maxPath then .error .nameTooLong
  else
    let start : Find := .folder (if path.toList.head? = some '/' then [] else d.start)
    (path.splitOn "/").foldlM d.enter start

/-- The text of the file that a path leads to. -/
def read (d : Directory) (path : String) : Except ReadFailure String :=
  match d.find path with
  | .ok (.file text) => .ok text
  | .ok (.folder _) => .error .isADirectory
  | .error failure => .error failure

end Directory

end Tripwire.Command
