/-!
# Resource names as paths

A resource names a file by a path, read the way the operating system reads one. A name with a
NUL character is refused before the system sees it; the empty name names nothing; a name of
4096 bytes or more is too long. Otherwise `/` separates components (several in a row count as
one), a name that starts with `/` starts at the root of the host, and any other name starts in
the file store. A name that ends in `/` asks for a directory.

`Name.parse` splits a name into where its walk starts, the components to walk through and the
last component, which each operation treats in its own way.
-/

namespace CpsMachine

namespace Files

/-- Why a file operation failed. -/
inductive IoError where
  | notFound
  | isDirectory
  | notDirectory
  | alreadyExists
  /-- A name of 4096 bytes or more, or a component of more than 255 bytes. -/
  | nameTooLong
  /-- A name with a NUL character, which no system call can take. -/
  | nulInName
  /-- The file's bytes are not UTF-8. -/
  | invalidText
  /-- The file refuses to be opened that way. -/
  | permissionDenied
  deriving DecidableEq, Repr

/-- The operating system's text of each error. -/
def IoError.message : IoError → String
  | .notFound => "No such file or directory (os error 2)"
  | .isDirectory => "Is a directory (os error 21)"
  | .notDirectory => "Not a directory (os error 20)"
  | .alreadyExists => "File exists (os error 17)"
  | .nameTooLong => "File name too long (os error 36)"
  | .nulInName => "file name contained an unexpected NUL byte"
  | .invalidText => "stream did not contain valid UTF-8"
  | .permissionDenied => "Permission denied (os error 13)"

/-- A path: its components, none of them empty, `.` or `..`. -/
abbrev Path := List String

/-- Names of this many bytes or more are refused whole. -/
def pathLimit : Nat := 4096

/-- Components of more than this many bytes cannot be looked up. -/
def componentLimit : Nat := 255

/-- Whether a component is too long to look up. -/
def overLong (c : String) : Bool :=
  componentLimit < c.utf8ByteSize

/-- Where the walk of a name starts. -/
inductive Origin where
  /-- The root directory of the file store, for a relative name. -/
  | store
  /-- The root of the host, for a name that starts with `/`. -/
  | host
  deriving DecidableEq, Repr

/-- A name split for a walk. -/
structure Name where
  origin : Origin
  /-- The components before the last, in order; `.` and `..` among them. -/
  dirs : List String
  /-- The last component; `none` when the name is the root itself, such as `/`. -/
  last : Option String
  /-- The name ends with `/`. -/
  trailing : Bool
  deriving Repr

namespace Name

/-- Splits a name, or gives the error that the name itself causes. -/
def parse (name : String) : Except IoError Name :=
  if name.contains (Char.ofNat 0) then .error .nulInName
  else if name.isEmpty then .error .notFound
  else if pathLimit ≤ name.utf8ByteSize then .error .nameTooLong
  else
    let origin := if name.startsWith "/" then Origin.host else Origin.store
    let trailing := name.endsWith "/"
    match ((name.splitOn "/").filter (· ≠ "")).reverse with
    | [] => .ok ⟨origin, [], none, trailing⟩
    | last :: dirs => .ok ⟨origin, dirs.reverse, some last, trailing⟩

end Name

/-- The components of a name given from outside, as the name's parent is found from them:
empty components and `.` are dropped, except a `.` that begins a name. A name's parent is the
name its components but the last spell, which need not name the directory the name is in:
the parent of `x/.` is the empty name, not `x`. -/
def Path.components (name : String) : Path :=
  let keep := fun c => !(c = "" ∨ c = ".")
  match name.splitOn "/" with
  | "." :: rest => "." :: rest.filter keep
  | parts => parts.filter keep

/-- The name that spells the components `cs`, from the host's root if `absolute`. -/
def Path.spell (absolute : Bool) (cs : Path) : String :=
  (if absolute then "/" else "") ++ "/".intercalate cs

end Files

end CpsMachine
