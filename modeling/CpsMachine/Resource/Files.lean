import CpsMachine.Resource.Path

/-!
# The file store

The files a program can reach: a tree of directories and files, held as a list of entries keyed
by their path from the store's root, which is never listed itself. The store is one directory of
a host, `/tmp/…`; of the host only its standard directories, the null device and the links
`/bin`, `/lib`, `/lib64` and `/sbin` into `/usr` are known, so every other name outside the store
names nothing. A name is walked component by component: `.` stays, `..` goes up (the host's root
is its own parent, and after a link the parent of its target), a component looked up must be at
most 255 bytes, and a component that is walked through must be a directory.

* Programs read a file's text (`Store.readText`) and append to a file (`Store.append`), which
  never creates one. Only the null device and regular files can be opened; directories refuse,
  and so does a file locked against that kind of access (`Store.locked`, the files a program
  lacks permission for). `Store.opens` says whether a name leads to a regular file that opens.
* From outside a program, the store is changed as a system would: `Store.write` creates or
  truncates a file, `Store.makeDirAll` creates a directory and any missing parents, and
  `Store.unlink` removes a file.
-/

namespace CpsMachine

namespace Files

/-- A file's bytes, or a directory. -/
inductive Entry where
  | file (bytes : List UInt8)
  | dir
  deriving DecidableEq, Repr

/-- What the host has outside the store. -/
inductive HostEntry where
  | dir
  /-- A device that reads as empty and takes every write. -/
  | null
  /-- A link to the directory at an absolute path; `..` after it leaves that directory. -/
  | link (target : Path)
  deriving DecidableEq, Repr

/-- The host's known entries, by absolute path: its standard directories, the null device, and
the links from the root to the program directories under `/usr`. -/
def hostEntries : List (Path × HostEntry) :=
  [(["bin"], .link ["usr", "bin"]), (["dev"], .dir), (["dev", "null"], .null), (["etc"], .dir),
    (["home"], .dir), (["lib"], .link ["usr", "lib"]), (["lib64"], .link ["usr", "lib64"]),
    (["proc"], .dir), (["root"], .dir), (["sbin"], .link ["usr", "sbin"]), (["sys"], .dir),
    (["tmp"], .dir), (["usr"], .dir), (["usr", "bin"], .dir), (["usr", "lib"], .dir),
    (["usr", "lib64"], .dir), (["usr", "sbin"], .dir), (["var"], .dir)]

/-- The host directory that holds the store. -/
def storeParent : Path := ["tmp"]

/-- A directory a walk can stand in. -/
inductive Dir where
  | store (path : Path)
  | host (path : Path)
  deriving DecidableEq, Repr

/-- What a component names. -/
inductive Node where
  | file (path : Path)
  | dir (d : Dir)
  | null
  deriving DecidableEq, Repr

/-- The directory `..` leads to. -/
def Dir.parent : Dir → Dir
  | .store [] => .host storeParent
  | .store p => .store p.dropLast
  | .host p => .host p.dropLast

/-- The two ways a program opens a file. -/
inductive Access where
  | read
  | append
  deriving DecidableEq, Repr

/-- Entries keyed by their path from the store's root, and the files that refuse to be opened
in a way. -/
structure Store where
  entries : List (Path × Entry) := []
  locked : List (Path × Access) := []
  deriving Repr

namespace Store

/-- The entry at `path`. -/
def find? (s : Store) (path : Path) : Option Entry :=
  (s.entries.find? (fun e => e.1 == path)).map Prod.snd

/-- `s` with the entry at `path` set to `entry`, in place if there is one. -/
def set (s : Store) (path : Path) (entry : Entry) : Store :=
  if s.entries.any (fun e => e.1 == path) then
    { s with entries := s.entries.map (fun e => if e.1 == path then (path, entry) else e) }
  else
    { s with entries := s.entries ++ [(path, entry)] }

/-- `s` without the entry at `path`. -/
def erase (s : Store) (path : Path) : Store :=
  { s with entries := s.entries.filter fun e => e.1 != path }

/-- What the component `c` names in the directory `d`. -/
def child (s : Store) (d : Dir) (c : String) : Option Node :=
  match d with
  | .store p =>
    match s.find? (p ++ [c]) with
    | some (.file _) => some (.file (p ++ [c]))
    | some .dir => some (.dir (.store (p ++ [c])))
    | none => none
  | .host p =>
    match (hostEntries.find? (fun e => e.1 == p ++ [c])).map Prod.snd with
    | some .dir => some (.dir (.host (p ++ [c])))
    | some .null => some .null
    | some (.link target) => some (.dir (.host target))
    | none => none

/-- Walks through directories, from `d`, along the components `cs`. -/
def walk (s : Store) (d : Dir) : List String → Except IoError Dir
  | [] => .ok d
  | c :: rest =>
    if c = "." then s.walk d rest
    else if c = ".." then s.walk d.parent rest
    else if overLong c then .error .nameTooLong
    else
      match s.child d c with
      | some (.dir d') => s.walk d' rest
      | some _ => .error .notDirectory
      | none => .error .notFound

/-- The directory a name's last component is looked up in. -/
def dirOf (s : Store) (n : Name) : Except IoError Dir :=
  s.walk (match n.origin with | .store => .store [] | .host => .host []) n.dirs

/-- What an existing name leads to, as opening or inspecting it finds it. -/
def locate (s : Store) (name : String) : Except IoError Node := do
  let n ← Name.parse name
  let d ← s.dirOf n
  match n.last with
  | none => pure (.dir d)
  | some c =>
    if c = "." then pure (.dir d)
    else if c = ".." then pure (.dir d.parent)
    else if overLong c then throw .nameTooLong
    else
      match s.child d c with
      | none => throw .notFound
      | some (.dir d') => pure (.dir d')
      | some node => if n.trailing then throw .notDirectory else pure node

/-- Whether the file at `path` can be opened for `access`. -/
def permits (s : Store) (path : Path) (access : Access) : Bool :=
  !s.locked.contains (path, access)

/-- Whether the name leads to a regular file that can be opened for `access`. -/
def opens (s : Store) (access : Access) (name : String) : Bool :=
  match s.locate name with
  | .ok (.file path) => s.permits path access
  | _ => false

/-- Whether the name leads to a directory. -/
def isDir (s : Store) (name : String) : Bool :=
  match s.locate name with
  | .ok (.dir _) => true
  | _ => false

/-- The bytes of the file at `path`, empty if there is none. -/
def bytesAt (s : Store) (path : Path) : List UInt8 :=
  match s.find? path with
  | some (.file bytes) => bytes
  | _ => []

/-- The content of the named file as text; the null device reads as empty. -/
def readText (s : Store) (name : String) : Except IoError String := do
  match ← s.locate name with
  | .dir _ => throw .isDirectory
  | .null => pure ""
  | .file path =>
    if !s.permits path .read then throw .permissionDenied
    else
      match String.fromUTF8? ⟨(s.bytesAt path).toArray⟩ with
      | some text => pure text
      | none => throw .invalidText

/-- Appends bytes to the named file; the null device takes them and keeps nothing. -/
def append (s : Store) (name : String) (bytes : List UInt8) : Except IoError Store := do
  match ← s.locate name with
  | .dir _ => throw .isDirectory
  | .null => pure s
  | .file path =>
    if !s.permits path .append then throw .permissionDenied
    else pure (s.set path (.file (s.bytesAt path ++ bytes)))

/-- Creates the named file with the given bytes, or replaces the bytes of an existing one. The
host's directories take no new entries. -/
def write (s : Store) (name : String) (bytes : List UInt8) : Except IoError Store := do
  let n ← Name.parse name
  let d ← s.dirOf n
  match n.last with
  | none => throw .isDirectory
  | some c =>
    if c = "." ∨ c = ".." then throw .isDirectory
    else if overLong c then throw .nameTooLong
    else
      match s.child d c with
      | some (.dir _) => throw .isDirectory
      | some (.file path) => if n.trailing then throw .notDirectory else pure (s.set path (.file bytes))
      | some .null => if n.trailing then throw .notDirectory else pure s
      | none =>
        if n.trailing then throw .isDirectory
        else
          match d with
          | .store p => pure (s.set (p ++ [c]) (.file bytes))
          | .host _ => throw .notFound

/-- Creates the named directory, whose parent must exist. -/
def makeDir (s : Store) (name : String) : Except IoError Store := do
  let n ← Name.parse name
  let d ← s.dirOf n
  match n.last with
  | none => throw .alreadyExists
  | some c =>
    if c = "." ∨ c = ".." then throw .alreadyExists
    else if overLong c then throw .nameTooLong
    else
      match s.child d c with
      | some _ => throw .alreadyExists
      | none =>
        match d with
        | .store p => pure (s.set (p ++ [c]) .dir)
        | .host _ => throw .notFound

/-- Creates the named directory, or keeps the store if a directory is there already. -/
def makeDirOrKeep (s : Store) (name : String) : Except IoError Store :=
  match s.makeDir name with
  | .ok s' => .ok s'
  | .error e => if s.isDir name then .ok s else .error e

/-- Creates the directory `name`, whose components, last first, are `rev`, and any missing
parents, spelled from `rev` from the host's root if `absolute`. A directory that exists already
is no error; any other entry in the way is. When the parent has to be made first, `name` itself
is made again afterwards, so a name whose walk does not end at the made parent, such as `x/.`,
still fails. -/
def makeDirAllOf (s : Store) (absolute : Bool) (name : String) : List String → Except IoError Store
  | [] => if name.isEmpty then .ok s else s.makeDirOrKeep name
  | _ :: parents =>
    if name.isEmpty then .ok s
    else
      match s.makeDir name with
      | .ok s' => .ok s'
      | .error .notFound =>
        match s.makeDirAllOf absolute (Path.spell absolute parents.reverse) parents with
        | .error e => .error e
        | .ok s' => s'.makeDirOrKeep name
      | .error e => if s.isDir name then .ok s else .error e

/-- Creates the named directory with any missing parents. -/
def makeDirAll (s : Store) (name : String) : Except IoError Store :=
  s.makeDirAllOf (name.startsWith "/") name (Path.components name).reverse

/-- Removes the named file; a directory cannot be removed this way. -/
def unlink (s : Store) (name : String) : Except IoError Store := do
  let n ← Name.parse name
  let d ← s.dirOf n
  match n.last with
  | none => throw .isDirectory
  | some c =>
    if c = "." ∨ c = ".." then throw .isDirectory
    else if overLong c then throw .nameTooLong
    else
      match s.child d c with
      | none => throw .notFound
      | some (.dir _) => throw .isDirectory
      | some (.file path) => if n.trailing then throw .notDirectory else pure (s.erase path)
      | some .null => if n.trailing then throw .notDirectory else pure s

/-- Creates or overwrites the named entry. A file's parent, the name its components but the
last spell, is made first with any missing parents. -/
def put (s : Store) (name : String) (entry : Entry) : Except IoError Store := do
  match entry with
  | .dir => s.makeDirAll name
  | .file bytes =>
    let absolute := name.startsWith "/"
    let s ← match (Path.components name).reverse with
      | [] => pure s
      | _ :: parents => s.makeDirAllOf absolute (Path.spell absolute parents.reverse) parents
    s.write name bytes

end Store

end Files

end CpsMachine
