import BrightScript.Files.Entry
import BrightScript.Files.Path

/-! A tree of files, and the operations of a file system on it. -/
namespace BrightScript

inductive FileError where
  | notFound
  | notDirectory
  | isDirectory
  | exists_
  | notText
  | nulInPath
  | tooLong
  deriving DecidableEq, Repr

def FileError.message : FileError → String
  | notFound => "No such file or directory (os error 2)"
  | notDirectory => "Not a directory (os error 20)"
  | isDirectory => "Is a directory (os error 21)"
  | exists_ => "File exists (os error 17)"
  | notText => "stream did not contain valid UTF-8"
  | nulInPath => "file name contained an unexpected NUL byte"
  | tooLong => "File name too long (os error 36)"

/- Where a walk has come to. -/
structure Place where
  entry : FileEntry
  /- The directories above with the names taken there, the nearest first. -/
  above : List (String × FileEntry) := []

namespace Place

def location (p : Place) : Location := (p.above.map (·.1)).reverse

/- The root is its own parent. -/
def up (p : Place) : Place :=
  match p.above with
  | [] => p
  | (_, dir) :: above => ⟨dir, above⟩

def isLong (name : String) : Bool := 255 < name.utf8ByteSize

/- Each part is looked up in a directory, the idle ones too. -/
def step (p : Place) (part : String) : Except FileError Place :=
  match p.entry with
  | .file _ => .error .notDirectory
  | .directory entries =>
    if Path.isIdle part then .ok p
    else if part = ".." then .ok p.up
    else if isLong part then .error .tooLong
    else
      match entries.lookup part with
      | none => .error .notFound
      | some e => .ok ⟨e, (part, p.entry) :: p.above⟩

end Place

structure FileTree where
  root : FileEntry
  /- The directory that relative paths start from. -/
  current : Location

namespace FileTree

def get? (t : FileTree) (at_ : Location) : Option FileEntry := t.root.get? at_

def put (t : FileTree) (at_ : Location) (entry : FileEntry) : FileTree :=
  { t with root := t.root.put at_ entry }

/-- A tree with nothing in it but the way to the current directory. -/
def empty (current : Location) : FileTree := put ⟨.directory [], current⟩ current (.directory [])

def addDirectory (t : FileTree) (at_ : Location) : FileTree :=
  match t.get? at_ with
  | some (.directory _) => t
  | _ => t.put at_ (.directory [])

/-- Everything in the tree. -/
def entries (t : FileTree) : List (Location × FileEntry) := t.root.all

/-- Locations of all entries in a directory and below, seen from there. -/
def below (t : FileTree) (dir : Location) : List Location :=
  match t.get? dir with
  | some e => e.all.map (·.1)
  | none => []

def base (t : FileTree) (path : String) : Location :=
  if Path.isAbsolute path then [] else t.current

def walk (t : FileTree) (parts : List String) : Except FileError Place :=
  parts.foldlM Place.step { entry := t.root }

def locate (t : FileTree) (path : String) : Except FileError Location :=
  Place.location <$> t.walk (t.base path ++ Path.parts path)

/-- What is wrong with a path whatever the tree holds. A path has less than 4096 bytes. -/
def fault? (path : String) : Option FileError :=
  if path = "" then some .notFound
  else if path.toList.contains '\x00' then some .nulInPath
  else if 4096 ≤ path.utf8ByteSize then some .tooLong
  else none

def resolve (t : FileTree) (path : String) : Except FileError Location :=
  match fault? path with
  | some e => .error e
  | none => t.locate path

def entryAt? (t : FileTree) (path : String) : Option FileEntry :=
  match t.resolve path with
  | .ok at_ => t.get? at_
  | .error _ => none

def isDirectory (t : FileTree) (path : String) : Bool :=
  match t.entryAt? path with
  | some (.directory _) => true
  | _ => false

def isFile (t : FileTree) (path : String) : Bool :=
  match t.entryAt? path with
  | some (.file _) => true
  | _ => false

def readAt (t : FileTree) (at_ : Location) : Except FileError String :=
  match t.get? at_ with
  | none => .error .notFound
  | some (.directory _) => .error .isDirectory
  | some (.file bytes) =>
    match String.fromUTF8? bytes with
    | some text => .ok text
    | none => .error .notText

def readText (t : FileTree) (path : String) : Except FileError String := do
  let at_ ← t.resolve path
  t.readAt at_

def partsBefore (path : String) : List String := ((Path.parts path).reverse.dropWhile (· = "")).reverse

/-- The directory that holds or is to hold the last part of a path, and that part. -/
def split (t : FileTree) (path : String) : Except FileError (Location × String) := do
  let parts := partsBefore path
  let dir ← t.walk (t.base path ++ parts.dropLast)
  match dir.entry with
  | .directory _ => .ok (dir.location, parts.getLast?.getD "")
  | .file _ => .error .notDirectory

def isDots (part : String) : Bool := Path.isIdle part || part = ".."

/- A path that ends with a separator or with dots can only name a directory. -/
def writeText (t : FileTree) (path text : String) : Except FileError FileTree :=
  match fault? path with
  | some e => .error e
  | none =>
    match t.split path with
    | .error e => .error e
    | .ok (dir, name) =>
      if path.endsWith "/" || isDots name then .error .isDirectory
      else if Place.isLong name then .error .tooLong
      else
        match t.get? (dir ++ [name]) with
        | some (.directory _) => .error .isDirectory
        | _ => .ok (t.put (dir ++ [name]) (.file text.toUTF8))

def makeDirectory (t : FileTree) (path : String) : Except FileError FileTree :=
  match fault? path with
  | some e => .error e
  | none =>
    match t.split path with
    | .error e => .error e
    | .ok (dir, name) =>
      if isDots name || (t.get? (dir ++ [name])).isSome then .error .exists_
      else if Place.isLong name then .error .tooLong
      else .ok (t.put (dir ++ [name]) (.directory []))

/-- Makes the first of these directories, after those above it as far as they are missing. What
has been made stays also when the rest fails. -/
def makeFrom (t : FileTree) : List String → FileTree × Option FileError
  | [] => (t, some .notFound)
  | path :: above =>
    if path = "" then (t, none)
    else
      match t.makeDirectory path with
      | .ok t => (t, none)
      | .error .notFound =>
        match makeFrom t above with
        | (t, some e) => (t, some e)
        | (t, none) =>
          match t.makeDirectory path with
          | .ok t => (t, none)
          | .error e => (t, if t.isDirectory path then none else some e)
      | .error e => (t, if t.isDirectory path then none else some e)

def makeDirectories (t : FileTree) (path : String) : FileTree × Option FileError :=
  t.makeFrom (Path.ancestors path)

/-- Files that are new or hold something else than before. -/
def changes (before after : FileTree) : List (Location × ByteArray) :=
  after.entries.filterMap fun e =>
    match e.2, before.get? e.1 with
    | .file bytes, some (.file old) => if old.data = bytes.data then none else some (e.1, bytes)
    | .file bytes, _ => some (e.1, bytes)
    | .directory _, _ => none

end FileTree
end BrightScript
