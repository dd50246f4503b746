import BrightScript.Text.Identifier

/-! Paths as they are written, with `/` between names.
Two spellings of a path are the same path when they have the same components: repeated and
trailing separators and `.` in the middle do not count, a `.` in front does. -/
namespace BrightScript.Path

/- Everything before the first name. -/
inductive Head where
  | root
  | current
  | none
  deriving DecidableEq, Repr

inductive Component where
  | root
  | current
  | parent
  | name (text : String)
  deriving DecidableEq, Repr

def splitSlash (text : List Char) : List (List Char) :=
  match text with
  | [] => [[]]
  | c :: cs =>
    if c = '/' then [] :: splitSlash cs
    else
      match splitSlash cs with
      | [] => [[c]]
      | part :: rest => (c :: part) :: rest

def parts (path : String) : List String := (splitSlash path.toList).map String.ofList

def head (path : String) : Head :=
  match parts path with
  | "" :: _ :: _ => .root
  | "." :: _ => .current
  | _ => .none

/-- The parts after the head, as they are written. -/
def body (path : String) : List String :=
  match head path with
  | .none => parts path
  | _ => (parts path).drop 1

def isIdle (part : String) : Bool := part = "" || part = "."

def trimRight (body : List String) : List String := (body.reverse.dropWhile isIdle).reverse

def build (head : Head) (body : List String) : String :=
  let rest := "/".intercalate body
  match head, body with
  | .root, _ => "/" ++ rest
  | .current, [] => "."
  | .current, _ => "./" ++ rest
  | .none, _ => rest

def component (part : String) : Component := if part = ".." then .parent else .name part

def Head.components : Head → List Component
  | root => [.root]
  | current => [.current]
  | none => []

def components (path : String) : List Component :=
  (head path).components ++ ((body path).filter (!isIdle ·)).map component

def same (a b : String) : Bool := components a = components b

def Component.rank : Component → Nat
  | root => 0
  | current => 1
  | parent => 2
  | name _ => 3

def Component.lt : Component → Component → Bool
  | name a, name b => a < b
  | a, b => a.rank < b.rank

def componentsLE : List Component → List Component → Bool
  | [], _ => true
  | _ :: _, [] => false
  | a :: as, b :: bs => if a = b then componentsLE as bs else a.lt b

/-- Component by component: a path comes before those below it. -/
def le (a b : String) : Bool := componentsLE (components a) (components b)

def isAbsolute (path : String) : Bool := path.startsWith "/"

/-- `path` seen from `base`. -/
def join (base path : String) : String :=
  if isAbsolute path || base = "" then path
  else if base.endsWith "/" then base ++ path
  else base ++ "/" ++ path

def parent? (path : String) : Option String :=
  match trimRight (body path), head path with
  | [], .current => some ""
  | [], _ => none
  | parts, head => some (build head (trimRight parts.dropLast))

def fileName? (path : String) : Option String :=
  (trimRight (body path)).getLast?.filter (· ≠ "..")

/- The last point divides a name, unless it comes first. -/
def splitName (name : String) : String × Option String :=
  let after := name.toList.reverse.takeWhile (· ≠ '.')
  let before := (name.toList.reverse.drop (after.length + 1)).reverse
  if before.isEmpty then (name, none)
  else (String.ofList before, some (String.ofList after.reverse))

def extension? (path : String) : Option String := (fileName? path).bind fun n => (splitName n).2

def hasExtension (path ext : String) : Bool := (extension? path).any (Text.sameWord ext)

def setExtension (path ext : String) : String :=
  match fileName? path with
  | none => path
  | some name =>
    build (head path) ((trimRight (body path)).dropLast ++ [(splitName name).1 ++ "." ++ ext])

/- The characters of the old extension go first. A name such as `..bs` is left as `..` by that,
which is no name any more. -/
def withExtension (path ext : String) : String :=
  match extension? path with
  | none => setExtension path ext
  | some old => setExtension (String.ofList (path.toList.take (path.length - old.length))) ext

/-- Drops this many components that are not idle, and the idle ones around them. -/
def dropParts : Nat → List String → List String
  | 0, parts => parts.dropWhile isIdle
  | _ + 1, [] => []
  | n + 1, part :: rest => if isIdle part then dropParts (n + 1) rest else dropParts n rest

def stripPrefix? (path base : String) : Option String :=
  if (components base).isPrefixOf (components path) then
    match components base, (head path).components.length with
    | [], _ => some (build (head path) (trimRight (body path)))
    | b, n => some (build .none (trimRight (dropParts (b.length - n) (body path))))
  else none

def ancestorsFrom : (fuel : Nat) → String → List String
  | 0, path => [path]
  | fuel + 1, path =>
    match parent? path with
    | some above => path :: ancestorsFrom fuel above
    | none => [path]

def ancestors (path : String) : List String := ancestorsFrom path.length path

/-- The directory that a file's own relative paths start from. -/
def directory (path : String) : String :=
  match parent? path with
  | some dir => if dir = "" then "." else dir
  | none => "."

end BrightScript.Path
