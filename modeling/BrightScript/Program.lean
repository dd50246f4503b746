import BrightScript.Config
import BrightScript.Files.Tree
import BrightScript.Parser
import BrightScript.Token.Scan

/-! A program: the sources of a project, what is wrong with them, and the files made from them. -/
namespace BrightScript

def Mode.ofPath (path : String) : Mode :=
  if Path.hasExtension path "bs" then .brighterScript else .brightScript

inductive ProgramError where
  | unreadable (path : String) (cause : FileError)
  | unwritable (path : String) (cause : FileError)
  | missing (path : String)
  deriving DecidableEq, Repr

namespace ProgramError

def message : ProgramError → String
  | unreadable path cause => "cannot read '" ++ path ++ "': " ++ cause.message
  | unwritable path cause => "cannot write '" ++ path ++ "': " ++ cause.message
  | missing path => "source path '" ++ path ++ "' does not exist"

end ProgramError

/- The path is seen from the root of the project. -/
structure Source where
  path : String
  text : String
  deriving DecidableEq, Repr

namespace Source

def mode (s : Source) : Mode := .ofPath s.path

/-- Names in reports are divided by `/` only. -/
def name (s : Source) : String := s.path.map fun c => if c = '\\' then '/' else c

/-- Reports of the scanner, then of the parser. -/
def diagnostics (s : Source) : List Diagnostic :=
  let found := scan s.text
  (found.diagnostics ++ (parse s.mode found.tokens).diagnostics).map (·.inFile s.name)

end Source

/- The path is seen from the staging directory. -/
structure Output where
  path : String
  text : String
  deriving DecidableEq, Repr

structure Program where
  config : Config
  sources : List Source := []

namespace Program

def add (p : Program) (path text : String) : Program :=
  if p.sources.any fun s => Path.same s.path path then
    { p with sources := p.sources.map fun s =>
        if Path.same s.path path then { s with text } else s }
  else { p with sources := p.sources ++ [⟨path, text⟩] }

def isSource (path : String) : Bool :=
  Path.hasExtension path "brs" || Path.hasExtension path "bs"

def isFound (t : FileTree) (dir : String) (names : Location) : Bool :=
  let path := names.foldl Path.join dir
  isSource path && !t.isDirectory path && t.isDirectory (names.dropLast.foldl Path.join dir)

/-- What is no directory below a directory, and a source by its extension. -/
def sourcesBelow (t : FileTree) (dir : String) : List String :=
  match t.resolve dir with
  | .error _ => []
  | .ok at_ => ((t.below at_).filter (isFound t dir)).map (·.foldl Path.join dir)

/- A file that is named is taken whatever its extension. -/
def entryFiles (t : FileTree) (entry : String) : Except ProgramError (List String) :=
  if t.isDirectory entry then .ok (sourcesBelow t entry)
  else if t.isFile entry then .ok [entry]
  else .error (.missing entry)

def entries (c : Config) : List String :=
  if c.files.isEmpty then [c.root] else c.files.map (Path.join c.root)

def dedup : List String → List String
  | [] => []
  | [path] => [path]
  | a :: b :: rest => if Path.same a b then dedup (a :: rest) else a :: dedup (b :: rest)

def findFiles (t : FileTree) (c : Config) : Except ProgramError (List String) := do
  let found ← (entries c).mapM (entryFiles t)
  return dedup (found.flatten.mergeSort Path.le)

def addFiles (t : FileTree) (p : Program) : List String → Program × Option ProgramError
  | [] => (p, none)
  | path :: rest =>
    match t.readText path with
    | .error cause => (p, some (.unreadable path cause))
    | .ok text => addFiles t (p.add ((Path.stripPrefix? path p.config.root).getD path) text) rest

def load (t : FileTree) (p : Program) : Program × Option ProgramError :=
  match findFiles t p.config with
  | .error e => (p, some e)
  | .ok files => addFiles t p files

def showFile (c : Config) (d : Diagnostic) : Diagnostic :=
  if c.fullPaths then { d with file := d.file.map (Path.join c.root) } else d

def compile (p : Program) : List Diagnostic :=
  let reported := (p.sources.flatMap Source.diagnostics).filter p.config.isReported
  Diagnostic.sorted (reported.map (showFile p.config))

def emitOptions (c : Config) : Emit.Options := { protection := c.protection }

def output (c : Config) (s : Source) : Output :=
  ⟨Path.withExtension s.path "brs", emit (emitOptions c) (parse s.mode (scan s.text).tokens).statements⟩

def outputs (p : Program) : List Output := p.sources.map (output p.config)

def makeParent (t : FileTree) (path : String) : FileTree × Option ProgramError :=
  match Path.parent? path with
  | none => (t, none)
  | some dir =>
    let (t, failure) := t.makeDirectories dir
    (t, failure.map (.unwritable dir))

def writeOne (staging : String) (t : FileTree) (o : Output) : FileTree × Option ProgramError :=
  let path := Path.join staging o.path
  match makeParent t path with
  | (t, some e) => (t, some e)
  | (t, none) =>
    match t.writeText path o.text with
    | .ok t => (t, none)
    | .error cause => (t, some (.unwritable path cause))

def writeAll (staging : String) (t : FileTree) : List Output → FileTree × Option ProgramError
  | [] => (t, none)
  | o :: rest =>
    match writeOne staging t o with
    | (t, none) => writeAll staging t rest
    | (t, some e) => (t, some e)

-- The two sides agree without a look at how an output is written.
seal writeOne in
theorem writeAll_cons (staging : String) (t : FileTree) (o : Output) (rest : List Output) :
    writeAll staging t (o :: rest) =
      match writeOne staging t o with
      | (t, none) => writeAll staging t rest
      | (t, some e) => (t, some e) := rfl

def write (p : Program) (t : FileTree) : FileTree × Option ProgramError :=
  writeAll p.config.staging t p.outputs

end Program
end BrightScript
