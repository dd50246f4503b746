import BrightScript.Config.Load
import BrightScript.Program

/-! The command `bsc [options] [file...]`: compiles a project, tells what is wrong with it and
writes the output. -/
namespace BrightScript.CommandLine

inductive Switch where
  | project | rootDir | stagingDir | protection | noEmit | verbose | help | version
  deriving DecidableEq, Repr

namespace Switch

def all : List Switch :=
  [project, rootDir, stagingDir, protection, noEmit, verbose, help, version]

def long : Switch → String
  | project => "project"
  | rootDir => "root-dir"
  | stagingDir => "staging-dir"
  | protection => "conditional-scope-protection"
  | noEmit => "no-emit"
  | verbose => "verbose"
  | help => "help"
  | version => "version"

def short? : Switch → Option Char
  | project => some 'p'
  | verbose => some 'v'
  | help => some 'h'
  | version => some 'V'
  | _ => none

def takesValue : Switch → Bool
  | project | rootDir | stagingDir | protection => true
  | _ => false

def ofLong? (name : String) : Option Switch := all.find? (·.long == name)

def ofShort? (c : Char) : Option Switch := all.find? (·.short? == some c)

end Switch

structure Arguments where
  files : List String := []
  project : Option String := none
  rootDir : Option String := none
  stagingDir : Option String := none
  protection : Option Protection := none
  noEmit : Bool := false
  verbosity : Nat := 0
  deriving DecidableEq, Repr

/- Why the arguments give nothing to compile. -/
inductive Stop where
  | usage
  | help
  | version
  deriving DecidableEq, Repr

namespace Arguments

def addFile (a : Arguments) (path : String) : Except Stop Arguments :=
  if path = "" then .error .usage else .ok { a with files := a.files ++ [path] }

def setPath (old : Option String) (path : String) : Except Stop (Option String) :=
  if old.isSome || path = "" then .error .usage else .ok (some path)

def setValue (a : Arguments) (value : String) : Switch → Except Stop Arguments
  | .project => return { a with project := ← setPath a.project value }
  | .rootDir => return { a with rootDir := ← setPath a.rootDir value }
  | .stagingDir => return { a with stagingDir := ← setPath a.stagingDir value }
  | .protection =>
    match Protection.ofName? value with
    | some p => if a.protection.isSome then .error .usage else .ok { a with protection := some p }
    | none => .error .usage
  | _ => .error .usage

def setFlag (a : Arguments) : Switch → Except Stop Arguments
  | .noEmit => if a.noEmit then .error .usage else .ok { a with noEmit := true }
  | .verbose => .ok { a with verbosity := a.verbosity + 1 }
  | .help => .error .help
  | .version => .error .version
  | _ => .error .usage

end Arguments

def isOption (arg : String) : Bool := arg.startsWith "-" && arg ≠ "-"

/- What a group of short options comes to: the last one may want a value. -/
inductive Pending where
  | done (a : Arguments)
  | wants (a : Arguments) (s : Switch)

def shortOptions (a : Arguments) : List Char → Except Stop Pending
  | [] => .ok (.done a)
  | c :: rest =>
    match Switch.ofShort? c with
    | none => .error .usage
    | some s =>
      if s.takesValue then
        match rest with
        | [] => .ok (.wants a s)
        | '=' :: value => .done <$> a.setValue (String.ofList value) s
        | value => .done <$> a.setValue (String.ofList value) s
      else
        match a.setFlag s with
        | .error stop => .error stop
        | .ok a => shortOptions a rest

def longOption (a : Arguments) (text : List Char) : Except Stop Pending :=
  let name := text.takeWhile (· ≠ '=')
  match Switch.ofLong? (String.ofList name), text.drop name.length with
  | none, _ => .error .usage
  | some s, [] => if s.takesValue then .ok (.wants a s) else .done <$> a.setFlag s
  | some s, _ :: value =>
    if s.takesValue then .done <$> a.setValue (String.ofList value) s else .error .usage

def options (a : Arguments) (arg : String) : Except Stop Pending :=
  match arg.toList with
  | '-' :: '-' :: text => longOption a text
  | '-' :: text => shortOptions a text
  | _ => .error .usage

/-- Reads arguments from left to right; the first that stops decides. -/
def parseFrom (a : Arguments) : List String → Except Stop Arguments
  | [] => .ok a
  | arg :: rest =>
    if arg = "--" then rest.foldlM Arguments.addFile a
    else if isOption arg then
      match options a arg with
      | .error stop => .error stop
      | .ok (.done a) => parseFrom a rest
      | .ok (.wants a s) =>
        match rest with
        | [] => .error .usage
        | value :: rest =>
          if isOption value then .error .usage
          else
            match a.setValue value s with
            | .error stop => .error stop
            | .ok a => parseFrom a rest
    else
      match a.addFile arg with
      | .error stop => .error stop
      | .ok a => parseFrom a rest

def parse (args : List String) : Except Stop Arguments := parseFrom {} args

inductive Failure where
  | config (path : String) (cause : ConfigError)
  | sources (cause : ProgramError)
  | output (cause : ProgramError)
  deriving DecidableEq, Repr

namespace Failure

def message : Failure → String
  | config path cause => "Failed to load project '" ++ path ++ "': " ++ cause.message
  | sources cause => "Failed to load source files: " ++ cause.message
  | output cause => "Failed to write output files: " ++ cause.message

end Failure

inductive Outcome where
  | usage
  | failed (failure : Failure)
  | finished (exitCode : Nat) (stdout stderr : List String)
  deriving DecidableEq, Repr

namespace Outcome

def exitCode : Outcome → Nat
  | usage => 2
  | failed _ => 1
  | finished code _ _ => code

end Outcome

def projectPath? (t : FileTree) (a : Arguments) : Option String :=
  match a.project with
  | some path => some path
  | none => if t.isFile "bsconfig.json" then some "bsconfig.json" else none

/-- Arguments come before the project file. -/
def override (a : Arguments) (c : Config) : Config :=
  { c with
    rootDir := a.rootDir.or c.rootDir
    stagingDir := a.stagingDir.or c.stagingDir
    protection := a.protection.getD c.protection
    files := if a.files.isEmpty then c.files else a.files }

def resolveConfig (t : FileTree) (a : Arguments) : Except Failure Config :=
  match projectPath? t a with
  | none => .ok (override a {})
  | some path =>
    match Config.load t path with
    | .ok c => .ok (override a c)
    | .error e => .error (.config path e)

def summary (count : Nat) : String :=
  "Found " ++ toString count ++ " error" ++ (if count = 1 then "" else "s") ++ "."

/-- What a compiled program says and writes. Nothing is written when there are errors. -/
def finish (t : FileTree) (noEmit : Bool) (p : Program) : FileTree × Outcome :=
  let diagnostics := p.compile
  let shown := if p.config.showsDiagnostics then diagnostics.map Diagnostic.display else []
  if Diagnostic.hasErrors diagnostics then
    (t, .finished 1 [] (shown ++ ["", summary (Diagnostic.errorCount diagnostics)]))
  else if noEmit then (t, .finished 0 [] shown)
  else
    match p.write t with
    | (t, some e) => (t, .failed (.output e))
    | (t, none) => (t, .finished 0 [] shown)

def compile (t : FileTree) (a : Arguments) : FileTree × Outcome :=
  match resolveConfig t a with
  | .error failure => (t, .failed failure)
  | .ok c =>
    match Program.load t { config := c } with
    | (_, some e) => (t, .failed (.sources e))
    | (p, none) =>
      if p.sources.isEmpty then (t, .finished 1 [] ["error: No input files found."])
      else finish t a.noEmit p

def versionText : String := "bsc 0.1.0"

def usageText : String := "Usage: bsc [OPTIONS] [FILE]..."

def helpText : List String :=
  ["BrighterScript compiler", "", usageText, "", "Options:",
    "  -p, --project <PATH>   Path to bsconfig.json",
    "      --root-dir <PATH>   Project root directory",
    "      --staging-dir <PATH>   Where transpiled files are written",
    "      --conditional-scope-protection <WORD>   How conditional expressions are transpiled (safe or none)",
    "      --no-emit   Report diagnostics only; do not write output files",
    "  -v, --verbose   Increase logging verbosity",
    "  -h, --help   Print help",
    "  -V, --version   Print version"]

/-- Runs the command on a tree of files. -/
def run (t : FileTree) (args : List String) : FileTree × Outcome :=
  match parse args with
  | .error .usage => (t, .usage)
  | .error .help => (t, .finished 0 helpText [])
  | .error .version => (t, .finished 0 [versionText] [])
  | .ok a => compile t a

end BrightScript.CommandLine
