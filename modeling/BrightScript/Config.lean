import BrightScript.Config.Filter
import BrightScript.Diagnostic
import BrightScript.Emit.Printer
import BrightScript.Files.Path

/-! The options of a project. -/
namespace BrightScript

inductive LogLevel where
  | error | warn | log | info | debug | trace
  deriving DecidableEq, Repr

namespace LogLevel

def word : LogLevel → String
  | error => "error"
  | warn => "warn"
  | log => "log"
  | info => "info"
  | debug => "debug"
  | trace => "trace"

def words : List (String × LogLevel) :=
  [error, warn, log, info, debug, trace].map fun l => (l.word, l)

def threshold : LogLevel → String
  | log => "warn"
  | level => level.word

end LogLevel

namespace Severity

def word : Severity → String
  | error => "error"
  | warning => "warning"
  | information => "information"
  | hint => "hint"

/- Two of them have a short form as well. -/
def words : List (String × Severity) :=
  [error, warning, information, hint].map (fun s => (s.word, s)) ++
    [("warn", warning), ("info", information)]

end Severity

namespace Protection

def word : Protection → String
  | safe => "safe"
  | none => "none"

def words : List (String × Protection) := [safe, none].map fun p => (p.word, p)

end Protection

structure Config where
  /- Another file with options, which this one takes over. -/
  extends_ : Option String := none
  cwd : Option String := none
  rootDir : Option String := none
  /- Files and directories below the root; without any, the whole root. -/
  files : List String := []
  stagingDir : Option String := none
  ignoredCodes : List UInt32 := []
  filters : List Filter := []
  level : Severity := .warning
  logLevel : LogLevel := .log
  protection : Protection := .safe
  fullPaths : Bool := false
  showsDiagnostics : Bool := true
  deriving DecidableEq, Repr

namespace Config

def root (c : Config) : String := (c.rootDir.or c.cwd).getD "."

def staging (c : Config) : String :=
  c.stagingDir.getD (Path.join (Path.join c.root "..") "out")

def isReported (c : Config) (d : Diagnostic) : Bool :=
  d.severity.rank ≤ c.level.rank && !c.ignoredCodes.any (·.toNat = d.code) &&
    !c.filters.any (·.hides d.code d.file)

end Config
end BrightScript
