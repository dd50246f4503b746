import BrightScript.Text.Position
import BrightScript.Text.Template

/-! What can be wrong with a program, and how it is told.
A `Problem` is the cause; its `Notice` is the entry of the catalogue that gives the code, the
severity and the wording. A `Diagnostic` is the finished report. -/
namespace BrightScript

/- Most severe first: this is also the order in which a project's level cuts reports off. -/
inductive Severity where
  | error | warning | information | hint
  deriving DecidableEq, Repr

namespace Severity

def rank : Severity → Nat
  | error => 0
  | warning => 1
  | information => 2
  | hint => 3

theorem eq_error {s : Severity} (first : s.rank = 0) : s = error := by
  cases s <;> first | rfl | cases first

def label : Severity → String
  | error => "error"
  | warning => "warning"
  | information => "info"
  | hint => "hint"

end Severity

structure Notice where
  code : Nat
  severity : Severity
  template : String
  deriving DecidableEq, Repr

inductive Problem where
  | unterminatedString
  | unexpectedCharacter (c : Char)
  | unexpectedToken (found : String)
  | expectedToken (wanted found : String)
  | expectedExpression (found : String)
  | expectedIdentifier (found : String)
  | expectedCall
  | expectedProperty
  | expectedLineEnd
  | tooDeep
  | unknownType (name : String)
  | unclosed (closer construct : String)
  | reservedWord (word : String)
  | unsupportedFeature (feature : String)
  | notConvertible (source target : String)
  | requiredAfterOptional (parameter : String)
  deriving DecidableEq, Repr

namespace Problem

def notice : Problem → Notice
  | unterminatedString => ⟨1001, .error, "Unterminated string at end of line"⟩
  | unexpectedCharacter _ => ⟨1002, .error, "Unexpected character '\x7b0\x7d'"⟩
  | unexpectedToken _ => ⟨1020, .error, "Unexpected token '\x7b0\x7d'"⟩
  | expectedToken _ _ => ⟨1022, .error, "Expected '\x7b0\x7d' but found '\x7b1\x7d'"⟩
  | expectedExpression _ => ⟨1023, .error, "Expected expression but found '\x7b0\x7d'"⟩
  | expectedIdentifier _ => ⟨1024, .error, "Expected identifier but found '\x7b0\x7d'"⟩
  | expectedCall =>
    ⟨1025, .error, "Expected statement or function call, but received an expression"⟩
  | expectedProperty => ⟨1026, .error, "Expected property name after '.'"⟩
  | expectedLineEnd => ⟨1027, .error, "Expected newline or ':' at the end of a statement"⟩
  | tooDeep => ⟨1028, .error, "Maximum nesting depth exceeded"⟩
  | unknownType _ => ⟨1029, .error, "Unknown type '\x7b0\x7d'"⟩
  | unclosed _ _ => ⟨1030, .error, "Expected '\x7b0\x7d' to terminate '\x7b1\x7d'"⟩
  | reservedWord _ => ⟨1060, .error, "Cannot use reserved word '\x7b0\x7d' as an identifier"⟩
  | unsupportedFeature _ =>
    ⟨1061, .error,
      "BrighterScript feature '\x7b0\x7d' is not supported in standard BrightScript files"⟩
  | notConvertible _ _ =>
    ⟨1062, .error, "Type '\x7b0\x7d' is not convertible to type '\x7b1\x7d'"⟩
  | requiredAfterOptional _ =>
    ⟨1063, .warning, "Required parameter '\x7b0\x7d' follows an optional parameter"⟩

def arguments : Problem → List String
  | unterminatedString | expectedCall | expectedProperty | expectedLineEnd | tooDeep => []
  | unexpectedCharacter c => [c.toString]
  | unexpectedToken x | expectedExpression x | expectedIdentifier x | unknownType x
  | reservedWord x | unsupportedFeature x | requiredAfterOptional x => [x]
  | expectedToken x y | unclosed x y | notConvertible x y => [x, y]

def message (p : Problem) : String := Text.fill p.notice.template p.arguments

theorem unexpectedToken_isError (found : String) :
    (unexpectedToken found).notice.severity = .error := rfl

theorem expectedIdentifier_isError (found : String) :
    (expectedIdentifier found).notice.severity = .error := rfl

end Problem

namespace Notice

def catalogue : List Notice :=
  [Problem.unterminatedString, .unexpectedCharacter ' ', .unexpectedToken "",
    .expectedToken "" "", .expectedExpression "", .expectedIdentifier "", .expectedCall,
    .expectedProperty, .expectedLineEnd, .tooDeep, .unknownType "", .unclosed "" "",
    .reservedWord "", .unsupportedFeature "", .notConvertible "" "",
    .requiredAfterOptional ""].map Problem.notice

def ofCode? (code : Nat) : Option Notice := catalogue.find? (·.code == code)

end Notice

structure Diagnostic where
  code : Nat
  message : String
  range : Range
  severity : Severity
  /- Set once the report leaves its own text. -/
  file : Option String := none
  deriving DecidableEq, Repr

namespace Diagnostic

def ofNotice (n : Notice) (args : List String) (range : Range) : Diagnostic :=
  { code := n.code, message := Text.fill n.template args, range, severity := n.severity }

def of (p : Problem) (range : Range) : Diagnostic := ofNotice p.notice p.arguments range

def inFile (d : Diagnostic) (file : String) : Diagnostic := { d with file := some file }

def isError (d : Diagnostic) : Bool := d.severity = .error

/-- The one-line report. -/
def display (d : Diagnostic) : String :=
  let place := match d.file with
    | some file => file ++ ":" ++ d.range.location ++ " - "
    | none => ""
  place ++ d.severity.label ++ " BS" ++ toString d.code ++ ": " ++ d.message

def fileLE : Option String → Option String → Bool
  | none, _ => true
  | some _, none => false
  | some a, some b => a = b || a < b

/- Only the file and the start are compared, so `sorted` leaves reports that share both in the
order in which they came. -/
def le (a b : Diagnostic) : Bool :=
  if a.file = b.file then a.range.start ≤ b.range.start else fileLE a.file b.file

def sorted (ds : List Diagnostic) : List Diagnostic := ds.mergeSort le

def errorCount (ds : List Diagnostic) : Nat := (ds.filter isError).length

def hasErrors (ds : List Diagnostic) : Bool := ds.any isError

end Diagnostic
end BrightScript
