import BrightScript.Config
import BrightScript.Json.Reader

/-! The options as JSON: the text of a project file, and values that have been read already.
Text is read straight into the options, so the first thing that is wrong decides; in a value
that is JSON already, every misfit is the same. -/
namespace BrightScript

inductive Field where
  | extends_ | cwd | rootDir | files | stagingDir | ignoredCodes | filters | level | logLevel
  | protection | fullPaths | showsDiagnostics
  deriving DecidableEq, Repr

namespace Field

/- The order in which an array lists the fields. -/
def all : List Field :=
  [extends_, cwd, rootDir, files, stagingDir, ignoredCodes, filters, level, logLevel, protection,
    fullPaths, showsDiagnostics]

def name : Field → String
  | extends_ => "extends"
  | cwd => "cwd"
  | rootDir => "rootDir"
  | files => "files"
  | stagingDir => "stagingDir"
  | ignoredCodes => "ignoreErrorCodes"
  | filters => "diagnosticFilters"
  | level => "diagnosticLevel"
  | logLevel => "logLevel"
  | protection => "conditionalScopeProtection"
  | fullPaths => "emitFullPaths"
  | showsDiagnostics => "showDiagnosticsInConsole"

/-- One field has a second name. -/
def names : List (String × Field) :=
  all.map (fun f => (f.name, f)) ++ [("stagingFolderPath", stagingDir)]

def ofName? (name : String) : Option Field := names.lookup name

/- A filter stands inside two levels already. -/
def readFilter : Json.Reader Filter := do
  match Filter.ofJson? (← Json.Reader.value (Json.maxDepth - 2)) with
  | some f => pure f
  | none => throw .mismatch

open Json.Reader in
/-- Reads the value of a field and puts it in. -/
def read (c : Config) : Field → Json.Reader Config
  | extends_ => do return { c with extends_ := ← optional string }
  | cwd => do return { c with cwd := ← optional string }
  | rootDir => do return { c with rootDir := ← optional string }
  | files => do return { c with files := ← list string }
  | stagingDir => do return { c with stagingDir := ← optional string }
  | ignoredCodes => do
    return { c with ignoredCodes := (← list (below (Nat.pow 2 32))).map UInt32.ofNat }
  | filters => do return { c with filters := ← list readFilter }
  | level => do return { c with level := ← word Severity.words }
  | logLevel => do return { c with logLevel := ← word LogLevel.words }
  | protection => do return { c with protection := ← word Protection.words }
  | fullPaths => do return { c with fullPaths := ← boolean }
  | showsDiagnostics => do return { c with showsDiagnostics := ← boolean }

end Field

namespace Json

def toString? : Json → Option String
  | string s => some s
  | _ => none

def toBool? : Json → Option Bool
  | bool b => some b
  | _ => none

def toOption? {α : Type} (f : Json → Option α) : Json → Option (Option α)
  | null => some none
  | j => (f j).map some

def toList? {α : Type} (f : Json → Option α) : Json → Option (List α)
  | array items => items.mapM f
  | _ => none

def toWord? {α : Type} (words : List (String × α)) : Json → Option α
  | string s => words.lookup s
  | object [(s, null)] => words.lookup s
  | _ => none

end Json

namespace Field

open Json in
def decode? (c : Config) (j : Json) : Field → Option Config
  | extends_ => j.toOption? toString? |>.map fun x => { c with extends_ := x }
  | cwd => j.toOption? toString? |>.map fun x => { c with cwd := x }
  | rootDir => j.toOption? toString? |>.map fun x => { c with rootDir := x }
  | files => j.toList? toString? |>.map fun x => { c with files := x }
  | stagingDir => j.toOption? toString? |>.map fun x => { c with stagingDir := x }
  | ignoredCodes => j.toCodes?.map fun x => { c with ignoredCodes := x }
  | filters => j.toList? Filter.ofJson? |>.map fun x => { c with filters := x }
  | level => j.toWord? Severity.words |>.map fun x => { c with level := x }
  | logLevel => j.toWord? LogLevel.words |>.map fun x => { c with logLevel := x }
  | protection => j.toWord? Protection.words |>.map fun x => { c with protection := x }
  | fullPaths => j.toBool?.map fun x => { c with fullPaths := x }
  | showsDiagnostics => j.toBool?.map fun x => { c with showsDiagnostics := x }

def encode (c : Config) : Field → Json
  | extends_ => .ofOption .string c.extends_
  | cwd => .ofOption .string c.cwd
  | rootDir => .ofOption .string c.rootDir
  | files => .array (c.files.map .string)
  | stagingDir => .ofOption .string c.stagingDir
  | ignoredCodes => .ofCodes c.ignoredCodes
  | filters => .array (c.filters.map Filter.toJson)
  | level => .string c.level.word
  | logLevel => .string c.logLevel.word
  | protection => .string c.protection.word
  | fullPaths => .bool c.fullPaths
  | showsDiagnostics => .bool c.showsDiagnostics

end Field

namespace Config

def toJson (c : Config) : Json := .object (Field.all.map fun f => (f.name, f.encode c))

/- A field may be given once, under either of its names; unknown keys are passed over. -/
def decodeFrom (seen : List Field) (c : Config) : List (String × Json) → Option Config
  | [] => some c
  | (key, value) :: rest =>
    match Field.ofName? key with
    | none => decodeFrom seen c rest
    | some f =>
      if f ∈ seen then none
      else (f.decode? c value).bind fun c => decodeFrom (f :: seen) c rest

def ofFields? (fields : List (String × Json)) : Option Config := decodeFrom [] {} fields

def ofJson? : Json → Option Config
  | .object fields => ofFields? fields
  | _ => none

open Json.Reader

def readField (state : List Field × Config) (key : String) : Json.Reader (List Field × Config) := do
  match Field.ofName? key with
  | none =>
    colon
    skip
    pure state
  | some f =>
    if f ∈ state.1 then throw .mismatch
    else
      colon
      return (f :: state.1, ← f.read state.2)

/- The fields in order; those that are missing at the end keep their defaults. -/
def readItems (first : Bool) (c : Config) : List Field → Json.Reader Config
  | [] => do
    endArray
    pure c
  | f :: rest => do
    if ← hasItem first then readItems false (← f.read c) rest
    else
      endArray
      pure c

def reader : Json.Reader Config := do
  match ← peek with
  | none => throw .early
  | some '{' =>
    eat
    return (← fields readField ([], {})).2
  | some '[' =>
    eat
    readItems true {} Field.all
  | some _ => refuse

/-- The options that a text gives. Nothing is read besides: `extends` is not followed. -/
def parse (text : String) : Except Json.Fault Config := Json.Reader.run reader text

end Config
end BrightScript
