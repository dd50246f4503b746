import BrightScript.Input
import BrightScript.Json
import BrightScript.Number.Binary

/-! Reading JSON text from left to right, against an expected shape or as a value of any shape.
The first fault met is the one that is told. -/
namespace BrightScript.Json

inductive Fault where
  /- The text ends too early. -/
  | early
  /- The text is not JSON. -/
  | malformed
  /- The text is JSON of another shape. -/
  | mismatch
  deriving DecidableEq, Repr

abbrev Reader := StateT (Input Char) (Except Fault)

namespace Reader

variable {α σ : Type}

def isSpace (c : Char) : Bool := c = ' ' || c = '\n' || c = '\t' || c = '\r'

/-- The characters that are left. -/
def rest : Reader (List Char) := return (← get).items

def drop (n : Nat) : Reader Unit := modify (·.drop n)

def peek : Reader (Option Char) := do
  modify (·.skipWhile isSpace)
  return (← rest).head?

def eat : Reader Unit := drop 1

def expectNext (c : Char) : Reader Unit := do
  match ← rest with
  | [] => throw .early
  | d :: _ => if d = c then eat else throw .malformed

def expectWord : List Char → Reader Unit
  | [] => pure ()
  | c :: more => do
    expectNext c
    expectWord more

inductive Round (σ α : Type) where
  | again (next : σ)
  | done (result : α)

/- Every round that asks for another one consumes a character. -/
def loop (round : σ → Reader (Round σ α)) (x : σ) : Reader α := fun i =>
  match round x i with
  | .error fault => .error fault
  | .ok (.done a, i') => .ok (a, i')
  | .ok (.again y, i') => if i'.size < i.size then loop round y i' else .error .malformed
termination_by i => i.size

def hex4 : Reader Nat := do
  let four := (← rest).take 4
  if (String.ofList four).utf8ByteSize < 4 then throw .early
  else if four.length = 4 && four.all (fun c => c.isDigit || ('a' ≤ c && c ≤ 'f') || ('A' ≤ c && c ≤ 'F')) then
    drop 4
    pure (Number.ofDigits 16 four)
  else throw .malformed

def isLow (n : Nat) : Bool := 0xdc00 ≤ n && n ≤ 0xdfff
def isHigh (n : Nat) : Bool := 0xd800 ≤ n && n ≤ 0xdbff

/- A text that is kept needs its surrogates in pairs; one that is skipped does not. -/
def unicodeEscape (kept : Bool) : Reader Char := do
  let n ← hex4
  if !kept then pure ' '
  else if isLow n then throw .malformed
  else if isHigh n then
    expectNext '\\'
    expectNext 'u'
    let m ← hex4
    if isLow m then pure (Char.ofNat (0x10000 + (n - 0xd800) * 0x400 + (m - 0xdc00)))
    else throw .malformed
  else pure (Char.ofNat n)

def escape (kept : Bool) : Reader Char := do
  match ← rest with
  | [] => throw .early
  | c :: _ =>
    eat
    match c with
    | '"' => pure '"'
    | '\\' => pure '\\'
    | '/' => pure '/'
    | 'b' => pure '\x08'
    | 'f' => pure '\x0c'
    | 'n' => pure '\n'
    | 'r' => pure '\r'
    | 't' => pure '\t'
    | 'u' => unicodeEscape kept
    | _ => throw .malformed

def isPlain (c : Char) : Bool := c ≠ '"' && c ≠ '\\' && 0x20 ≤ c.toNat

def stringRound (kept : Bool) (done : List (List Char)) : Reader (Round (List (List Char)) String) := do
  let plain := (← rest).takeWhile isPlain
  drop plain.length
  match ← rest with
  | [] => throw .early
  | '"' :: _ =>
    eat
    pure (.done (String.ofList (plain :: done).reverse.flatten))
  | '\\' :: _ =>
    eat
    let c ← escape kept
    pure (.again ((plain ++ [c]) :: done))
  | _ => throw .malformed

def stringRest (kept : Bool) : Reader String := loop (stringRound kept) []

def takeDigits : Reader (List Char) := do
  let digits := (← rest).takeWhile Char.isDigit
  drop digits.length
  pure digits

/- A skipped numeral that breaks off counts as malformed even at the end of the text. -/
def breakOff (kept : Bool) : Reader α := do
  throw (if kept && (← rest).isEmpty then .early else .malformed)

def wholePart (kept : Bool) : Reader (List Char) := do
  let digits ← takeDigits
  if digits.isEmpty then breakOff kept
  else if digits.head? = some '0' && 1 < digits.length then throw .malformed
  else pure digits

def fractionPart (kept : Bool) : Reader (List Char) := do
  match ← rest with
  | '.' :: _ =>
    eat
    let digits ← takeDigits
    if digits.isEmpty then breakOff kept else pure ('.' :: digits)
  | _ => pure []

def exponentSign : Reader (List Char) := do
  match ← rest with
  | '+' :: _ =>
    eat
    pure ['+']
  | '-' :: _ =>
    eat
    pure ['-']
  | _ => pure []

def exponentPart (kept : Bool) : Reader (List Char) := do
  match ← rest with
  | c :: _ =>
    if c = 'e' || c = 'E' then
      eat
      let sign ← exponentSign
      let digits ← takeDigits
      if digits.isEmpty then breakOff kept else pure ('e' :: sign ++ digits)
    else pure []
  | [] => pure []

/- A number beyond the range of a double is refused where its value is kept. Its value is taken
from the leading digits, as many as 64 bits hold. -/
def isFinite (whole fraction exponent : List Char) : Bool :=
  Number.BinaryFormat.double.holds
    (.leading (Nat.pow 2 64) whole (fraction.drop 1) ((Number.Decimal.exponent? exponent).getD 0))

def magnitude (kept : Bool) : Reader (List Char) := do
  let whole ← wholePart kept
  let fraction ← fractionPart kept
  let exponent ← exponentPart kept
  if kept && !isFinite whole fraction exponent then throw .malformed
  else pure (whole ++ fraction ++ exponent)

/-- A numeral whose first character has been seen to be a sign or a digit. -/
def number (kept : Bool) : Reader String := do
  match ← rest with
  | '-' :: _ =>
    eat
    let text ← magnitude kept
    pure (String.ofList ('-' :: text))
  | _ => String.ofList <$> magnitude kept

def startsNumber (c : Char) : Bool := c = '-' || c.isDigit

def hasItem (first : Bool) : Reader Bool := do
  match ← peek with
  | none => throw .early
  | some ']' => pure false
  | some c =>
    if first then pure true
    else if c = ',' then
      eat
      match ← peek with
      | none => throw .early
      | some ']' => throw .malformed
      | some _ => pure true
    else throw .malformed

def itemsRound (item : Reader α) (done : List α) : Reader (Round (List α) (List α)) := do
  if ← hasItem done.isEmpty then
    let a ← item
    pure (.again (a :: done))
  else pure (.done done.reverse)

def endArray : Reader Unit := do
  match ← peek with
  | some ']' => eat
  | some _ => throw .malformed
  | none => throw .early

/-- The items of an array after its opening bracket, and the closing one. -/
def items (item : Reader α) : Reader (List α) := do
  let all ← loop (itemsRound item) []
  endArray
  pure all

def hasKey (first : Bool) : Reader Bool := do
  match ← peek with
  | none => throw .early
  | some '}' => pure false
  | some c =>
    if first then
      if c = '"' then pure true else throw .malformed
    else if c = ',' then
      eat
      match ← peek with
      | none => throw .early
      | some '"' => pure true
      | some _ => throw .malformed
    else throw .malformed

def colon : Reader Unit := do
  match ← peek with
  | some ':' => eat
  | some _ => throw .malformed
  | none => throw .early

/- The flag tells that no key has been read yet. -/
def fieldsRound (field : σ → String → Reader σ) (x : Bool × σ) : Reader (Round (Bool × σ) σ) := do
  if ← hasKey x.1 then
    eat
    let key ← stringRest true
    let y ← field x.2 key
    pure (.again (false, y))
  else
    eat
    pure (.done x.2)

/-- The fields of an object after its opening brace, and the closing one. Each key is handed on
before its colon, so that it can be refused there. -/
def fields (field : σ → String → Reader σ) (x : σ) : Reader σ :=
  loop (fieldsRound field) (true, x)

/-- A value of any shape with at most `depth` arrays and objects around any part of it. -/
def value (depth : Nat) : Reader Json := do
  match ← peek with
  | none => throw .early
  | some 'n' =>
    expectWord "null".toList
    pure .null
  | some 't' =>
    expectWord "true".toList
    pure (.bool true)
  | some 'f' =>
    expectWord "false".toList
    pure (.bool false)
  | some '"' =>
    eat
    .string <$> stringRest true
  | some '[' =>
    match depth with
    | 0 => throw .malformed
    | depth + 1 =>
      eat
      .array <$> items (value depth)
  | some '{' =>
    match depth with
    | 0 => throw .malformed
    | depth + 1 =>
      eat
      .object <$> fields (fun done key => do
        colon
        let v ← value depth
        pure (done ++ [(key, v)])) []
  | some c => if startsNumber c then .number <$> number true else throw .malformed

/-- Refuses a value of the wrong shape. What is wrong inside a scalar comes first. -/
def refuse : Reader α := do
  match ← peek with
  | some '[' | some '{' => throw .mismatch
  | _ =>
    let _ ← value 0
    throw .mismatch

/- The brackets that are open around a value being skipped. -/
inductive Frame where
  | array
  | object

def Frame.closer : Frame → Char
  | array => ']'
  | object => '}'

/-- What stands before a value in a frame: nothing, or a key and a colon. -/
def Frame.enter : Frame → Reader Unit
  | array => pure ()
  | object => do
    match ← peek with
    | some '"' =>
      eat
      let _ ← stringRest false
      colon
    | some _ => throw .malformed
    | none => throw .early

/-- After a value: the frames that end here, and those that hold another value. -/
def leave : List Frame → Reader (Option (List Frame))
  | [] => pure none
  | frame :: outer => do
    match ← peek with
    | none => throw .early
    | some c =>
      if c = ',' then
        eat
        frame.enter
        pure (some (frame :: outer))
      else if c = frame.closer then
        eat
        leave outer
      else throw .malformed

def nextRound (frames : List Frame) : Reader (Round (List Frame) Unit) := do
  match ← leave frames with
  | some frames => pure (.again frames)
  | none => pure (.done ())

def openFrame (frame : Frame) (outer : List Frame) : Reader (Round (List Frame) Unit) := do
  eat
  match ← peek with
  | none => throw .early
  | some c =>
    if c = frame.closer then
      eat
      nextRound outer
    else
      frame.enter
      pure (.again (frame :: outer))

def skipRound (frames : List Frame) : Reader (Round (List Frame) Unit) := do
  match ← peek with
  | none => throw .early
  | some '[' => openFrame .array frames
  | some '{' => openFrame .object frames
  | some 'n' =>
    expectWord "null".toList
    nextRound frames
  | some 't' =>
    expectWord "true".toList
    nextRound frames
  | some 'f' =>
    expectWord "false".toList
    nextRound frames
  | some '"' =>
    eat
    let _ ← stringRest false
    nextRound frames
  | some c =>
    if startsNumber c then
      let _ ← number false
      nextRound frames
    else throw .malformed

/-- Skips a value of any shape and any depth. -/
def skip : Reader Unit := loop skipRound []

def string : Reader String := do
  match ← peek with
  | none => throw .early
  | some '"' =>
    eat
    stringRest true
  | some _ => refuse

def boolean : Reader Bool := do
  match ← peek with
  | none => throw .early
  | some 't' =>
    expectWord "true".toList
    pure true
  | some 'f' =>
    expectWord "false".toList
    pure false
  | some _ => refuse

def optional (r : Reader α) : Reader (Option α) := do
  match ← peek with
  | some 'n' =>
    expectWord "null".toList
    pure none
  | _ => some <$> r

def list (r : Reader α) : Reader (List α) := do
  match ← peek with
  | none => throw .early
  | some '[' =>
    eat
    items r
  | some _ => refuse

/-- A whole number below a bound, written without fraction and exponent. -/
def below (bound : Nat) : Reader Nat := do
  match ← peek with
  | none => throw .early
  | some c =>
    if startsNumber c then
      match Number.below? bound (← number true).toList with
      | some n => pure n
      | none => throw .mismatch
    else refuse

def oneOf (words : List (String × α)) (name : String) : Reader α :=
  match words.lookup name with
  | some a => pure a
  | none => throw .mismatch

/- A word of a fixed list, written as a string or as the only key of an object whose value is
null. Anything else in its place counts as malformed. -/
def word (words : List (String × α)) : Reader α := do
  match ← peek with
  | none => throw .early
  | some '"' =>
    eat
    oneOf words (← stringRest true)
  | some '{' =>
    eat
    match ← peek with
    | none => throw .early
    | some '"' => eat
    | some _ => throw .malformed
    let a ← oneOf words (← stringRest true)
    colon
    match ← peek with
    | none => throw .early
    | some 'n' => expectWord "null".toList
    | some _ => refuse
    match ← peek with
    | none => throw .early
    | some '}' =>
      eat
      pure a
    | some _ => throw .malformed
  | some _ => throw .malformed

/-- Reads a whole text, with nothing but blanks after what is read. -/
def run (r : Reader α) (text : String) : Except Fault α :=
  match r (.ofList text.toList) with
  | .error fault => .error fault
  | .ok (a, i) => if i.items.all isSpace then .ok a else .error .malformed

end Reader

def maxDepth : Nat := 127

def parse (text : String) : Except Fault Json := Reader.run (Reader.value maxDepth) text

end BrightScript.Json
