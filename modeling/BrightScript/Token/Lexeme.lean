import BrightScript.Number.Binary
import BrightScript.Token

/-! Lexemes: what the characters at the head of a text are read as.
A lexeme says how many characters it takes after its first one, so every lexeme is a nonempty
slice of the text and the rest is always shorter. -/
namespace BrightScript

inductive Reading where
  | blank
  | token (kind : Kind) (value : Option Value)
  /- A string that the end of its line cuts off. -/
  | openString (value : String)
  | stray
  deriving DecidableEq, Repr

structure Lexeme where
  reading : Reading
  extra : Nat
  deriving DecidableEq, Repr

namespace Lexeme

def mark (kind : Kind) (extra : Nat) : Lexeme := ⟨.token kind none, extra⟩

def literal (kind : Kind) (value : Value) (extra : Nat) : Lexeme :=
  ⟨.token kind (some value), extra⟩

def lineLength (cs : List Char) : Nat :=
  let line := cs.takeWhile (· ≠ '\n')
  if line.getLast? = some '\r' then line.length - 1 else line.length

/- The characters after an opening quote. -/
structure Quoted where
  value : List Char
  length : Nat
  closed : Bool

/-- A doubled quote stands for one quote. A line feed, or a carriage return right before it,
leaves the string open, and so does the end of the text. -/
def quoted : List Char → Quoted
  | [] => ⟨[], 0, false⟩
  | '"' :: '"' :: cs => let q := quoted cs; ⟨'"' :: q.value, q.length + 2, q.closed⟩
  | '"' :: _ => ⟨[], 1, true⟩
  | '\n' :: _ => ⟨[], 0, false⟩
  | ['\r'] => ⟨[], 0, false⟩
  | '\r' :: '\n' :: _ => ⟨[], 0, false⟩
  | c :: cs => let q := quoted cs; ⟨c :: q.value, q.length + 1, q.closed⟩

def string (cs : List Char) : Lexeme :=
  let q := quoted cs
  let value := String.ofList q.value
  if q.closed then literal .stringLiteral (.string value) q.length
  else ⟨.openString value, q.length⟩

def digitCount (cs : List Char) : Nat := (cs.takeWhile Char.isDigit).length

def fractionLength : List Char → Nat
  | '.' :: cs => if digitCount cs = 0 then 0 else digitCount cs + 1
  | _ => 0

/- A sign is enough to make an exponent, even if no digit follows it. -/
def exponentLength : List Char → Nat
  | mark :: c :: cs =>
    if mark = 'e' || mark = 'E' then
      if c = '+' || c = '-' then digitCount cs + 2
      else if c.isDigit then digitCount (c :: cs) + 1
      else 0
    else 0
  | _ => 0

def integerValue (digits : List Char) : Value :=
  .integer ((Number.below? (Nat.pow 2 31) digits).getD 0)

def longValue (digits : List Char) : Value :=
  .longInteger ((Number.below? (Nat.pow 2 63) digits).getD 0)

def floatValue (digits : List Char) : Value :=
  .float (UInt32.ofNat (Number.BinaryFormat.single.ofText digits))

def doubleValue (digits : List Char) : Value :=
  .double (UInt64.ofNat (Number.BinaryFormat.double.ofText digits))

def wholeNumber (digits : List Char) (extra : Nat) : Lexeme :=
  match Number.below? (Nat.pow 2 31) digits, Number.below? (Nat.pow 2 63) digits with
  | some n, _ => literal .integerLiteral (.integer n) extra
  | none, some n => literal .longIntegerLiteral (.longInteger n) extra
  | none, none => literal .doubleLiteral (doubleValue digits) extra

/- The parts of a numeral after its first character `c`, a digit or a point. -/
def fraction (c : Char) (cs : List Char) : Nat :=
  if c = '.' then 0 else fractionLength (cs.drop (digitCount cs))

def exponent (c : Char) (cs : List Char) : Nat :=
  exponentLength (cs.drop (digitCount cs + fraction c cs))

def numeralLength (c : Char) (cs : List Char) : Nat :=
  digitCount cs + fraction c cs + exponent c cs

/-- What a numeral comes to, given the character after it. -/
def typedNumeral (pointed : Bool) (digits : List Char) (length : Nat) : Option Char → Lexeme
  | some '%' => literal .integerLiteral (integerValue digits) (length + 1)
  | some '&' => literal .longIntegerLiteral (longValue digits) (length + 1)
  | some '#' => literal .doubleLiteral (doubleValue digits) (length + 1)
  | some '!' => literal .floatLiteral (floatValue digits) (length + 1)
  | _ =>
    if pointed then literal .floatLiteral (floatValue digits) length
    else wholeNumber digits length

def number (c : Char) (cs : List Char) : Lexeme :=
  typedNumeral (c = '.' || 0 < fraction c cs || 0 < exponent c cs)
    (c :: cs.take (numeralLength c cs)) (numeralLength c cs) (cs.drop (numeralLength c cs)).head?

/- A value past 64 bits reads as zero; one past 32 bits wraps in a literal without the long
suffix. -/
def typedHex (digits : List Char) (next : Option Char) : Lexeme :=
  let n := Number.ofDigits 16 digits
  let value := if n < Nat.pow 2 64 then n else 0
  if next = some '&' then
    literal .longIntegerLiteral (.longInteger (Int.bmod value (Nat.pow 2 64))) (digits.length + 2)
  else literal .integerLiteral (.integer (Int.bmod value (Nat.pow 2 32))) (digits.length + 1)

/- `cs` starts at the `h` of `&h`. -/
def hexNumber (cs : List Char) : Lexeme :=
  let digits := (cs.drop 1).takeWhile Text.isHexDigit
  typedHex digits (cs.drop (digits.length + 1)).head?

def secondWord? (first : Kind) (cs : List Char) : Option (Kind × Nat) :=
  let blanks := (cs.takeWhile Text.isSpace).length
  let rest := cs.drop blanks
  let word := rest.takeWhile Text.isWordPart
  if rest.head?.any Text.isWordStart && !(rest.drop word.length).head?.any Text.isDesignator then
    (Kind.ofKeyword? (String.ofList word).toLower).bind fun second =>
      (Kind.combine? first second).map fun kind => (kind, blanks + word.length)
  else none

def keyword (kind : Kind) (extra : Nat) (rest : List Char) : Lexeme :=
  match kind with
  | .true_ => literal kind (.boolean true) extra
  | .false_ => literal kind (.boolean false) extra
  | .invalid => literal kind .invalid extra
  | .end_ | .exit | .else_ =>
    match secondWord? kind rest with
    | some (both, length) => mark both (extra + length)
    | none => mark kind extra
  | _ => mark kind extra

/- A designator makes a name of any word, so `end$` is no keyword. -/
def word (c : Char) (cs : List Char) : Lexeme :=
  let part := cs.takeWhile Text.isWordPart
  let extra := part.length
  let rest := cs.drop extra
  if rest.head?.any Text.isDesignator then mark .identifier (extra + 1)
  else
    let text := (String.ofList (c :: part)).toLower
    if text = "rem" then mark .comment (extra + lineLength rest)
    else
      match Kind.ofKeyword? text with
      | some kind => keyword kind extra rest
      | none => mark .identifier extra

/-- The operators of two and three characters win over their beginnings. -/
def operator (c : Char) (cs : List Char) : Option Lexeme :=
  match c, cs with
  | '<', '>' :: _ => some (mark .lessGreater 1)
  | '<', '=' :: _ => some (mark .lessEqual 1)
  | '<', '<' :: '=' :: _ => some (mark .leftShiftEqual 2)
  | '<', '<' :: _ => some (mark .leftShift 1)
  | '<', _ => some (mark .less 0)
  | '>', '=' :: _ => some (mark .greaterEqual 1)
  | '>', '>' :: '=' :: _ => some (mark .rightShiftEqual 2)
  | '>', '>' :: _ => some (mark .rightShift 1)
  | '>', _ => some (mark .greater 0)
  | '+', '+' :: _ => some (mark .plusPlus 1)
  | '+', '=' :: _ => some (mark .plusEqual 1)
  | '+', _ => some (mark .plus 0)
  | '-', '-' :: _ => some (mark .minusMinus 1)
  | '-', '=' :: _ => some (mark .minusEqual 1)
  | '-', _ => some (mark .minus 0)
  | '*', '=' :: _ => some (mark .starEqual 1)
  | '*', _ => some (mark .star 0)
  | '/', '=' :: _ => some (mark .slashEqual 1)
  | '/', _ => some (mark .slash 0)
  | '\\', '=' :: _ => some (mark .backslashEqual 1)
  | '\\', _ => some (mark .backslash 0)
  | _, _ => none

def single? : Char → Option Kind
  | '\n' => some .newline
  | '(' => some .leftParen
  | ')' => some .rightParen
  | '[' => some .leftSquare
  | ']' => some .rightSquare
  | '{' => some .leftCurly
  | '}' => some .rightCurly
  | ',' => some .comma
  | ':' => some .colon
  | ';' => some .semicolon
  | '?' => some .questionMark
  | '=' => some .equal
  | '^' => some .caret
  | _ => none

/-- Reads the lexeme that begins with `c`. After an operand a point selects a member, and the
digits that follow it are a numeral of their own. -/
def read (afterOperand : Bool) (c : Char) (cs : List Char) : Lexeme :=
  if Text.isBlank c then ⟨.blank, 0⟩
  else if c = '\'' then mark .comment (lineLength cs)
  else if c = '"' then string cs
  else if c = '.' then
    if cs.head?.any Char.isDigit && !afterOperand then number c cs else mark .dot 0
  else if c = '&' && (cs.head? = some 'h' || cs.head? = some 'H') then hexNumber cs
  else if c.isDigit then number c cs
  else if Text.isWordStart c then word c cs
  else
    match single? c, operator c cs with
    | some kind, _ => mark kind 0
    | none, some lexeme => lexeme
    | none, none => ⟨.stray, 0⟩

end Lexeme
end BrightScript
