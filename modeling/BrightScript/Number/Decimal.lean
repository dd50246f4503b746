/-! Reading numerals: digit strings in base ten and sixteen, and decimals with a fraction and an
exponent as exact values. -/
namespace BrightScript.Number

def digitValue (c : Char) : Nat :=
  if c.isDigit then c.toNat - '0'.toNat
  else if 'a' ≤ c && c ≤ 'f' then c.toNat - 'a'.toNat + 10
  else if 'A' ≤ c && c ≤ 'F' then c.toNat - 'A'.toNat + 10
  else 0

def ofDigits (base : Nat) (digits : List Char) : Nat :=
  digits.foldl (fun n c => base * n + digitValue c) 0

/-- A whole number written in decimal digits and nothing else. -/
def natural? (text : List Char) : Option Nat :=
  if text.isEmpty || !text.all Char.isDigit then none else some (ofDigits 10 text)

def below? (bound : Nat) (text : List Char) : Option Nat :=
  (natural? text).filter (· < bound)

/- The value is `coefficient * 10 ^ scale`. -/
structure Decimal where
  coefficient : Nat
  scale : Int
  deriving DecidableEq, Repr

namespace Decimal

def exponent? : List Char → Option Int
  | [] => some 0
  | mark :: rest =>
    if mark = 'e' || mark = 'E' then
      match rest with
      | '-' :: digits => (natural? digits).map fun n => -(n : Int)
      | '+' :: digits => (natural? digits).map fun n => (n : Int)
      | digits => (natural? digits).map fun n => (n : Int)
    else none

def ofText? (text : List Char) : Option Decimal :=
  let whole := text.takeWhile Char.isDigit
  let tail := text.dropWhile Char.isDigit
  let (fraction, power) := match tail with
    | '.' :: more => (more.takeWhile Char.isDigit, more.dropWhile Char.isDigit)
    | _ => ([], tail)
  let digits := whole ++ fraction
  if digits.isEmpty then none
  else (exponent? power).map fun e => ⟨ofDigits 10 digits, e - fraction.length⟩

/-- Appends digits to a number as long as it stays below the bound, and tells which are left. -/
def absorb (bound n : Nat) : List Char → Nat × List Char
  | [] => (n, [])
  | c :: rest =>
    let m := 10 * n + digitValue c
    if m < bound then absorb bound m rest else (n, c :: rest)

/- A whole digit that is left counts in the scale; a digit of the fraction that is left does not
count at all. -/
def leading (bound : Nat) (whole fraction : List Char) (exponent : Int) : Decimal :=
  let (n, left) := absorb bound 0 whole
  let (m, unread) := absorb bound n fraction
  ⟨m, exponent + left.length - fraction.length + unread.length⟩

end Decimal
end BrightScript.Number
