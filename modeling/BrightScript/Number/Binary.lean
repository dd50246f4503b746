import BrightScript.Number.Decimal

/-! Binary interchange formats: the bit pattern nearest to an exact decimal, ties to even. -/
namespace BrightScript.Number

structure BinaryFormat where
  /- Bits of the significand, the hidden one included. -/
  precision : Nat
  exponentBits : Nat

namespace BinaryFormat

def single : BinaryFormat := ⟨24, 8⟩
def double : BinaryFormat := ⟨53, 11⟩

def leastPower (f : BinaryFormat) : Int :=
  3 - (Nat.pow 2 (f.exponentBits - 1) : Nat) - f.precision

def infinity (f : BinaryFormat) : Nat := (Nat.pow 2 f.exponentBits - 1) * Nat.pow 2 (f.precision - 1)

def nearest (num den : Nat) : Nat :=
  let q := num / den
  let r := num % den
  if den < 2 * r || (2 * r = den && q % 2 = 1) then q + 1 else q

def scaled (num den : Nat) (power : Int) : Nat × Nat :=
  if 0 ≤ power then (num, den * Nat.pow 2 power.toNat) else (num * Nat.pow 2 (-power).toNat, den)

/- The two logarithms leave the power of the last bit open by one. Adding the significand to the
shifted exponent writes subnormals without a case of their own, and a significand that rounds up
to the next power of two carries into the exponent as it should. -/
def ofRatio (f : BinaryFormat) (num den : Nat) : Nat :=
  let guess : Int := (num.log2 : Int) - den.log2 - f.precision + 1
  let short := let (n, d) := scaled num den guess; n < d * Nat.pow 2 (f.precision - 1)
  let power := max (if short then guess - 1 else guess) f.leastPower
  let (n, d) := scaled num den power
  min (nearest n d + (power - f.leastPower).toNat * Nat.pow 2 (f.precision - 1)) f.infinity

/- Beyond `reach` decimal places either way every format here is at infinity or at zero, so
exponents of any length are read without raising ten to them. -/
def reach : Int := 400

def ofDecimal (f : BinaryFormat) (d : Decimal) : Nat :=
  let size := ((toString d.coefficient).length : Int) + d.scale
  if d.coefficient = 0 || size < -reach then 0
  else if reach < size then f.infinity
  else if 0 ≤ d.scale then f.ofRatio (d.coefficient * Nat.pow 10 d.scale.toNat) 1
  else f.ofRatio d.coefficient (Nat.pow 10 (-d.scale).toNat)

def ofText (f : BinaryFormat) (text : List Char) : Nat :=
  match Decimal.ofText? text with
  | some d => f.ofDecimal d
  | none => 0

/-- The nearest number with no more bits than a significand has. -/
def round (f : BinaryFormat) (n : Nat) : Nat :=
  let unit := Nat.pow 2 (n.log2 + 1 - f.precision)
  nearest n unit * unit

def limit (f : BinaryFormat) : Nat :=
  (Nat.pow 2 (f.precision + 1) - 1) * Nat.pow 2 (Nat.pow 2 (f.exponentBits - 1) - (f.precision + 1))

/-- Whether a decimal stays finite when it is worked out as a product: the coefficient and the
power of ten are rounded first, and then their product. -/
def holds (f : BinaryFormat) (d : Decimal) : Bool :=
  d.coefficient = 0 || d.scale < 0 ||
    (d.scale ≤ reach && f.round d.coefficient * f.round (Nat.pow 10 d.scale.toNat) < f.limit)

end BinaryFormat
end BrightScript.Number
