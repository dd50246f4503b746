import BrightScript.Text.IdentifierTable

/-! Which characters make up words. -/
namespace BrightScript.Text

/- Whether the code point that is `n` further on is in a table. Its lengths count by turns what is
in it and what is not. -/
def inTable (present : Bool) : List Nat → Nat → Bool
  | [], _ => false
  | length :: rest, n => if n < length then present else inTable (!present) rest (n - length)

/- ASCII letters and the underscore are spelled out, so the tables start above 127. -/
def isWordStart (c : Char) : Bool :=
  c = '_' || c.isAlpha || (127 < c.toNat && inTable false starters c.toNat)

def isWordPart (c : Char) : Bool :=
  isWordStart c || c.isDigit || (127 < c.toNat && inTable false continuers c.toNat)

/-- A last character that declares a variable's type, as in `name$` or `count%`. -/
def isDesignator (c : Char) : Bool :=
  c = '$' || c = '%' || c = '!' || c = '#' || c = '&'

/- The byte order mark and the no-break space separate words as a blank does. -/
def isBlank (c : Char) : Bool :=
  c = ' ' || c = '\t' || c = '\r' || c = '\ufeff' || c = '\u00a0'

/-- The blanks that may stand between the two words of a keyword. -/
def isSpace (c : Char) : Bool := c = ' ' || c = '\t'

def isHexDigit (c : Char) : Bool :=
  c.isDigit || ('a' ≤ c && c ≤ 'f') || ('A' ≤ c && c ≤ 'F')

theorem isWordPart_of_isWordStart {c : Char} (h : isWordStart c = true) : isWordPart c = true := by
  simp [isWordPart, h]

/-- Words are compared with ASCII letters folded and every other character as it stands. -/
def sameWord (a b : String) : Bool := a.toLower == b.toLower

end BrightScript.Text
