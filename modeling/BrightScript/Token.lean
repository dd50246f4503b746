import BrightScript.Text.Position
import BrightScript.Token.Kind

/-! Tokens: the words, marks and literals of a text, each with the place where it stands. -/
namespace BrightScript

/- Integers are kept in the range of their width. A float or a double is kept as its bits. -/
inductive Value where
  | string (text : String)
  | integer (n : Int)
  | longInteger (n : Int)
  | float (bits : UInt32)
  | double (bits : UInt64)
  | boolean (b : Bool)
  | invalid
  deriving DecidableEq, Repr

/- `text` is the source as written: a two-word keyword keeps its own blanks and letters. -/
structure Token where
  kind : Kind
  text : String
  range : Range
  value : Option Value := none
  deriving DecidableEq, Repr

def Token.endOfFile (p : Position) : Token := ⟨.endOfFile, "", .empty p, none⟩

end BrightScript
