import BrightScript.Diagnostic
import BrightScript.Token.Lexeme

/-! Scanning: a text as a list of tokens that ends with exactly one end-of-file token. -/
namespace BrightScript

structure Scan where
  tokens : List Token
  diagnostics : List Diagnostic

namespace Scan

/-- Whether a point right after a token of this kind selects a member. -/
def endsOperand : Option Kind → Bool
  | some .identifier | some .rightParen | some .rightSquare => true
  | _ => false

/- What one lexeme adds to the scan. -/
def tokensOf (reading : Reading) (text : String) (range : Range) : List Token :=
  match reading with
  | .token kind value => [⟨kind, text, range, value⟩]
  | .openString value => [⟨.stringLiteral, text, range, some (.string value)⟩]
  | .blank | .stray => []

def problemsOf (reading : Reading) (c : Char) (range : Range) : List Diagnostic :=
  match reading with
  | .openString _ => [.of .unterminatedString range]
  | .stray => [.of (.unexpectedCharacter c) range]
  | .token _ _ | .blank => []

/-- Scans from a position, given the kind of the last token before it. -/
def run (last : Option Kind) (start : Position) (text : List Char) : Scan :=
  match text with
  | [] => ⟨[.endOfFile start], []⟩
  | c :: cs =>
    let lexeme := Lexeme.read (endsOperand last) c cs
    let taken := c :: cs.take lexeme.extra
    let stop := start.after taken
    let here := tokensOf lexeme.reading (String.ofList taken) ⟨start, stop⟩
    let rest := run ((here.getLast?.map (·.kind)).or last) stop (cs.drop lexeme.extra)
    ⟨here ++ rest.tokens, problemsOf lexeme.reading c ⟨start, stop⟩ ++ rest.diagnostics⟩
termination_by text.length
decreasing_by simp only [List.length_drop, List.length_cons]; omega

end Scan

def scan (source : String) : Scan := Scan.run none .origin source.toList

end BrightScript
