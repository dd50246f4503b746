import BrightScript.Tree

/-! What emitted text is made of: pieces of code, and line breaks that know how far the next line
is indented. -/
namespace BrightScript.Emit

structure Layout where
  indent : String := "    "
  newline : String := "\n"
  trailingNewline : Bool := true

inductive Piece where
  | text (s : String)
  | line (level : Nat)
  deriving DecidableEq, Repr

def indentation (o : Layout) : Nat → String
  | 0 => ""
  | level + 1 => o.indent ++ indentation o level

def Piece.render (o : Layout) : Piece → String
  | text s => s
  | line level => o.newline ++ indentation o level

def renderFrom (o : Layout) (done : String) : List Piece → String
  | [] => done
  | p :: rest => renderFrom o (done ++ p.render o) rest

def render (o : Layout) (pieces : List Piece) : String := renderFrom o "" pieces

theorem renderFrom_eq (o : Layout) (done : String) (pieces : List Piece) :
    renderFrom o done pieces = done ++ render o pieces := by
  induction pieces generalizing done with
  | nil => simp [render, renderFrom]
  | cons p rest ih => rw [render, renderFrom, renderFrom, ih, ih ("" ++ _)]; simp [String.append_assoc]

@[simp] theorem render_nil (o : Layout) : render o [] = "" := rfl

@[simp] theorem render_cons (o : Layout) (p : Piece) (rest : List Piece) :
    render o (p :: rest) = p.render o ++ render o rest := by
  rw [render, renderFrom, renderFrom_eq]
  simp

@[simp] theorem render_append (o : Layout) (first last : List Piece) :
    render o (first ++ last) = render o first ++ render o last := by
  induction first with
  | nil => simp
  | cons p rest ih => simp [ih, String.append_assoc]

def doubleQuotes : List Char → List Char
  | [] => []
  | c :: cs => if c = '"' then '"' :: '"' :: doubleQuotes cs else c :: doubleQuotes cs

/-- A string literal with this value. -/
def quote (value : String) : String :=
  String.ofList ('"' :: doubleQuotes value.toList ++ ['"'])

/-- Lines of a text that line feeds divide; one more than there are line feeds. -/
def splitLines (text : List Char) : List (List Char) :=
  match text with
  | [] => [[]]
  | c :: cs =>
    if c = '\n' then [] :: splitLines cs
    else
      match splitLines cs with
      | [] => [[c]]
      | line :: rest => (c :: line) :: rest

/- Each line of a comment starts at the indentation of the first. -/
def commentPieces (level : Nat) (c : Comment) : List Piece :=
  let lines := (splitLines c.text.toList).map String.ofList
  (lines.take 1).map .text ++ (lines.drop 1).flatMap fun l => [.line level, .text l]

end BrightScript.Emit
