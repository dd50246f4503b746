/-! Positions and ranges of a source text.
Lines and columns count from zero. A column counts UTF-16 code units, the unit in which editors
address a document, so a character beyond the basic plane is two columns wide. -/
namespace BrightScript

structure Position where
  line : Nat
  column : Nat
  deriving DecidableEq, Repr

namespace Position

def origin : Position := ⟨0, 0⟩

instance : LT Position :=
  ⟨fun a b => a.line < b.line ∨ (a.line = b.line ∧ a.column < b.column)⟩

instance : LE Position :=
  ⟨fun a b => a.line < b.line ∨ (a.line = b.line ∧ a.column ≤ b.column)⟩

instance (a b : Position) : Decidable (a < b) :=
  inferInstanceAs (Decidable (a.line < b.line ∨ (a.line = b.line ∧ a.column < b.column)))

instance (a b : Position) : Decidable (a ≤ b) :=
  inferInstanceAs (Decidable (a.line < b.line ∨ (a.line = b.line ∧ a.column ≤ b.column)))

def earlier (a b : Position) : Position := if a ≤ b then a else b
def later (a b : Position) : Position := if a ≤ b then b else a

def units (c : Char) : Nat := if c.toNat < 0x10000 then 1 else 2

/- Only a line feed ends a line; a carriage return is a column like any other. -/
def step (p : Position) (c : Char) : Position :=
  if c = '\n' then ⟨p.line + 1, 0⟩ else ⟨p.line, p.column + units c⟩

/-- Where a stretch of text ends that begins at `p`. -/
def after (p : Position) (text : List Char) : Position := text.foldl step p

@[simp] theorem after_nil (p : Position) : p.after [] = p := rfl

@[simp] theorem after_cons (p : Position) (c : Char) (text : List Char) :
    p.after (c :: text) = (p.step c).after text := rfl

theorem after_append (p : Position) (first last : List Char) :
    p.after (first ++ last) = (p.after first).after last := by
  simp [after, List.foldl_append]

end Position

/- The end is exclusive. Nothing forces the start to come first: a range built from an arbitrary
token list is taken as it is. -/
structure Range where
  start : Position
  stop : Position
  deriving DecidableEq, Repr

namespace Range

def empty (p : Position) : Range := ⟨p, p⟩

def isEmpty (r : Range) : Bool := r.start = r.stop

def contains (r : Range) (p : Position) : Bool := r.start ≤ p && p < r.stop

/-- The smallest range over both. -/
def union (a b : Range) : Range := ⟨a.start.earlier b.start, a.stop.later b.stop⟩

def location (r : Range) : String :=
  toString (r.start.line + 1) ++ ":" ++ toString (r.start.column + 1)

def bounds (r : Range) : String :=
  let point (p : Position) := toString p.line ++ ":" ++ toString p.column
  point r.start ++ "-" ++ point r.stop

end Range
end BrightScript
