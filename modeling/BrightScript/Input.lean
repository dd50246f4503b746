/-! What is left to read. -/
namespace BrightScript

/- The length is kept beside the items, so that a loop can tell at once whether a round has
consumed anything. -/
structure Input (α : Type) where
  items : List α
  size : Nat
  size_eq : size = items.length

namespace Input

variable {α : Type}

def ofList (items : List α) : Input α := ⟨items, items.length, rfl⟩

def head? (i : Input α) : Option α := i.items.head?

def drop (n : Nat) (i : Input α) : Input α :=
  ⟨i.items.drop n, i.size - n, by simp [i.size_eq]⟩

def skipWhile (p : α → Bool) (i : Input α) : Input α := i.drop (i.items.takeWhile p).length

theorem eq_of_items {i j : Input α} (h : i.items = j.items) : i = j := by
  cases i
  cases j
  simp_all

@[simp] theorem items_ofList (items : List α) : (ofList items).items = items := rfl

@[simp] theorem items_drop (n : Nat) (i : Input α) : (i.drop n).items = i.items.drop n := rfl

@[simp] theorem items_skipWhile (p : α → Bool) (i : Input α) :
    (i.skipWhile p).items = i.items.dropWhile p := by
  simp only [skipWhile, items_drop]
  generalize i.items = items
  induction items with
  | nil => rfl
  | cons a rest ih => cases h : p a <;> simp [h, ih]

end Input
end BrightScript
