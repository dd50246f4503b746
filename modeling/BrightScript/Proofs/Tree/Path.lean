import BrightScript.Tree

/-! Paths through a tree and how deep they lead.
What counts is a node together with its place: a whole expression lies a level deeper than an operand
does, and a statement or a prefix operator is a level of its own. -/
namespace BrightScript

/-- A node in its place. -/
inductive Slot where
  /- A whole expression: an assigned value, a condition, an argument, what stands in parentheses. -/
  | value (e : Expr)
  /- An operand, or what is called, indexed or followed by a point. -/
  | operand (e : Expr)
  | statement (s : Stmt)

def Block.slots (b : Block Stmt) : List Slot := b.statements.map .statement

def optionSlots (value : Option Expr) : List Slot := value.toList.map .value

def Parameter.slots (p : Parameter Expr) : List Slot := optionSlots p.fallback

def Function.slots (f : Function Expr Stmt) : List Slot :=
  f.parameters.flatMap Parameter.slots ++ f.body.slots

def Member.slots : Member Expr → List Slot
  | property p => [.value p.value]
  | comment _ => []

def PrintItem.slots : PrintItem Expr → List Slot
  | expression e => [.value e]
  | separator _ => []

def ElseIf.slots (e : ElseIf Expr Stmt) : List Slot := .value e.condition :: e.body.slots

def Expr.slots : Expr → List Slot
  | literal _ | var _ => []
  | dotted object _ _ => [.operand object]
  | indexed object index _ => [.operand object, .value index]
  | call callee args _ => .operand callee :: args.map .value
  | array elements _ => elements.map .value
  | assoc members _ => members.flatMap Member.slots
  | binary _ left right _ => [.operand left, .operand right]
  | unary _ operand _ => [.operand operand]
  | group inner _ => [.value inner]
  | function f => f.slots
  | conditional test consequent alternate _ =>
    [.operand test, .value consequent, .value alternate]

def Stmt.slots : Stmt → List Slot
  | assign _ _ value _ => [.value value]
  | setDotted object _ _ value _ => [.operand object, .value value]
  | setIndexed object index _ value _ => [.operand object, .value index, .value value]
  | expression e => [.operand e]
  | increment value _ _ => [.operand value]
  | print items _ => items.flatMap PrintItem.slots
  | ifThen condition body elseIfs elseBody _ _ =>
    .value condition :: (body.slots ++ elseIfs.flatMap ElseIf.slots ++
      elseBody.toList.flatMap Block.slots)
  | whileLoop condition body _ => .value condition :: body.slots
  | forLoop _ first last step body _ =>
    .value first :: .value last :: (optionSlots step ++ body.slots)
  | forEach _ target body _ => .value target :: body.slots
  | declare _ f => f.slots
  | returns value _ => optionSlots value
  | comment _ | goto _ _ | label _ | exitFor _ | exitWhile _ | endProgram _ | stop _ => []

/-- A prefix operator is a level. -/
def Expr.levels : Expr → Nat
  | unary _ _ _ => 1
  | _ => 0

/-- Every statement but a comment is a level. -/
def Stmt.levels : Stmt → Nat
  | comment _ => 0
  | _ => 1

theorem Stmt.levels_le (s : Stmt) : s.levels ≤ 1 := by
  cases s <;> simp [levels]

namespace Slot

def slots : Slot → List Slot
  | value e | operand e => e.slots
  | statement s => s.slots

/-- How many levels a node adds in its place. -/
def levels : Slot → Nat
  | value e => e.levels + 1
  | operand e => e.levels
  | statement s => s.levels

/-- `Path p n q` says that there is a way down from `p` to `q` on which the nodes, both ends
included, add up to `n` levels. -/
inductive Path : Slot → Nat → Slot → Prop where
  | here (p : Slot) : Path p p.levels p
  | down {p q r : Slot} {n : Nat} : q ∈ p.slots → Path q n r → Path p (p.levels + n) r

/-- The levels of the deepest way down among those with at most that many steps. -/
def reach : (steps : Nat) → Slot → Nat
  | 0, p => p.levels
  | steps + 1, p => p.levels + (p.slots.map (reach steps)).max?.getD 0

theorem exists_path_reach (steps : Nat) (p : Slot) : ∃ q, Path p (reach steps p) q := by
  induction steps generalizing p with
  | zero => exact ⟨p, .here p⟩
  | succ steps ih =>
    rw [reach]
    cases deepest : (p.slots.map (reach steps)).max? with
    | none => exact ⟨p, .here p⟩
    | some n =>
      obtain ⟨q, part, rfl⟩ := List.mem_map.mp (List.max?_mem deepest)
      obtain ⟨r, path⟩ := ih q
      exact ⟨r, .down part path⟩

/-- No way down is deeper than that many levels. -/
def Within (room : Nat) (p : Slot) : Prop := ∀ n q, Path p n q → n ≤ room

variable {p : Slot} {room : Nat}

theorem within_of_parts (levels : p.levels ≤ 1) (h : ∀ q ∈ p.slots, q.Within room) :
    p.Within (room + 1) := by
  intro n q path
  cases path with
  | here => exact Nat.le_trans levels (Nat.le_add_left 1 room)
  | down part rest =>
    have := h _ part _ _ rest
    omega

theorem within_iff_parts (levels : p.levels = 0) :
    p.Within room ↔ ∀ q ∈ p.slots, q.Within room := by
  constructor
  · intro h q part n r path
    have := h _ _ (.down part path)
    omega
  · intro h n q path
    cases path with
    | here => omega
    | down part rest =>
      have := h _ part _ _ rest
      omega

theorem operand_within {e : Expr} (levels : e.levels = 0) :
    (operand e).Within room ↔ ∀ q ∈ e.slots, q.Within room :=
  within_iff_parts levels

theorem statement_within {s : Stmt} (h : ∀ q ∈ s.slots, q.Within room) :
    (statement s).Within (room + 1) :=
  within_of_parts s.levels_le h

theorem comment_within (c : Comment) : (statement (.comment c)).Within room :=
  (within_iff_parts rfl).mpr fun _ part => by cases part

theorem unary_within {operator : Operator} {e : Expr} {range : Range}
    (h : (operand e).Within room) : (operand (.unary operator e range)).Within (room + 1) := by
  have one : (operand (.unary operator e range)).levels ≤ 1 := Nat.le_refl 1
  apply within_of_parts one
  intro q part
  obtain rfl := List.mem_singleton.mp part
  exact h

theorem value_within {e : Expr} (h : (operand e).Within room) : (value e).Within (room + 1) := by
  intro n q path
  cases path with
  | here =>
    have := h _ _ (.here (operand e))
    simp only [levels] at this ⊢
    omega
  | down part rest =>
    have := h _ _ (.down (p := operand e) part rest)
    simp only [levels] at this ⊢
    omega

end Slot
end BrightScript
