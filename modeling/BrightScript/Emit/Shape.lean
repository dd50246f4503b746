import BrightScript.Tree

/-! Which kinds of expression occur in an expression.
The body of an anonymous function is not evaluated with the expression and does not count. -/
namespace BrightScript

structure Shape where
  literal : Bool := false
  identifier : Bool := false
  operator : Bool := false
  collection : Bool := false
  function : Bool := false
  call : Bool := false
  dotted : Bool := false
  indexed : Bool := false
  deriving DecidableEq, Repr

namespace Shape

def union (a b : Shape) : Shape where
  literal := a.literal || b.literal
  identifier := a.identifier || b.identifier
  operator := a.operator || b.operator
  collection := a.collection || b.collection
  function := a.function || b.function
  call := a.call || b.call
  dotted := a.dotted || b.dotted
  indexed := a.indexed || b.indexed

instance : Union Shape := ⟨union⟩

/- A call can do anything, and a member or an index may be answered by a method. -/
def isRisky (s : Shape) : Bool := s.call || s.dotted || s.indexed

def bits (s : Shape) : Nat :=
  [s.indexed, s.dotted, s.call, s.function, s.collection, s.operator, s.identifier, s.literal].foldl
    (fun n b => 2 * n + b.toNat) 0

end Shape

mutual
def Expr.shape : Expr → Shape
  | .literal _ => { literal := true }
  | .var _ => { identifier := true }
  | .dotted object _ _ => { dotted := true } ∪ object.shape
  | .indexed object index _ => { indexed := true } ∪ object.shape ∪ index.shape
  | .call callee args _ => { call := true } ∪ callee.shape ∪ exprsShape args
  | .array elements _ => { collection := true } ∪ exprsShape elements
  | .assoc members _ => { collection := true } ∪ membersShape members
  | .binary _ left right _ => { operator := true } ∪ left.shape ∪ right.shape
  | .unary _ operand _ => { operator := true } ∪ operand.shape
  | .group inner _ => inner.shape
  | .function _ => { function := true }
  | .conditional test consequent alternate _ => test.shape ∪ consequent.shape ∪ alternate.shape

def exprsShape : List Expr → Shape
  | [] => {}
  | e :: rest => e.shape ∪ exprsShape rest

def membersShape : List (Member Expr) → Shape
  | [] => {}
  | .property ⟨_, _, value, _⟩ :: rest => value.shape ∪ membersShape rest
  | .comment _ :: rest => membersShape rest
end

end BrightScript
