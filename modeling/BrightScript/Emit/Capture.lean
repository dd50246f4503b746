import BrightScript.Tree

/-! The variables that an expression reads, in the order of their first occurrence. -/
namespace BrightScript

/- Each variable under its name with ASCII letters folded; the first spelling and place are kept. -/
abbrev Scope := List (String × Ident)

namespace Scope

def get? (scope : Scope) (name : String) : Option Ident := scope.lookup name.toLower

def contains (scope : Scope) (name : String) : Bool := (scope.get? name).isSome

def insert (scope : Scope) (name : Ident) : Scope :=
  if scope.contains name.name then scope else scope ++ [(name.name.toLower, name)]

/-- The variables in the order of their first occurrence. -/
def idents (scope : Scope) : List Ident := scope.map (·.2)

end Scope

/- Arguments are looked at before what is called and an index before its object. A name that is
called is a function and no variable, and functions are not entered. -/
mutual
def Expr.captures (scope : Scope) : Expr → Scope
  | .literal _ => scope
  | .var name => scope.insert name
  | .dotted object _ _ => object.captures scope
  | .indexed object index _ => object.captures (index.captures scope)
  | .call callee args _ =>
    let scope := exprsCaptures scope args
    match callee with
    | .var _ => scope
    | callee => callee.captures scope
  | .array elements _ => exprsCaptures scope elements
  | .assoc members _ => membersCaptures scope members
  | .binary _ left right _ => right.captures (left.captures scope)
  | .unary _ operand _ => operand.captures scope
  | .group inner _ => inner.captures scope
  | .function _ => scope
  | .conditional test consequent alternate _ =>
    alternate.captures (consequent.captures (test.captures scope))

def exprsCaptures (scope : Scope) : List Expr → Scope
  | [] => scope
  | e :: rest => exprsCaptures (e.captures scope) rest

def membersCaptures (scope : Scope) : List (Member Expr) → Scope
  | [] => scope
  | .property ⟨_, _, value, _⟩ :: rest => membersCaptures (value.captures scope) rest
  | .comment _ :: rest => membersCaptures scope rest
end

def Scope.collect (exprs : List Expr) : Scope := exprsCaptures [] exprs

end BrightScript
