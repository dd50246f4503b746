import BrightScript.Tree

/-! Trees without a conditional operator, at any depth: in operands, arguments, default values and
the bodies of functions and of every other statement. -/
namespace BrightScript

mutual
def Expr.plain : Expr → Bool
  | .literal _ | .var _ => true
  | .dotted object _ _ => object.plain
  | .indexed object index _ => object.plain && index.plain
  | .call callee args _ => callee.plain && exprsPlain args
  | .array elements _ => exprsPlain elements
  | .assoc members _ => membersPlain members
  | .binary _ left right _ => left.plain && right.plain
  | .unary _ operand _ => operand.plain
  | .group inner _ => inner.plain
  | .function f => functionPlain f
  | .conditional _ _ _ _ => false

def Stmt.plain : Stmt → Bool
  | .assign _ _ value _ => value.plain
  | .setDotted object _ _ value _ => object.plain && value.plain
  | .setIndexed object index _ value _ => object.plain && index.plain && value.plain
  | .expression e => e.plain
  | .increment value _ _ => value.plain
  | .print items _ => itemsPlain items
  | .ifThen condition body elseIfs elseBody _ _ =>
    condition.plain && blockPlain body && elseIfsPlain elseIfs &&
      (match elseBody with
      | some last => blockPlain last
      | none => true)
  | .whileLoop condition body _ => condition.plain && blockPlain body
  | .forLoop _ first last step body _ =>
    first.plain && last.plain && optionPlain step && blockPlain body
  | .forEach _ target body _ => target.plain && blockPlain body
  | .declare _ f => functionPlain f
  | .returns value _ => optionPlain value
  | .comment _ | .goto _ _ | .label _ | .exitFor _ | .exitWhile _ | .endProgram _ | .stop _ => true

def functionPlain : Function Expr Stmt → Bool
  | ⟨_, parameters, _, body, _⟩ => parametersPlain parameters && blockPlain body

def blockPlain : Block Stmt → Bool
  | ⟨stmts, _⟩ => stmtsPlain stmts

def exprsPlain : List Expr → Bool
  | [] => true
  | e :: rest => e.plain && exprsPlain rest

def optionPlain : Option Expr → Bool
  | none => true
  | some e => e.plain

def memberPlain : Member Expr → Bool
  | .property ⟨_, _, value, _⟩ => value.plain
  | .comment _ => true

def membersPlain : List (Member Expr) → Bool
  | [] => true
  | m :: rest => memberPlain m && membersPlain rest

def parameterPlain : Parameter Expr → Bool
  | ⟨_, _, fallback, _⟩ => optionPlain fallback

def parametersPlain : List (Parameter Expr) → Bool
  | [] => true
  | p :: rest => parameterPlain p && parametersPlain rest

def itemPlain : PrintItem Expr → Bool
  | .expression e => e.plain
  | .separator _ => true

def itemsPlain : List (PrintItem Expr) → Bool
  | [] => true
  | i :: rest => itemPlain i && itemsPlain rest

def elseIfPlain : ElseIf Expr Stmt → Bool
  | ⟨condition, body, _⟩ => condition.plain && blockPlain body

def elseIfsPlain : List (ElseIf Expr Stmt) → Bool
  | [] => true
  | e :: rest => elseIfPlain e && elseIfsPlain rest

def stmtsPlain : List Stmt → Bool
  | [] => true
  | s :: rest => s.plain && stmtsPlain rest
end

attribute [grind =] Expr.plain Stmt.plain

/- The list functions above go through their lists as `List.all` does. -/
theorem eq_all_of_cons {α : Type} {all : List α → Bool} {one : α → Bool} (nil : all [] = true)
    (cons : ∀ a rest, all (a :: rest) = (one a && all rest)) (as : List α) :
    all as = as.all one := by
  induction as with
  | nil => exact nil
  | cons a rest ih => rw [cons, ih, List.all_cons]

theorem exprsPlain_eq (es : List Expr) : exprsPlain es = es.all Expr.plain :=
  eq_all_of_cons rfl (fun _ _ => rfl) es

theorem membersPlain_eq (ms : List (Member Expr)) : membersPlain ms = ms.all memberPlain :=
  eq_all_of_cons rfl (fun _ _ => rfl) ms

theorem parametersPlain_eq (ps : List (Parameter Expr)) :
    parametersPlain ps = ps.all parameterPlain := eq_all_of_cons rfl (fun _ _ => rfl) ps

theorem itemsPlain_eq (is : List (PrintItem Expr)) : itemsPlain is = is.all itemPlain :=
  eq_all_of_cons rfl (fun _ _ => rfl) is

theorem elseIfsPlain_eq (es : List (ElseIf Expr Stmt)) : elseIfsPlain es = es.all elseIfPlain :=
  eq_all_of_cons rfl (fun _ _ => rfl) es

theorem stmtsPlain_eq (stmts : List Stmt) : stmtsPlain stmts = stmts.all Stmt.plain :=
  eq_all_of_cons rfl (fun _ _ => rfl) stmts

end BrightScript
