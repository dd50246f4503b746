import BrightScript.Tree

/-! The leaves of a tree in source order: variables, literals and comments. -/
namespace BrightScript

inductive Leaf where
  | var (name : Ident)
  | literal (l : Literal)
  | comment (c : Comment)
  deriving DecidableEq, Repr

namespace Leaf

def text : Leaf → String
  | var name => name.name
  | literal l => l.text
  | comment c => c.text

def range : Leaf → Range
  | var name => name.range
  | literal l => l.range
  | comment c => c.range

end Leaf

mutual
def Expr.leaves : Expr → List Leaf
  | .literal l => [.literal l]
  | .var name => [.var name]
  | .dotted object _ _ => object.leaves
  | .indexed object index _ => object.leaves ++ index.leaves
  | .call callee args _ => callee.leaves ++ exprLeaves args
  | .array elements _ => exprLeaves elements
  | .assoc members _ => memberLeaves members
  | .binary _ left right _ => left.leaves ++ right.leaves
  | .unary _ operand _ => operand.leaves
  | .group inner _ => inner.leaves
  | .function ⟨_, parameters, _, ⟨body, _⟩, _⟩ => parameterLeaves parameters ++ stmtLeaves body
  | .conditional test consequent alternate _ =>
    test.leaves ++ consequent.leaves ++ alternate.leaves

def Stmt.leaves : Stmt → List Leaf
  | .assign _ _ value _ => value.leaves
  | .setDotted object _ _ value _ => object.leaves ++ value.leaves
  | .setIndexed object index _ value _ => object.leaves ++ index.leaves ++ value.leaves
  | .expression e => e.leaves
  | .increment value _ _ => value.leaves
  | .print items _ => itemLeaves items
  | .ifThen condition ⟨body, _⟩ elseIfs elseBody _ _ =>
    condition.leaves ++ stmtLeaves body ++ elseIfLeaves elseIfs ++
      (match elseBody with
      | some ⟨stmts, _⟩ => stmtLeaves stmts
      | none => [])
  | .whileLoop condition ⟨body, _⟩ _ => condition.leaves ++ stmtLeaves body
  | .forLoop _ first last step ⟨body, _⟩ _ =>
    first.leaves ++ last.leaves ++ optionLeaves step ++ stmtLeaves body
  | .forEach _ target ⟨body, _⟩ _ => target.leaves ++ stmtLeaves body
  | .comment c => [.comment c]
  | .declare _ ⟨_, parameters, _, ⟨body, _⟩, _⟩ => parameterLeaves parameters ++ stmtLeaves body
  | .returns value _ => optionLeaves value
  | .goto _ _ | .label _ | .exitFor _ | .exitWhile _ | .endProgram _ | .stop _ => []

def exprLeaves : List Expr → List Leaf
  | [] => []
  | e :: rest => e.leaves ++ exprLeaves rest

def optionLeaves : Option Expr → List Leaf
  | none => []
  | some e => e.leaves

def memberLeaves : List (Member Expr) → List Leaf
  | [] => []
  | .property ⟨_, _, value, _⟩ :: rest => value.leaves ++ memberLeaves rest
  | .comment c :: rest => .comment c :: memberLeaves rest

def parameterLeaves : List (Parameter Expr) → List Leaf
  | [] => []
  | ⟨_, _, fallback, _⟩ :: rest => optionLeaves fallback ++ parameterLeaves rest

def itemLeaves : List (PrintItem Expr) → List Leaf
  | [] => []
  | .expression e :: rest => e.leaves ++ itemLeaves rest
  | .separator _ :: rest => itemLeaves rest

def elseIfLeaves : List (ElseIf Expr Stmt) → List Leaf
  | [] => []
  | ⟨condition, ⟨body, _⟩, _⟩ :: rest =>
    condition.leaves ++ stmtLeaves body ++ elseIfLeaves rest

def stmtLeaves : List Stmt → List Leaf
  | [] => []
  | s :: rest => s.leaves ++ stmtLeaves rest
end

end BrightScript
