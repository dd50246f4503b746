import BrightScript.Emit.Layout
import BrightScript.Tree

/-! Trees without the places of their nodes.
How comment lines are grouped into statements depends on the lines they stand on, so in a bare
tree every line of a comment is a statement of its own. -/
namespace BrightScript

def Range.nowhere : Range := .empty .origin

def Ident.bare (x : Ident) : Ident := ⟨x.name, .nowhere⟩

def Comment.bare (c : Comment) : Comment := ⟨c.text, .nowhere⟩

def Comment.lines (c : Comment) : List Stmt :=
  (Emit.splitLines c.text.toList).map fun line => .comment ⟨String.ofList line, .nowhere⟩

mutual
def Expr.bare : Expr → Expr
  | .literal ⟨kind, text, _⟩ => .literal ⟨kind, text, .nowhere⟩
  | .var name => .var name.bare
  | .dotted object name _ => .dotted object.bare name.bare .nowhere
  | .indexed object index _ => .indexed object.bare index.bare .nowhere
  | .call callee args _ => .call callee.bare (exprsBare args) .nowhere
  | .array elements _ => .array (exprsBare elements) .nowhere
  | .assoc members _ => .assoc (membersBare members) .nowhere
  | .binary operator left right _ => .binary operator left.bare right.bare .nowhere
  | .unary operator operand _ => .unary operator operand.bare .nowhere
  | .group inner _ => .group inner.bare .nowhere
  | .function f => .function (functionBare f)
  | .conditional test consequent alternate _ =>
    .conditional test.bare consequent.bare alternate.bare .nowhere

def Stmt.bare : Stmt → Stmt
  | .assign name operator value _ => .assign name.bare operator value.bare .nowhere
  | .setDotted object name operator value _ =>
    .setDotted object.bare name.bare operator value.bare .nowhere
  | .setIndexed object index operator value _ =>
    .setIndexed object.bare index.bare operator value.bare .nowhere
  | .expression e => .expression e.bare
  | .increment value operator _ => .increment value.bare operator .nowhere
  | .print items _ => .print (itemsBare items) .nowhere
  | .ifThen condition body elseIfs elseBody inline _ =>
    .ifThen condition.bare (blockBare body) (elseIfsBare elseIfs)
      (match elseBody with
      | some last => some (blockBare last)
      | none => none) inline .nowhere
  | .whileLoop condition body _ => .whileLoop condition.bare (blockBare body) .nowhere
  | .forLoop counter first last step body _ =>
    .forLoop counter.bare first.bare last.bare (optionBare step) (blockBare body) .nowhere
  | .forEach item target body _ => .forEach item.bare target.bare (blockBare body) .nowhere
  | .comment c => .comment c.bare
  | .declare name f => .declare name.bare (functionBare f)
  | .returns value _ => .returns (optionBare value) .nowhere
  | .goto label _ => .goto label.bare .nowhere
  | .label name => .label name.bare
  | .exitFor _ => .exitFor .nowhere
  | .exitWhile _ => .exitWhile .nowhere
  | .endProgram _ => .endProgram .nowhere
  | .stop _ => .stop .nowhere

def functionBare : Function Expr Stmt → Function Expr Stmt
  | ⟨isSub, parameters, returns, body, _⟩ =>
    ⟨isSub, parametersBare parameters, returns, blockBare body, .nowhere⟩

def blockBare : Block Stmt → Block Stmt
  | ⟨stmts, _⟩ => ⟨stmtsBare stmts, .nowhere⟩

def exprsBare : List Expr → List Expr
  | [] => []
  | e :: rest => e.bare :: exprsBare rest

def optionBare : Option Expr → Option Expr
  | none => none
  | some e => some e.bare

def membersBare : List (Member Expr) → List (Member Expr)
  | [] => []
  | .property ⟨key, quoted, value, _⟩ :: rest =>
    .property ⟨key, quoted, value.bare, .nowhere⟩ :: membersBare rest
  | .comment c :: rest => .comment c.bare :: membersBare rest

def parametersBare : List (Parameter Expr) → List (Parameter Expr)
  | [] => []
  | ⟨name, type, fallback, _⟩ :: rest =>
    ⟨name.bare, type, optionBare fallback, .nowhere⟩ :: parametersBare rest

def itemsBare : List (PrintItem Expr) → List (PrintItem Expr)
  | [] => []
  | .expression e :: rest => .expression e.bare :: itemsBare rest
  | .separator kind :: rest => .separator kind :: itemsBare rest

def elseIfsBare : List (ElseIf Expr Stmt) → List (ElseIf Expr Stmt)
  | [] => []
  | ⟨condition, body, _⟩ :: rest => ⟨condition.bare, blockBare body, .nowhere⟩ :: elseIfsBare rest

def stmtsBare : List Stmt → List Stmt
  | [] => []
  | .comment c :: rest => c.lines ++ stmtsBare rest
  | s :: rest => s.bare :: stmtsBare rest
end

attribute [grind =] Expr.bare Stmt.bare

namespace Emit

theorem splitLines_line {line : List Char} (h : '\n' ∉ line) : splitLines line = [line] := by
  induction line with
  | nil => rfl
  | cons c cs ih =>
    have first : c ≠ '\n' := fun same => h (same ▸ List.mem_cons_self)
    rw [splitLines, if_neg first, ih fun mem => h (List.mem_cons_of_mem _ mem)]

theorem splitLines_ne_nil (text : List Char) : splitLines text ≠ [] := by
  cases text with
  | nil => simp [splitLines]
  | cons c cs =>
    rw [splitLines]
    split
    · simp
    · split <;> simp

theorem splitLines_append_line (text : List Char) {line : List Char} (h : '\n' ∉ line) :
    splitLines (text ++ '\n' :: line) = splitLines text ++ [line] := by
  induction text with
  | nil => simp [splitLines, splitLines_line h]
  | cons c cs ih =>
    rw [List.cons_append, splitLines, splitLines, ih]
    by_cases feed : c = '\n'
    · simp [feed]
    · simp only [feed, if_false]
      obtain ⟨first, rest, lines⟩ := List.exists_cons_of_ne_nil (splitLines_ne_nil cs)
      rw [lines]
      rfl

end Emit

end BrightScript
