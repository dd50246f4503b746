import BrightScript.Emit.Printer
import BrightScript.Proofs.Emit.Capture

/-! What a conditional needs to become a call.
The call nests its operands further than the conditional does, and a branch that becomes a
function assigns to the variables it reads. So a tree fits if the text that is written for it is
not nested too deeply, no such branch reads a variable with a reserved name, and in a print
statement no point follows the closing parenthesis of a call that was a conditional. -/
namespace BrightScript

open Emit (Options isPlain)

attribute [grind =] Emit.exprPieces Emit.stmtPieces

/-- One level further in. -/
def deeper (fits : Nat → Bool) : Nat → Bool
  | 0 => false
  | room + 1 => fits room

@[simp] theorem deeper_succ (fits : Nat → Bool) (room : Nat) :
    deeper fits (room + 1) = fits room := rfl

theorem deeper_eq_true {fits : Nat → Bool} {room : Nat} :
    deeper fits room = true ↔ ∃ less, room = less + 1 ∧ fits less = true := by
  cases room <;> simp [deeper]

namespace Expr

def isConditional : Expr → Bool
  | conditional _ _ _ _ => true
  | _ => false

/-- Whether the first word is a numeral that begins with a point. -/
def startsWithPoint : Expr → Bool
  | literal l => l.text.toList.head? = some '.'
  | dotted object _ _ | indexed object _ _ => object.startsWithPoint
  | call callee _ _ => callee.startsWithPoint
  | binary _ left _ _ => left.startsWithPoint
  | _ => false

def rebindable (e : Expr) : Bool := e.occurrences.all fun x => !isReserved x.name

end Expr

def pointFollows : List (PrintItem Expr) → Bool
  | .expression e :: _ => e.startsWithPoint
  | _ => false

mutual
/- The number is how many levels of nesting are left inside the expression. -/
def Expr.fits (o : Options) : Expr → Nat → Bool
  | .literal _, _ | .var _, _ => true
  | .dotted object _ _, room => object.fits o room
  | .indexed object index _, room => object.fits o room && deeper (index.fits o) room
  | .call callee args _, room => callee.fits o room && exprsFit o args room
  | .array elements _, room => exprsFit o elements room
  | .assoc members _, room => membersFit o members room
  | .binary _ left right _, room => left.fits o room && right.fits o room
  | .unary _ operand _, room => deeper (operand.fits o) room
  | .group inner _, room => deeper (inner.fits o) room
  | .function f, room => functionFits o f room
  | .conditional test consequent alternate _, room =>
    if isPlain o test consequent alternate then
      deeper (test.fits o) room && deeper (consequent.fits o) room &&
        deeper (alternate.fits o) room
    else
      -- a branch stands in a return statement of a function that is an argument
      deeper (test.fits o) room && deeper (deeper (deeper (consequent.fits o))) room &&
        deeper (deeper (deeper (alternate.fits o))) room &&
        consequent.rebindable && alternate.rebindable

def Stmt.fits (o : Options) : Stmt → Nat → Bool
  | .assign _ _ value _, room => deeper (value.fits o) room
  | .setDotted object _ _ value _, room => object.fits o room && deeper (value.fits o) room
  | .setIndexed object index _ value _, room =>
    object.fits o room && deeper (index.fits o) room && deeper (value.fits o) room
  | .expression e, room => e.fits o room
  | .increment value _ _, room => value.fits o room
  | .print items _, room => itemsFit o items room
  | .ifThen condition body elseIfs elseBody _ _, room =>
    deeper (condition.fits o) room && blockFits o body room && elseIfsFit o elseIfs room &&
      (match elseBody with
      | some last => blockFits o last room
      | none => true)
  | .whileLoop condition body _, room => deeper (condition.fits o) room && blockFits o body room
  | .forLoop _ first last step body _, room =>
    deeper (first.fits o) room && deeper (last.fits o) room && optionFits o step room &&
      blockFits o body room
  | .forEach _ target body _, room => deeper (target.fits o) room && blockFits o body room
  | .declare _ f, room => functionFits o f room
  | .returns value _, room => optionFits o value room
  | .comment _, _ | .goto _ _, _ | .label _, _ | .exitFor _, _ | .exitWhile _, _
  | .endProgram _, _ | .stop _, _ => true

def functionFits (o : Options) : Function Expr Stmt → Nat → Bool
  | ⟨_, parameters, _, body, _⟩, room => parametersFit o parameters room && blockFits o body room

def blockFits (o : Options) : Block Stmt → Nat → Bool
  | ⟨stmts, _⟩, room => stmtsFit o stmts room

def exprsFit (o : Options) : List Expr → Nat → Bool
  | [], _ => true
  | e :: rest, room => deeper (e.fits o) room && exprsFit o rest room

def optionFits (o : Options) : Option Expr → Nat → Bool
  | none, _ => true
  | some e, room => deeper (e.fits o) room

def membersFit (o : Options) : List (Member Expr) → Nat → Bool
  | [], _ => true
  | .property ⟨_, _, value, _⟩ :: rest, room =>
    deeper (value.fits o) room && membersFit o rest room
  | .comment _ :: rest, room => membersFit o rest room

def parametersFit (o : Options) : List (Parameter Expr) → Nat → Bool
  | [], _ => true
  | ⟨_, _, fallback, _⟩ :: rest, room => optionFits o fallback room && parametersFit o rest room

def itemsFit (o : Options) : List (PrintItem Expr) → Nat → Bool
  | [], _ => true
  | .expression e :: rest, room =>
    deeper (e.fits o) room && !(e.isConditional && pointFollows rest) && itemsFit o rest room
  | .separator _ :: rest, room => itemsFit o rest room

def elseIfsFit (o : Options) : List (ElseIf Expr Stmt) → Nat → Bool
  | [], _ => true
  | ⟨condition, body, _⟩ :: rest, room =>
    deeper (condition.fits o) room && blockFits o body room && elseIfsFit o rest room

def stmtsFit (o : Options) : List Stmt → Nat → Bool
  | [], _ => true
  | .comment _ :: rest, room => stmtsFit o rest room
  | s :: rest, room => deeper (s.fits o) room && stmtsFit o rest room
end

attribute [grind =] Expr.fits Stmt.fits

end BrightScript
