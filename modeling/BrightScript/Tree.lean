import BrightScript.Text.Position
import BrightScript.Token.Kind
import BrightScript.Ty

/-! The syntax tree. Every node keeps the range of text that it was read from.
The parts that expressions and statements share are written over the two types, so that the
recursion runs through lists and options of the parts. -/
namespace BrightScript

structure Ident where
  name : String
  range : Range
  deriving DecidableEq, Repr

/- A literal keeps its spelling, quotes and type suffix included. -/
structure Literal where
  kind : Kind
  text : String
  range : Range
  deriving DecidableEq, Repr

/- One comment, or comments on consecutive lines of their own with line feeds between them. -/
structure Comment where
  text : String
  range : Range
  deriving DecidableEq, Repr

structure Operator where
  kind : Kind
  text : String
  deriving DecidableEq, Repr

structure Block (σ : Type) where
  statements : List σ
  range : Range

structure Parameter (ε : Type) where
  name : Ident
  type : Ty
  fallback : Option ε
  range : Range

/- An anonymous function, and also the value of every declaration. -/
structure Function (ε σ : Type) where
  isSub : Bool
  parameters : List (Parameter ε)
  returns : Ty
  body : Block σ
  range : Range

structure Property (ε : Type) where
  key : String
  quoted : Bool
  value : ε
  range : Range

inductive Member (ε : Type) where
  | property (p : Property ε)
  | comment (c : Comment)

inductive PrintItem (ε : Type) where
  | expression (e : ε)
  | separator (kind : Kind)

structure ElseIf (ε σ : Type) where
  condition : ε
  body : Block σ
  range : Range

mutual
inductive Expr where
  | literal (l : Literal)
  | var (name : Ident)
  | dotted (object : Expr) (name : Ident) (range : Range)
  | indexed (object index : Expr) (range : Range)
  | call (callee : Expr) (args : List Expr) (range : Range)
  | array (elements : List Expr) (range : Range)
  | assoc (members : List (Member Expr)) (range : Range)
  | binary (operator : Operator) (left right : Expr) (range : Range)
  | unary (operator : Operator) (operand : Expr) (range : Range)
  | group (inner : Expr) (range : Range)
  | function (f : Function Expr Stmt)
  | conditional (test consequent alternate : Expr) (range : Range)

inductive Stmt where
  | assign (name : Ident) (operator : Kind) (value : Expr) (range : Range)
  | setDotted (object : Expr) (name : Ident) (operator : Kind) (value : Expr) (range : Range)
  | setIndexed (object index : Expr) (operator : Kind) (value : Expr) (range : Range)
  | expression (e : Expr)
  | increment (value : Expr) (operator : Kind) (range : Range)
  | print (items : List (PrintItem Expr)) (range : Range)
  | ifThen (condition : Expr) (body : Block Stmt) (elseIfs : List (ElseIf Expr Stmt))
      (elseBody : Option (Block Stmt)) (inline : Bool) (range : Range)
  | whileLoop (condition : Expr) (body : Block Stmt) (range : Range)
  | forLoop (counter : Ident) (first last : Expr) (step : Option Expr) (body : Block Stmt)
      (range : Range)
  | forEach (item : Ident) (target : Expr) (body : Block Stmt) (range : Range)
  | comment (c : Comment)
  | declare (name : Ident) (f : Function Expr Stmt)
  | returns (value : Option Expr) (range : Range)
  | goto (label : Ident) (range : Range)
  | label (name : Ident)
  | exitFor (range : Range)
  | exitWhile (range : Range)
  | endProgram (range : Range)
  | stop (range : Range)
end

namespace Literal

def type (l : Literal) : Ty :=
  match l.kind with
  | .stringLiteral => .string
  | .integerLiteral => .integer
  | .longIntegerLiteral => .longInteger
  | .floatLiteral => .float
  | .doubleLiteral => .double
  | .true_ | .false_ => .boolean
  | .invalid => .invalid
  | _ => .dynamic

end Literal

namespace Parameter

def isRequired {ε : Type} (p : Parameter ε) : Bool := p.fallback.isNone

end Parameter

namespace Function

def signature {ε σ : Type} (f : Function ε σ) (name : Option String) : FunctionType :=
  { returns := f.returns, name, isSub := f.isSub,
    params := f.parameters.map fun p => ⟨p.name.name, p.type, p.isRequired⟩ }

end Function

namespace Expr

def range : Expr → Range
  | literal l => l.range
  | var name => name.range
  | dotted _ _ r | indexed _ _ r | call _ _ r | array _ r | assoc _ r | binary _ _ _ r
  | unary _ _ r | group _ r | conditional _ _ _ r => r
  | function f => f.range

def isCall : Expr → Bool
  | call _ _ _ => true
  | _ => false

end Expr

namespace Stmt

def range : Stmt → Range
  | assign _ _ _ r | setDotted _ _ _ _ r | setIndexed _ _ _ _ r
  | increment _ _ r | print _ r | ifThen _ _ _ _ _ r | whileLoop _ _ r | forLoop _ _ _ _ _ r
  | forEach _ _ _ r | returns _ r | goto _ r | exitFor r | exitWhile r | endProgram r
  | stop r => r
  | expression e => e.range
  | comment c => c.range
  | declare _ f => f.range
  | label name => name.range

def isInlineIf : Stmt → Bool
  | ifThen _ _ _ _ inline _ => inline
  | _ => false

end Stmt
end BrightScript
