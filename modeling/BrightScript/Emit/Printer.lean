import BrightScript.Emit.Capture
import BrightScript.Emit.Layout
import BrightScript.Emit.Shape

/-! Statements and expressions as BrightScript text.
BrightScript has no conditional operator, so a conditional becomes a call. When no operand can
have an effect the three operands are simply passed:

    bslib_simpleTernary(test, consequent, alternate)

Otherwise each branch becomes a function, and only the chosen one runs. The variables that the
operands read are passed in an object and bound again inside the branch that reads them:

    bslib_scopeSafeTernary(test, {
        "name": name
    }, function(scope)
        name = scope.name
        return consequent
    end function, function(scope)
        return alternate
    end function)

The test is evaluated once either way. -/
namespace BrightScript

/-- How a conditional with a risky operand is written. -/
inductive Protection where
  /- Only the chosen branch runs. -/
  | safe
  /- Always the plain call, which evaluates both branches. -/
  | none
  deriving DecidableEq, Repr

namespace Protection

def ofName? (name : String) : Option Protection :=
  [("safe", safe), ("none", none)].lookup name.toLower

def unknownMessage (name : String) : String :=
  "unknown scope protection '" ++ name ++ "', expected 'safe' or 'none'"

end Protection

namespace Emit

structure Options where
  protection : Protection := .safe
  /- How the names of the two helper functions begin. -/
  stem : String := "bslib_"
  layout : Layout := {}

/-- A type as it is written after `as`. -/
def typeName : Ty → String
  | .function _ => "function"
  | type => type.display

def asPieces (implied type : Ty) : List Piece :=
  if type.same implied then [] else [.text " as ", .text (typeName type)]

def operatorPieces (operator : Kind) : List Piece := [.text " ", .text operator.label, .text " "]

/- A comment that shares a line with the code before it stays there. -/
def lead (level line : Nat) : Stmt → List Piece
  | .comment c => if c.range.start.line = line then [.text " "] else [.line level]
  | _ => [.line level]

def startsWithSign : Expr → Bool
  | .unary operator _ _ => operator.kind = .minus || operator.kind = .plus
  | _ => false

def scopePieces (level : Nat) (scope : Scope) : List Piece :=
  if scope.isEmpty then [.text "\x7b", .text "\x7d"]
  else
    [.text "\x7b"] ++
      (scope.idents.flatMap fun x =>
        [.line (level + 1), .text (quote x.name), .text ": ", .text x.name]) ++
      [.line level, .text "\x7d"]

def rebindPieces (level : Nat) (scope : Scope) (branch : Expr) : List Piece :=
  let read := Scope.collect [branch]
  (scope.idents.filter fun x => read.contains x.name).flatMap fun x =>
    [.line level, .text x.name, .text " = scope.", .text x.name]

def branchPieces (level : Nat) (rebind value : List Piece) : List Piece :=
  [.text "function(scope)"] ++ rebind ++ [.line (level + 1), .text "return "] ++ value ++
    [.line level, .text "end function"]

def isPlain (o : Options) (test consequent alternate : Expr) : Bool :=
  o.protection = .none || !(test.shape ∪ consequent.shape ∪ alternate.shape).isRisky

mutual
def exprPieces (o : Options) (level : Nat) : Expr → List Piece
  | .literal l => [.text l.text]
  | .var name => [.text name.name]
  | .dotted object name _ => exprPieces o level object ++ [.text ".", .text name.name]
  | .indexed object index _ =>
    exprPieces o level object ++ [.text "["] ++ exprPieces o level index ++ [.text "]"]
  | .call callee args _ =>
    exprPieces o level callee ++ [.text "("] ++ exprsPieces o level args ++ [.text ")"]
  | .array elements _ => [.text "["] ++ exprsPieces o level elements ++ [.text "]"]
  | .assoc [] _ => [.text "\x7b\x7d"]
  | .assoc members _ =>
    [.text "\x7b"] ++ membersPieces o (level + 1) members ++ [.line level, .text "\x7d"]
  | .binary operator left right _ =>
    exprPieces o level left ++ [.text " ", .text operator.text, .text " "] ++
      exprPieces o level right
  | .unary operator operand _ =>
    -- two signs in a row are kept apart
    [.text operator.text] ++
      (if operator.kind = .not_ || startsWithSign operand then [.text " "] else []) ++
      exprPieces o level operand
  | .group inner _ => [.text "("] ++ exprPieces o level inner ++ [.text ")"]
  | .function f => functionPieces o level none f
  | .conditional test consequent alternate _ =>
    if isPlain o test consequent alternate then
      [.text o.stem, .text "simpleTernary("] ++ exprPieces o level test ++ [.text ", "] ++
        exprPieces o level consequent ++ [.text ", "] ++ exprPieces o level alternate ++
        [.text ")"]
    else
      let scope := Scope.collect [test, consequent, alternate]
      [.text o.stem, .text "scopeSafeTernary("] ++ exprPieces o level test ++ [.text ", "] ++
        scopePieces level scope ++ [.text ", "] ++
        branchPieces level (rebindPieces (level + 1) scope consequent)
          (exprPieces o (level + 1) consequent) ++ [.text ", "] ++
        branchPieces level (rebindPieces (level + 1) scope alternate)
          (exprPieces o (level + 1) alternate) ++ [.text ")"]

def exprsPieces (o : Options) (level : Nat) : List Expr → List Piece
  | [] => []
  | [e] => exprPieces o level e
  | e :: rest => exprPieces o level e ++ [.text ", "] ++ exprsPieces o level rest

/- A member to a line: line breaks stand in for commas. -/
def membersPieces (o : Options) (level : Nat) : List (Member Expr) → List Piece
  | [] => []
  | .property ⟨key, quoted, value, _⟩ :: rest =>
    [.line level, .text (if quoted then quote key else key), .text ": "] ++
      exprPieces o level value ++ membersPieces o level rest
  | .comment c :: rest => [.line level] ++ commentPieces level c ++ membersPieces o level rest

def functionPieces (o : Options) (level : Nat) (name : Option String) :
    Function Expr Stmt → List Piece
  | ⟨isSub, parameters, returns, ⟨stmts, range⟩, _⟩ =>
    [.text (if isSub then "sub" else "function")] ++
      (match name with
      | some name => [.text " ", .text name]
      | none => []) ++
      [.text "("] ++ parametersPieces o level parameters ++ [.text ")"] ++
      asPieces (if isSub then .void else .dynamic) returns ++
      bodyPieces o (level + 1) range.start.line stmts ++
      [.line level, .text (if isSub then "end sub" else "end function")]

def parametersPieces (o : Options) (level : Nat) : List (Parameter Expr) → List Piece
  | [] => []
  | [p] => parameterPieces o level p
  | p :: rest => parameterPieces o level p ++ [.text ", "] ++ parametersPieces o level rest

def parameterPieces (o : Options) (level : Nat) : Parameter Expr → List Piece
  | ⟨name, type, fallback, _⟩ =>
    [.text name.name] ++
      (match fallback with
      | some e => [.text " = "] ++ exprPieces o level e
      | none => []) ++
      asPieces .dynamic type

def stmtPieces (o : Options) (level : Nat) : Stmt → List Piece
  | .assign name operator value _ =>
    [.text name.name] ++ operatorPieces operator ++ exprPieces o level value
  | .setDotted object name operator value _ =>
    exprPieces o level object ++ [.text ".", .text name.name] ++ operatorPieces operator ++
      exprPieces o level value
  | .setIndexed object index operator value _ =>
    exprPieces o level object ++ [.text "["] ++ exprPieces o level index ++ [.text "]"] ++
      operatorPieces operator ++ exprPieces o level value
  | .expression e => exprPieces o level e
  | .increment value operator _ => exprPieces o level value ++ [.text operator.label]
  | .print items _ => [.text "print"] ++ itemsPieces o level items
  | .ifThen condition ⟨stmts, range⟩ elseIfs elseBody inline _ =>
    if inline then
      [.text "if "] ++ exprPieces o level condition ++ [.text " then "] ++
        inlinePieces o level stmts ++ inlineElseIfsPieces o level elseIfs ++
        (match elseBody with
        | some ⟨stmts, _⟩ => [.text " else "] ++ inlinePieces o level stmts
        | none => [])
    else
      [.text "if "] ++ exprPieces o level condition ++ [.text " then"] ++
        bodyPieces o (level + 1) range.start.line stmts ++ elseIfsPieces o level elseIfs ++
        (match elseBody with
        | some ⟨stmts, range⟩ =>
          [.line level, .text "else"] ++ bodyPieces o (level + 1) range.start.line stmts
        | none => []) ++
        [.line level, .text "end if"]
  | .whileLoop condition ⟨stmts, range⟩ _ =>
    [.text "while "] ++ exprPieces o level condition ++
      bodyPieces o (level + 1) range.start.line stmts ++ [.line level, .text "end while"]
  | .forLoop counter first last step ⟨stmts, range⟩ _ =>
    [.text "for ", .text counter.name, .text " = "] ++ exprPieces o level first ++
      [.text " to "] ++ exprPieces o level last ++
      (match step with
      | some e => [.text " step "] ++ exprPieces o level e
      | none => []) ++
      bodyPieces o (level + 1) range.start.line stmts ++ [.line level, .text "end for"]
  | .forEach item target ⟨stmts, range⟩ _ =>
    [.text "for each ", .text item.name, .text " in "] ++ exprPieces o level target ++
      bodyPieces o (level + 1) range.start.line stmts ++ [.line level, .text "end for"]
  | .comment c => commentPieces level c
  | .declare name f => functionPieces o level (some name.name) f
  | .returns value _ =>
    [.text "return"] ++
      (match value with
      | some e => [.text " "] ++ exprPieces o level e
      | none => [])
  | .goto label _ => [.text "goto ", .text label.name]
  | .label name => [.text name.name, .text ":"]
  | .exitFor _ => [.text "exit for"]
  | .exitWhile _ => [.text "exit while"]
  | .endProgram _ => [.text "end"]
  | .stop _ => [.text "stop"]

def itemsPieces (o : Options) (level : Nat) : List (PrintItem Expr) → List Piece
  | [] => []
  | .expression e :: rest => [.text " "] ++ exprPieces o level e ++ itemsPieces o level rest
  | .separator kind :: rest => [.text kind.label] ++ itemsPieces o level rest

def inlineElseIfsPieces (o : Options) (level : Nat) : List (ElseIf Expr Stmt) → List Piece
  | [] => []
  | ⟨condition, ⟨stmts, _⟩, _⟩ :: rest =>
    [.text " else if "] ++ exprPieces o level condition ++ [.text " then "] ++
      inlinePieces o level stmts ++ inlineElseIfsPieces o level rest

def elseIfsPieces (o : Options) (level : Nat) : List (ElseIf Expr Stmt) → List Piece
  | [] => []
  | ⟨condition, ⟨stmts, range⟩, _⟩ :: rest =>
    [.line level, .text "else if "] ++ exprPieces o level condition ++ [.text " then"] ++
      bodyPieces o (level + 1) range.start.line stmts ++ elseIfsPieces o level rest

def inlinePieces (o : Options) (level : Nat) : List Stmt → List Piece
  | [] => []
  | [s] => stmtPieces o level s
  | s :: rest => stmtPieces o level s ++ [.text " : "] ++ inlinePieces o level rest

/- `line` is the source line on which the code before this statement ends. -/
def bodyPieces (o : Options) (level line : Nat) : List Stmt → List Piece
  | [] => []
  | s :: rest =>
    lead level line s ++ stmtPieces o level s ++ bodyPieces o level s.range.stop.line rest
end

theorem parameterPieces_none (o : Options) (level : Nat) (name : Ident) (type : Ty)
    (range : Range) :
    parameterPieces o level ⟨name, type, none, range⟩ =
      .text name.name :: asPieces .dynamic type := rfl

theorem parameterPieces_some (o : Options) (level : Nat) (name : Ident) (type : Ty) (e : Expr)
    (range : Range) :
    parameterPieces o level ⟨name, type, some e, range⟩ =
      .text name.name :: .text " = " :: (exprPieces o level e ++ asPieces .dynamic type) := rfl

/-- A program: its statements on lines of their own, from the left margin. -/
def programPieces (o : Options) : List Stmt → List Piece
  | [] => []
  | s :: rest => stmtPieces o 0 s ++ bodyPieces o 0 s.range.stop.line rest

end Emit

/-- The BrightScript text of a program. -/
def emit (o : Emit.Options) (stmts : List Stmt) : String :=
  let text := Emit.render o.layout (Emit.programPieces o stmts)
  if o.layout.trailingNewline && !text.isEmpty then text ++ o.layout.newline else text

def emitExpr (o : Emit.Options) (e : Expr) : String :=
  Emit.render o.layout (Emit.exprPieces o 0 e)

end BrightScript
