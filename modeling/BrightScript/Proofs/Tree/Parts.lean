import BrightScript.Tree.Leaves

/-! The nodes of a tree, of whatever sort.
Besides expressions and statements these are blocks, parameters, `else if` clauses and the members
of an associative array. A node knows its parts, so that what holds of a tree can be said of its
nodes one by one. -/
namespace BrightScript

inductive Node where
  | expr (e : Expr)
  | stmt (st : Stmt)
  | block (b : Block Stmt)
  | parameter (p : Parameter Expr)
  | elseIf (clause : ElseIf Expr Stmt)
  | property (p : Property Expr)

namespace Node

def range : Node → Range
  | expr e => e.range
  | stmt st => st.range
  | block b => b.range
  | parameter p => p.range
  | elseIf clause => clause.range
  | property p => p.range

/-- A block without statements, which takes up no text. -/
def isHollow : Node → Bool
  | block b => b.statements.isEmpty
  | _ => false

def ofMember : Member Expr → Node
  | .property p => property p
  | .comment c => stmt (.comment c)

def ofItem? : PrintItem Expr → Option Node
  | .expression e => some (expr e)
  | .separator _ => none

/-- What a node is directly made of, in the order of the text. -/
def parts : Node → List Node
  | expr (.literal _) | expr (.var _) => []
  | expr (.dotted object _ _) => [expr object]
  | expr (.indexed object index _) => [expr object, expr index]
  | expr (.call callee args _) => expr callee :: args.map expr
  | expr (.array elements _) => elements.map expr
  | expr (.assoc members _) => members.map ofMember
  | expr (.binary _ left right _) => [expr left, expr right]
  | expr (.unary _ operand _) => [expr operand]
  | expr (.group inner _) => [expr inner]
  | expr (.function f) => f.parameters.map parameter ++ [block f.body]
  | expr (.conditional test consequent alternate _) => [expr test, expr consequent, expr alternate]
  | stmt (.assign _ _ value _) => [expr value]
  | stmt (.setDotted object _ _ value _) => [expr object, expr value]
  | stmt (.setIndexed object index _ value _) => [expr object, expr index, expr value]
  | stmt (.expression e) => [expr e]
  | stmt (.increment value _ _) => [expr value]
  | stmt (.print items _) => items.filterMap ofItem?
  | stmt (.ifThen condition body elseIfs elseBody _ _) =>
    expr condition :: block body :: (elseIfs.map elseIf ++ elseBody.toList.map block)
  | stmt (.whileLoop condition body _) => [expr condition, block body]
  | stmt (.forLoop _ first last step body _) =>
    expr first :: expr last :: (step.toList.map expr ++ [block body])
  | stmt (.forEach _ target body _) => [expr target, block body]
  | stmt (.declare _ f) => [expr (.function f)]
  | stmt (.returns value _) => value.toList.map expr
  | stmt (.comment _) | stmt (.goto _ _) | stmt (.label _) | stmt (.exitFor _)
  | stmt (.exitWhile _) | stmt (.endProgram _) | stmt (.stop _) => []
  | block b => b.statements.map stmt
  | parameter p => p.fallback.toList.map expr
  | elseIf clause => [expr clause.condition, block clause.body]
  | property p => [expr p.value]

def binds? : Node → Option Ident
  | stmt (.assign x _ _ _) | stmt (.forLoop x _ _ _ _ _) | stmt (.forEach x _ _ _)
  | stmt (.declare x _) | stmt (.goto x _) => some x
  | parameter p => some p.name
  | _ => none

def leaf? : Node → Option Leaf
  | expr (.var x) => some (.var x)
  | expr (.literal l) => some (.literal l)
  | stmt (.comment c) => some (.comment c)
  | _ => none

/-- The nodes at any depth below a list of statements. -/
inductive Occurs (stmts : List Stmt) : Node → Prop where
  | top {st : Stmt} : st ∈ stmts → Occurs stmts (stmt st)
  | part {n m : Node} : Occurs stmts n → m ∈ n.parts → Occurs stmts m

/-- The nodes of a forest, each before its parts and as often as it stands there. -/
inductive Listing : List Node → List Node → Prop where
  | nil : Listing [] []
  | cons {n : Node} {rest below after : List Node} : Listing n.parts below → Listing rest after →
      Listing (n :: rest) (n :: (below ++ after))

/-- A property of a node and of everything below it. -/
inductive Throughout (P : Node → Prop) : Node → Prop where
  | node {n : Node} : P n → (∀ m ∈ n.parts, Throughout P m) → Throughout P n

namespace Throughout

variable {P Q : Node → Prop} {n : Node}

theorem here (h : Throughout P n) : P n := by
  cases h with
  | node here _ => exact here

theorem parts (h : Throughout P n) : ∀ m ∈ n.parts, Throughout P m := by
  cases h with
  | node _ parts => exact parts

theorem mono (h : Throughout P n) (le : ∀ n, P n → Q n) : Throughout Q n := by
  induction h with
  | node here _ ih => exact .node (le _ here) ih

theorem occurs {stmts : List Stmt} (h : ∀ st ∈ stmts, Throughout P (stmt st)) {n : Node}
    (occurs : Occurs stmts n) : Throughout P n := by
  induction occurs with
  | top mem => exact h _ mem
  | part _ mem ih => exact ih.parts _ mem

end Throughout
end Node
end BrightScript
