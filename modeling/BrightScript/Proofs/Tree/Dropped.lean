import BrightScript.Parser.Block
import BrightScript.Tree

/-! Which statements a conditional operator takes with it.
A conditional marks the statement whose own expressions it stands in: the bodies of functions and
of other statements are lists, and what stands in a list is read for itself. Only the branches of
a single-line `if` are no lists: a statement that falls out of one takes the `if` with it. -/
namespace BrightScript

mutual
def Expr.uses : Expr → Bool
  | .literal _ | .var _ => false
  | .dotted object _ _ => object.uses
  | .indexed object index _ => object.uses || index.uses
  | .call callee args _ => callee.uses || exprsUse args
  | .array elements _ => exprsUse elements
  | .assoc members _ => membersUse members
  | .binary _ left right _ => left.uses || right.uses
  | .unary _ operand _ => operand.uses
  | .group inner _ => inner.uses
  | .function ⟨_, parameters, _, _, _⟩ => parametersUse parameters
  | .conditional _ _ _ _ => true

def exprsUse : List Expr → Bool
  | [] => false
  | e :: rest => e.uses || exprsUse rest

def optionUses : Option Expr → Bool
  | none => false
  | some e => e.uses

def membersUse : List (Member Expr) → Bool
  | [] => false
  | .property ⟨_, _, value, _⟩ :: rest => value.uses || membersUse rest
  | .comment _ :: rest => membersUse rest

def parametersUse : List (Parameter Expr) → Bool
  | [] => false
  | ⟨_, _, fallback, _⟩ :: rest => optionUses fallback || parametersUse rest
end

def itemsUse : List (PrintItem Expr) → Bool
  | [] => false
  | .expression e :: rest => e.uses || itemsUse rest
  | .separator _ :: rest => itemsUse rest

def elseIfsUse : List (ElseIf Expr Stmt) → Bool
  | [] => false
  | e :: rest => e.condition.uses || elseIfsUse rest

def Stmt.uses : Stmt → Bool
  | .assign _ _ value _ => value.uses
  | .setDotted object _ _ value _ => object.uses || value.uses
  | .setIndexed object index _ value _ => object.uses || index.uses || value.uses
  | .expression e => e.uses
  | .increment value _ _ => value.uses
  | .print items _ => itemsUse items
  | .ifThen condition _ elseIfs _ _ _ => condition.uses || elseIfsUse elseIfs
  | .whileLoop condition _ _ => condition.uses
  | .forLoop _ first last step _ _ => first.uses || last.uses || optionUses step
  | .forEach _ target _ _ => target.uses
  | .declare _ f => parametersUse f.parameters
  | .returns value _ => optionUses value
  | .comment _ | .goto _ _ | .label _ | .exitFor _ | .exitWhile _ | .endProgram _ | .stop _ =>
    false

mutual
/-- Where a single-line `if` is given up: after the first statement that falls out of a branch. -/
def Stmt.cutAt : Stmt → Option Position
  | .ifThen _ ⟨body, _⟩ elseIfs elseBody true _ =>
    (stmtsCutAt body).or ((elseIfsCutAt elseIfs).or
      (match elseBody with
      | some ⟨stmts, _⟩ => stmtsCutAt stmts
      | none => none))
  | _ => none

def stmtsCutAt : List Stmt → Option Position
  | [] => none
  | s :: rest => (s.cutAt.or (bif s.uses then some s.range.stop else none)).or (stmtsCutAt rest)

def elseIfsCutAt : List (ElseIf Expr Stmt) → Option Position
  | [] => none
  | ⟨_, ⟨body, _⟩, _⟩ :: rest => (stmtsCutAt body).or (elseIfsCutAt rest)
end

/-- Where a statement is given up, if it is not kept: it uses a conditional, or is cut. -/
def Stmt.lostAt (s : Stmt) : Option Position :=
  s.cutAt.or (bif s.uses then some s.range.stop else none)

mutual
def Expr.listed : Expr → List Stmt
  | .literal _ | .var _ => []
  | .dotted object _ _ => object.listed
  | .indexed object index _ => object.listed ++ index.listed
  | .call callee args _ => callee.listed ++ exprsListed args
  | .array elements _ => exprsListed elements
  | .assoc members _ => membersListed members
  | .binary _ left right _ => left.listed ++ right.listed
  | .unary _ operand _ => operand.listed
  | .group inner _ => inner.listed
  | .function f => functionListed f
  | .conditional test consequent alternate _ =>
    test.listed ++ consequent.listed ++ alternate.listed

/-- The statements inside one that stand in lists: not in the branches of a single-line `if`. -/
def Stmt.listed : Stmt → List Stmt
  | .assign _ _ value _ => value.listed
  | .setDotted object _ _ value _ => object.listed ++ value.listed
  | .setIndexed object index _ value _ => object.listed ++ index.listed ++ value.listed
  | .expression e => e.listed
  | .increment value _ _ => value.listed
  | .print items _ => itemsListed items
  | .ifThen condition ⟨body, _⟩ elseIfs elseBody inline _ =>
    condition.listed ++ stmtsListed inline body ++ elseIfsListed inline elseIfs ++
      (match elseBody with
      | some ⟨stmts, _⟩ => stmtsListed inline stmts
      | none => [])
  | .whileLoop condition ⟨body, _⟩ _ => condition.listed ++ stmtsListed false body
  | .forLoop _ first last step ⟨body, _⟩ _ =>
    first.listed ++ last.listed ++ optionListed step ++ stmtsListed false body
  | .forEach _ target ⟨body, _⟩ _ => target.listed ++ stmtsListed false body
  | .declare _ f => functionListed f
  | .returns value _ => optionListed value
  | .comment _ | .goto _ _ | .label _ | .exitFor _ | .exitWhile _ | .endProgram _ | .stop _ => []

def functionListed : Function Expr Stmt → List Stmt
  | ⟨_, parameters, _, ⟨body, _⟩, _⟩ => parametersListed parameters ++ stmtsListed false body

def exprsListed : List Expr → List Stmt
  | [] => []
  | e :: rest => e.listed ++ exprsListed rest

def optionListed : Option Expr → List Stmt
  | none => []
  | some e => e.listed

def membersListed : List (Member Expr) → List Stmt
  | [] => []
  | .property ⟨_, _, value, _⟩ :: rest => value.listed ++ membersListed rest
  | .comment _ :: rest => membersListed rest

def parametersListed : List (Parameter Expr) → List Stmt
  | [] => []
  | ⟨_, _, fallback, _⟩ :: rest => optionListed fallback ++ parametersListed rest

def itemsListed : List (PrintItem Expr) → List Stmt
  | [] => []
  | .expression e :: rest => e.listed ++ itemsListed rest
  | .separator _ :: rest => itemsListed rest

def elseIfsListed (inline : Bool) : List (ElseIf Expr Stmt) → List Stmt
  | [] => []
  | ⟨condition, ⟨body, _⟩, _⟩ :: rest =>
    condition.listed ++ stmtsListed inline body ++ elseIfsListed inline rest

def stmtsListed (inline : Bool) : List Stmt → List Stmt
  | [] => []
  | s :: rest => (bif inline then [] else [s]) ++ s.listed ++ stmtsListed inline rest
end

theorem stmtsListed_append (inline : Bool) (first last : List Stmt) :
    stmtsListed inline (first ++ last) = stmtsListed inline first ++ stmtsListed inline last := by
  induction first with
  | nil => rfl
  | cons s rest ih => simp only [List.cons_append, stmtsListed, ih, List.append_assoc]

theorem functionListed_eq (f : Function Expr Stmt) :
    functionListed f = parametersListed f.parameters ++ stmtsListed false f.body.statements := by
  rcases f with ⟨_, _, _, ⟨_, _⟩, _⟩
  rfl

/-- From where a single-line `if` is given up, recovery passes over the rest of it, since no line
break, comment or block end stands there, and stops at its end, since no `else` follows. -/
def Stmt.flat (tokens : List Token) (s : Stmt) : Bool :=
  match s.cutAt with
  | some p =>
    tokens.all (fun t => !(p ≤ t.range.start && t.range.stop ≤ s.range.stop) ||
        Parser.skipsInlineIf t.kind) &&
      (tokens.zip tokens.tail).all fun (t, next) =>
        t.range.stop ≠ s.range.stop || !(next.kind = .else_ || next.kind = .elseIf)
  | none => true

/-- All statements of the list are flat. -/
def Flat (tokens : List Token) (stmts : List Stmt) : Prop := ∀ st ∈ stmts, st.flat tokens = true

theorem flat_append {tokens : List Token} {first last : List Stmt} :
    Flat tokens (first ++ last) ↔ Flat tokens first ∧ Flat tokens last :=
  List.forall_mem_append

end BrightScript
