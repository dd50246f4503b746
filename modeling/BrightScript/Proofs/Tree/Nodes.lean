import BrightScript.Proofs.Tree.Induction
import BrightScript.Proofs.Tree.Rewrite

/-! The expressions in a tree.
All of them, at any depth, or only those that are evaluated together with an expression: the inside
of a function is not, and of a conditional all operands count. -/
namespace BrightScript

mutual
def Expr.evaluated : Expr → List Expr
  | .literal l => [.literal l]
  | .var x => [.var x]
  | .dotted object x r => .dotted object x r :: object.evaluated
  | .indexed object index r => .indexed object index r :: (object.evaluated ++ index.evaluated)
  | .call callee args r => .call callee args r :: (callee.evaluated ++ exprsEvaluated args)
  | .array elements r => .array elements r :: exprsEvaluated elements
  | .assoc members r => .assoc members r :: membersEvaluated members
  | .binary operator left right r =>
    .binary operator left right r :: (left.evaluated ++ right.evaluated)
  | .unary operator operand r => .unary operator operand r :: operand.evaluated
  | .group inner r => .group inner r :: inner.evaluated
  | .function f => [.function f]
  | .conditional test consequent alternate r =>
    .conditional test consequent alternate r ::
      (test.evaluated ++ consequent.evaluated ++ alternate.evaluated)

def exprsEvaluated : List Expr → List Expr
  | [] => []
  | e :: rest => e.evaluated ++ exprsEvaluated rest

def membersEvaluated : List (Member Expr) → List Expr
  | [] => []
  | .property ⟨_, _, value, _⟩ :: rest => value.evaluated ++ membersEvaluated rest
  | .comment _ :: rest => membersEvaluated rest
end

mutual
def Expr.nodes : Expr → List Expr
  | .literal l => [.literal l]
  | .var x => [.var x]
  | .dotted object x r => .dotted object x r :: object.nodes
  | .indexed object index r => .indexed object index r :: (object.nodes ++ index.nodes)
  | .call callee args r => .call callee args r :: (callee.nodes ++ exprsNodes args)
  | .array elements r => .array elements r :: exprsNodes elements
  | .assoc members r => .assoc members r :: membersNodes members
  | .binary operator left right r => .binary operator left right r :: (left.nodes ++ right.nodes)
  | .unary operator operand r => .unary operator operand r :: operand.nodes
  | .group inner r => .group inner r :: inner.nodes
  | .function f => .function f :: functionNodes f
  | .conditional test consequent alternate r =>
    .conditional test consequent alternate r :: (test.nodes ++ consequent.nodes ++ alternate.nodes)

def Stmt.nodes : Stmt → List Expr
  | .assign _ _ value _ => value.nodes
  | .setDotted object _ _ value _ => object.nodes ++ value.nodes
  | .setIndexed object index _ value _ => object.nodes ++ index.nodes ++ value.nodes
  | .expression e => e.nodes
  | .increment value _ _ => value.nodes
  | .print items _ => itemsNodes items
  | .ifThen condition body elseIfs elseBody _ _ =>
    condition.nodes ++ blockNodes body ++ elseIfsNodes elseIfs ++
      (match elseBody with
      | some last => blockNodes last
      | none => [])
  | .whileLoop condition body _ => condition.nodes ++ blockNodes body
  | .forLoop _ first last step body _ =>
    first.nodes ++ last.nodes ++ optionNodes step ++ blockNodes body
  | .forEach _ target body _ => target.nodes ++ blockNodes body
  | .declare _ f => functionNodes f
  | .returns value _ => optionNodes value
  | .comment _ | .goto _ _ | .label _ | .exitFor _ | .exitWhile _ | .endProgram _ | .stop _ => []

def functionNodes : Function Expr Stmt → List Expr
  | ⟨_, parameters, _, body, _⟩ => parametersNodes parameters ++ blockNodes body

def blockNodes : Block Stmt → List Expr
  | ⟨stmts, _⟩ => stmtsNodes stmts

def exprsNodes : List Expr → List Expr
  | [] => []
  | e :: rest => e.nodes ++ exprsNodes rest

def optionNodes : Option Expr → List Expr
  | none => []
  | some e => e.nodes

def membersNodes : List (Member Expr) → List Expr
  | [] => []
  | .property ⟨_, _, value, _⟩ :: rest => value.nodes ++ membersNodes rest
  | .comment _ :: rest => membersNodes rest

def parametersNodes : List (Parameter Expr) → List Expr
  | [] => []
  | ⟨_, _, fallback, _⟩ :: rest => optionNodes fallback ++ parametersNodes rest

def itemsNodes : List (PrintItem Expr) → List Expr
  | [] => []
  | .expression e :: rest => e.nodes ++ itemsNodes rest
  | .separator _ :: rest => itemsNodes rest

def elseIfsNodes : List (ElseIf Expr Stmt) → List Expr
  | [] => []
  | ⟨condition, body, _⟩ :: rest => condition.nodes ++ blockNodes body ++ elseIfsNodes rest

def stmtsNodes : List Stmt → List Expr
  | [] => []
  | s :: rest => s.nodes ++ stmtsNodes rest
end

attribute [grind =] Expr.nodes Stmt.nodes

/- Each expression is found rewritten, and what else is found is of the kind that the rewriting of a
conditional may bring in. -/
structure Carried (w : Rewriting) (new : Expr → Prop) (before after : List Expr) : Prop where
  forth : ∀ e ∈ before, e.rewrite w ∈ after
  back : ∀ x ∈ after, (∃ e ∈ before, x = e.rewrite w) ∨ new x

namespace Carried

variable {w : Rewriting} {new : Expr → Prop}

theorem nil : Carried w new [] [] := by constructor <;> simp

theorem append {a b a' b' : List Expr} (first : Carried w new a b) (last : Carried w new a' b') :
    Carried w new (a ++ a') (b ++ b') := by
  constructor
  · exact List.forall_mem_append.mpr ⟨fun e mem => List.mem_append_left _ (first.forth e mem),
      fun e mem => List.mem_append_right _ (last.forth e mem)⟩
  · intro x mem
    rcases List.mem_append.mp mem with mem | mem
    · rcases first.back x mem with ⟨e, found, same⟩ | found
      · exact .inl ⟨e, List.mem_append_left _ found, same⟩
      · exact .inr found
    · rcases last.back x mem with ⟨e, found, same⟩ | found
      · exact .inl ⟨e, List.mem_append_right _ found, same⟩
      · exact .inr found

theorem cons {a b : List Expr} {e x : Expr} (same : x = e.rewrite w) (h : Carried w new a b) :
    Carried w new (e :: a) (x :: b) := by
  constructor
  · intro e' mem
    rcases List.mem_cons.mp mem with rfl | mem
    · exact same ▸ List.mem_cons_self
    · exact List.mem_cons_of_mem _ (h.forth e' mem)
  · intro y mem
    rcases List.mem_cons.mp mem with rfl | mem
    · exact .inl ⟨e, List.mem_cons_self, same⟩
    · rcases h.back y mem with ⟨e', found, same⟩ | found
      · exact .inl ⟨e', List.mem_cons_of_mem _ found, same⟩
      · exact .inr found

theorem behind {a b c : List Expr} (found : ∀ x ∈ c, new x) (h : Carried w new a b) :
    Carried w new a (c ++ b) := by
  constructor
  · exact fun e mem => List.mem_append_right _ (h.forth e mem)
  · exact List.forall_mem_append.mpr ⟨fun x mem => .inr (found x mem), h.back⟩

end Carried

section Carried

variable {w : Rewriting} {new : Expr → Prop}

def ExprCarried (w : Rewriting) (new : Expr → Prop) (e : Expr) : Prop :=
  Carried w new e.nodes (e.rewrite w).nodes

def StmtCarried (w : Rewriting) (new : Expr → Prop) (s : Stmt) : Prop :=
  Carried w new s.nodes (s.rewrite w).nodes

theorem carried_exprs {es : List Expr} (inner : ∀ e ∈ es, ExprCarried w new e) :
    Carried w new (exprsNodes es) (exprsNodes (exprsRewrite w es)) := by
  induction es with
  | nil => exact .nil
  | cons e rest ih =>
    obtain ⟨first, later⟩ := List.forall_mem_cons.mp inner
    exact first.append (ih later)

theorem carried_option {value : Option Expr} (inner : ∀ e ∈ value, ExprCarried w new e) :
    Carried w new (optionNodes value) (optionNodes (optionRewrite w value)) := by
  cases value with
  | none => exact .nil
  | some e => exact inner e rfl

theorem carried_members {ms : List (Member Expr)}
    (inner : ∀ p, Member.property p ∈ ms → ExprCarried w new p.value) :
    Carried w new (membersNodes ms) (membersNodes (membersRewrite w ms)) := by
  induction ms with
  | nil => exact .nil
  | cons m rest ih =>
    have later := ih fun p mem => inner p (List.mem_cons_of_mem _ mem)
    cases m with
    | property p => exact (inner p List.mem_cons_self).append later
    | comment c => exact later

theorem carried_parameters {ps : List (Parameter Expr)}
    (inner : ∀ p ∈ ps, ∀ e ∈ p.fallback, ExprCarried w new e) :
    Carried w new (parametersNodes ps) (parametersNodes (parametersRewrite w ps)) := by
  induction ps with
  | nil => exact .nil
  | cons p rest ih =>
    obtain ⟨first, later⟩ := List.forall_mem_cons.mp inner
    cases p
    exact (carried_option first).append (ih later)

theorem carried_items {is : List (PrintItem Expr)}
    (inner : ∀ e, PrintItem.expression e ∈ is → ExprCarried w new e) :
    Carried w new (itemsNodes is) (itemsNodes (itemsRewrite w is)) := by
  induction is with
  | nil => exact .nil
  | cons i rest ih =>
    have later := ih fun p mem => inner p (List.mem_cons_of_mem _ mem)
    cases i with
    | expression e => exact (inner e List.mem_cons_self).append later
    | separator kind => exact later

theorem carried_stmts {ss : List Stmt} (inner : ∀ s ∈ ss, StmtCarried w new s) :
    Carried w new (stmtsNodes ss) (stmtsNodes (stmtsRewrite w ss)) := by
  induction ss with
  | nil => exact .nil
  | cons s rest ih =>
    obtain ⟨first, later⟩ := List.forall_mem_cons.mp inner
    exact first.append (ih later)

theorem carried_block {b : Block Stmt} (inner : b.All (StmtCarried w new)) :
    Carried w new (blockNodes b) (blockNodes (blockRewrite w b)) := by
  cases b
  exact carried_stmts inner

theorem carried_elseIfs {es : List (ElseIf Expr Stmt)}
    (inner : ∀ e ∈ es, ExprCarried w new e.condition ∧ e.body.All (StmtCarried w new)) :
    Carried w new (elseIfsNodes es) (elseIfsNodes (elseIfsRewrite w es)) := by
  induction es with
  | nil => exact .nil
  | cons e rest ih =>
    obtain ⟨⟨test, stmts⟩, later⟩ := List.forall_mem_cons.mp inner
    cases e
    exact (test.append (carried_block stmts)).append (ih later)

theorem carried_function {f : Function Expr Stmt}
    (inner : f.All (ExprCarried w new) (StmtCarried w new)) :
    Carried w new (functionNodes f) (functionNodes (functionRewrite w f)) := by
  cases f
  exact (carried_parameters inner.1).append (carried_block inner.2)

theorem hereditary_carried
    (conditional : ∀ test consequent alternate r, ExprCarried w new test →
      ExprCarried w new consequent → ExprCarried w new alternate →
        ExprCarried w new (.conditional test consequent alternate r)) :
    Hereditary (ExprCarried w new) (StmtCarried w new) where
  literal _ := Carried.nil.cons rfl
  var _ := Carried.nil.cons rfl
  dotted _ _ _ ih := ih.cons rfl
  indexed _ _ _ ih ih' := (ih.append ih').cons rfl
  call _ _ _ ih inner := (ih.append (carried_exprs inner)).cons rfl
  array _ _ inner := (carried_exprs inner).cons rfl
  assoc _ _ inner := (carried_members inner).cons rfl
  binary _ _ _ _ ih ih' := (ih.append ih').cons rfl
  unary _ _ _ ih := ih.cons rfl
  group _ _ ih := ih.cons rfl
  function _ inner := (carried_function inner).cons rfl
  conditional := conditional
  assign _ _ _ _ ih := ih
  setDotted _ _ _ _ _ ih ih' := ih.append ih'
  setIndexed _ _ _ _ _ ih ih' ih'' := (ih.append ih').append ih''
  expression _ ih := ih
  increment _ _ _ ih := ih
  print _ _ inner := carried_items inner
  ifThen _ _ _ elseBody _ _ ih inner clauses last := by
    have front := (ih.append (carried_block inner)).append (carried_elseIfs clauses)
    cases elseBody with
    | none => exact front.append .nil
    | some b => exact front.append (carried_block (last b rfl))
  whileLoop _ _ _ ih inner := ih.append (carried_block inner)
  forLoop _ _ _ _ _ _ ih ih' step inner :=
    ((ih.append ih').append (carried_option step)).append (carried_block inner)
  forEach _ _ _ _ ih inner := ih.append (carried_block inner)
  comment _ := .nil
  declare _ _ inner := carried_function inner
  returns _ _ inner := carried_option inner
  goto _ _ := .nil
  label _ := .nil
  exitFor _ := .nil
  exitWhile _ := .nil
  endProgram _ := .nil
  stop _ := .nil

end Carried
end BrightScript
