import BrightScript.Proofs.Tree.Induction
import BrightScript.Token

/-! Trees rewritten from the leaves up.
A rewriting changes texts and ranges wherever they stand in a tree, and it says what becomes of a
conditional whose operands have been rewritten. The rest of a tree keeps its form. -/
namespace BrightScript

/-- The conditional sees its operands as they were and as they have become. -/
structure Rewriting where
  text : String → String := id
  range : Range → Range := id
  conditional : (test consequent alternate test' consequent' alternate' : Expr) → Range → Expr :=
    fun _ _ _ test' consequent' alternate' => .conditional test' consequent' alternate'

section Leaves

variable (w : Rewriting)

def Ident.rewrite (x : Ident) : Ident := ⟨w.text x.name, w.range x.range⟩

def Literal.rewrite (l : Literal) : Literal := ⟨l.kind, w.text l.text, w.range l.range⟩

def Comment.rewrite (c : Comment) : Comment := ⟨w.text c.text, w.range c.range⟩

def Operator.rewrite (op : Operator) : Operator := ⟨op.kind, w.text op.text⟩

def Value.rewrite : Value → Value
  | .string text => .string (w.text text)
  | value => value

def Token.rewrite (t : Token) : Token :=
  ⟨t.kind, w.text t.text, w.range t.range, t.value.map (Value.rewrite w)⟩

end Leaves

mutual
def Expr.rewrite (w : Rewriting) : Expr → Expr
  | .literal l => .literal (l.rewrite w)
  | .var name => .var (name.rewrite w)
  | .dotted object name range => .dotted (object.rewrite w) (name.rewrite w) (w.range range)
  | .indexed object index range => .indexed (object.rewrite w) (index.rewrite w) (w.range range)
  | .call callee args range => .call (callee.rewrite w) (exprsRewrite w args) (w.range range)
  | .array elements range => .array (exprsRewrite w elements) (w.range range)
  | .assoc members range => .assoc (membersRewrite w members) (w.range range)
  | .binary operator left right range =>
    .binary (operator.rewrite w) (left.rewrite w) (right.rewrite w) (w.range range)
  | .unary operator operand range =>
    .unary (operator.rewrite w) (operand.rewrite w) (w.range range)
  | .group inner range => .group (inner.rewrite w) (w.range range)
  | .function f => .function (functionRewrite w f)
  | .conditional test consequent alternate range =>
    w.conditional test consequent alternate (test.rewrite w) (consequent.rewrite w)
      (alternate.rewrite w) (w.range range)

def Stmt.rewrite (w : Rewriting) : Stmt → Stmt
  | .assign name operator value range =>
    .assign (name.rewrite w) operator (value.rewrite w) (w.range range)
  | .setDotted object name operator value range =>
    .setDotted (object.rewrite w) (name.rewrite w) operator (value.rewrite w) (w.range range)
  | .setIndexed object index operator value range =>
    .setIndexed (object.rewrite w) (index.rewrite w) operator (value.rewrite w) (w.range range)
  | .expression e => .expression (e.rewrite w)
  | .increment value operator range => .increment (value.rewrite w) operator (w.range range)
  | .print items range => .print (itemsRewrite w items) (w.range range)
  | .ifThen condition body elseIfs elseBody inline range =>
    .ifThen (condition.rewrite w) (blockRewrite w body) (elseIfsRewrite w elseIfs)
      (match elseBody with
      | some last => some (blockRewrite w last)
      | none => none) inline (w.range range)
  | .whileLoop condition body range =>
    .whileLoop (condition.rewrite w) (blockRewrite w body) (w.range range)
  | .forLoop counter first last step body range =>
    .forLoop (counter.rewrite w) (first.rewrite w) (last.rewrite w) (optionRewrite w step)
      (blockRewrite w body) (w.range range)
  | .forEach item target body range =>
    .forEach (item.rewrite w) (target.rewrite w) (blockRewrite w body) (w.range range)
  | .comment c => .comment (c.rewrite w)
  | .declare name f => .declare (name.rewrite w) (functionRewrite w f)
  | .returns value range => .returns (optionRewrite w value) (w.range range)
  | .goto label range => .goto (label.rewrite w) (w.range range)
  | .label name => .label (name.rewrite w)
  | .exitFor range => .exitFor (w.range range)
  | .exitWhile range => .exitWhile (w.range range)
  | .endProgram range => .endProgram (w.range range)
  | .stop range => .stop (w.range range)

def functionRewrite (w : Rewriting) : Function Expr Stmt → Function Expr Stmt
  | ⟨isSub, parameters, returns, body, range⟩ =>
    ⟨isSub, parametersRewrite w parameters, returns, blockRewrite w body, w.range range⟩

def blockRewrite (w : Rewriting) : Block Stmt → Block Stmt
  | ⟨stmts, range⟩ => ⟨stmtsRewrite w stmts, w.range range⟩

def exprsRewrite (w : Rewriting) : List Expr → List Expr
  | [] => []
  | e :: rest => e.rewrite w :: exprsRewrite w rest

def optionRewrite (w : Rewriting) : Option Expr → Option Expr
  | none => none
  | some e => some (e.rewrite w)

def memberRewrite (w : Rewriting) : Member Expr → Member Expr
  | .property ⟨key, quoted, value, range⟩ =>
    .property ⟨w.text key, quoted, value.rewrite w, w.range range⟩
  | .comment c => .comment (c.rewrite w)

def membersRewrite (w : Rewriting) : List (Member Expr) → List (Member Expr)
  | [] => []
  | m :: rest => memberRewrite w m :: membersRewrite w rest

def parameterRewrite (w : Rewriting) : Parameter Expr → Parameter Expr
  | ⟨name, type, fallback, range⟩ =>
    ⟨name.rewrite w, type, optionRewrite w fallback, w.range range⟩

def parametersRewrite (w : Rewriting) : List (Parameter Expr) → List (Parameter Expr)
  | [] => []
  | p :: rest => parameterRewrite w p :: parametersRewrite w rest

def itemRewrite (w : Rewriting) : PrintItem Expr → PrintItem Expr
  | .expression e => .expression (e.rewrite w)
  | .separator kind => .separator kind

def itemsRewrite (w : Rewriting) : List (PrintItem Expr) → List (PrintItem Expr)
  | [] => []
  | i :: rest => itemRewrite w i :: itemsRewrite w rest

def elseIfRewrite (w : Rewriting) : ElseIf Expr Stmt → ElseIf Expr Stmt
  | ⟨condition, body, range⟩ => ⟨condition.rewrite w, blockRewrite w body, w.range range⟩

def elseIfsRewrite (w : Rewriting) : List (ElseIf Expr Stmt) → List (ElseIf Expr Stmt)
  | [] => []
  | e :: rest => elseIfRewrite w e :: elseIfsRewrite w rest

def stmtsRewrite (w : Rewriting) : List Stmt → List Stmt
  | [] => []
  | s :: rest => s.rewrite w :: stmtsRewrite w rest
end

attribute [grind =] Expr.rewrite Stmt.rewrite

/- The list functions above go through their lists as `List.map` does. -/
theorem eq_map_of_cons {α : Type} {all : List α → List α} {one : α → α} (nil : all [] = [])
    (cons : ∀ a rest, all (a :: rest) = one a :: all rest) (as : List α) : all as = as.map one := by
  induction as with
  | nil => exact nil
  | cons a rest ih => rw [cons, ih, List.map_cons]

variable (w : Rewriting)

theorem exprsRewrite_eq (es : List Expr) : exprsRewrite w es = es.map (·.rewrite w) :=
  eq_map_of_cons rfl (fun _ _ => rfl) es

theorem membersRewrite_eq (ms : List (Member Expr)) :
    membersRewrite w ms = ms.map (memberRewrite w) := eq_map_of_cons rfl (fun _ _ => rfl) ms

theorem parametersRewrite_eq (ps : List (Parameter Expr)) :
    parametersRewrite w ps = ps.map (parameterRewrite w) :=
  eq_map_of_cons rfl (fun _ _ => rfl) ps

theorem itemsRewrite_eq (is : List (PrintItem Expr)) :
    itemsRewrite w is = is.map (itemRewrite w) := eq_map_of_cons rfl (fun _ _ => rfl) is

theorem elseIfsRewrite_eq (es : List (ElseIf Expr Stmt)) :
    elseIfsRewrite w es = es.map (elseIfRewrite w) := eq_map_of_cons rfl (fun _ _ => rfl) es

theorem stmtsRewrite_eq (ss : List Stmt) : stmtsRewrite w ss = ss.map (·.rewrite w) :=
  eq_map_of_cons rfl (fun _ _ => rfl) ss

def Rewriting.Placed : Prop :=
  ∀ test consequent alternate test' consequent' alternate' range,
    (w.conditional test consequent alternate test' consequent' alternate' range).range = range

@[simp] theorem functionRewrite_range (f : Function Expr Stmt) :
    (functionRewrite w f).range = w.range f.range := by
  cases f
  rw [functionRewrite]

variable {w}

theorem Expr.range_rewrite (placed : w.Placed) (e : Expr) :
    (e.rewrite w).range = w.range e.range := by
  cases e with
  | conditional => rw [Expr.rewrite, placed, Expr.range]
  | _ => simp only [Expr.rewrite, Expr.range, functionRewrite_range] <;> rfl

theorem Stmt.range_rewrite (placed : w.Placed) (s : Stmt) :
    (s.rewrite w).range = w.range s.range := by
  cases s <;>
    simp only [Stmt.rewrite, Stmt.range, functionRewrite_range, Expr.range_rewrite placed] <;> rfl

theorem map_of_kept {α : Type} {f : α → α} {as : List α} (kept : ∀ a ∈ as, f a = a) :
    as.map f = as := (List.map_congr_left kept).trans (List.map_id as)

theorem optionRewrite_self {value : Option Expr} (inner : ∀ e ∈ value, e.rewrite {} = e) :
    optionRewrite {} value = value := by
  cases value with
  | none => rfl
  | some e => rw [optionRewrite, inner e rfl]

theorem blockRewrite_self {b : Block Stmt} (inner : b.All fun s => s.rewrite {} = s) :
    blockRewrite {} b = b := by
  obtain ⟨stmts, range⟩ := b
  rw [blockRewrite, stmtsRewrite_eq, map_of_kept inner]
  rfl

theorem functionRewrite_self {f : Function Expr Stmt}
    (inner : f.All (fun e => e.rewrite {} = e) fun s => s.rewrite {} = s) :
    functionRewrite {} f = f := by
  obtain ⟨isSub, ps, returns, body, range⟩ := f
  have params : ∀ p ∈ ps, parameterRewrite {} p = p := fun p mem => by
    obtain ⟨_, _, fallback, _⟩ := p
    rw [parameterRewrite, optionRewrite_self (inner.1 _ mem)]
    rfl
  rw [functionRewrite, parametersRewrite_eq, map_of_kept params, blockRewrite_self inner.2]
  rfl

theorem hereditary_self : Hereditary (fun e => e.rewrite {} = e) (fun s => s.rewrite {} = s) where
  literal _ := rfl
  var _ := rfl
  dotted _ _ _ object := by rw [Expr.rewrite, object]; rfl
  indexed _ _ _ object index := by rw [Expr.rewrite, object, index]; rfl
  call _ _ _ callee args := by rw [Expr.rewrite, callee, exprsRewrite_eq, map_of_kept args]; rfl
  array _ _ inner := by rw [Expr.rewrite, exprsRewrite_eq, map_of_kept inner]; rfl
  assoc ms _ inner := by
    have members : ∀ m ∈ ms, memberRewrite {} m = m := fun m mem => by
      match m with
      | .property ⟨_, _, value, _⟩ => rw [memberRewrite, inner _ mem]; rfl
      | .comment _ => rfl
    rw [Expr.rewrite, membersRewrite_eq, map_of_kept members]
    rfl
  binary _ _ _ _ left right := by rw [Expr.rewrite, left, right]; rfl
  unary _ _ _ operand := by rw [Expr.rewrite, operand]; rfl
  group _ _ inner := by rw [Expr.rewrite, inner]; rfl
  function _ inner := by rw [Expr.rewrite, functionRewrite_self inner]
  conditional _ _ _ _ test consequent alternate := by
    rw [Expr.rewrite, test, consequent, alternate]
    rfl
  assign _ _ _ _ value := by rw [Stmt.rewrite, value]; rfl
  setDotted _ _ _ _ _ object value := by rw [Stmt.rewrite, object, value]; rfl
  setIndexed _ _ _ _ _ object index value := by rw [Stmt.rewrite, object, index, value]; rfl
  expression _ e := by rw [Stmt.rewrite, e]
  increment _ _ _ value := by rw [Stmt.rewrite, value]; rfl
  print is _ inner := by
    have items : ∀ i ∈ is, itemRewrite {} i = i := fun i mem => by
      cases i with
      | expression e => rw [itemRewrite, inner e mem]
      | separator _ => rfl
    rw [Stmt.rewrite, itemsRewrite_eq, map_of_kept items]
    rfl
  ifThen _ _ elseIfs elseBody _ _ test body clauses last := by
    have middle : ∀ e ∈ elseIfs, elseIfRewrite {} e = e := fun e mem => by
      obtain ⟨condition, stmts, _⟩ := e
      rw [elseIfRewrite, (clauses _ mem).1, blockRewrite_self (clauses _ mem).2]
      rfl
    cases elseBody with
    | none => rw [Stmt.rewrite, test, blockRewrite_self body, elseIfsRewrite_eq, map_of_kept middle]; rfl
    | some b =>
      simp only [Stmt.rewrite, test, blockRewrite_self body, elseIfsRewrite_eq, map_of_kept middle,
        blockRewrite_self (last b rfl)]
      rfl
  whileLoop _ _ _ test body := by rw [Stmt.rewrite, test, blockRewrite_self body]; rfl
  forLoop _ _ _ _ _ _ first last step body := by
    rw [Stmt.rewrite, first, last, optionRewrite_self step, blockRewrite_self body]
    rfl
  forEach _ _ _ _ target body := by rw [Stmt.rewrite, target, blockRewrite_self body]; rfl
  comment _ := rfl
  declare _ _ inner := by rw [Stmt.rewrite, functionRewrite_self inner]; rfl
  returns _ _ value := by rw [Stmt.rewrite, optionRewrite_self value]; rfl
  goto _ _ := rfl
  label _ := rfl
  exitFor _ := rfl
  exitWhile _ := rfl
  endProgram _ := rfl
  stop _ := rfl

theorem stmts_rewrite_self (ss : List Stmt) : ss.map (·.rewrite {}) = ss :=
  map_of_kept fun s _ => hereditary_self.stmt s

end BrightScript
