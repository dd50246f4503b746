import BrightScript.Tree

/-! Induction over trees.
Expressions and statements contain each other, most of them through lists and options of parts.
What holds of a node as soon as it holds of the expressions and statements right below it holds of
every tree. -/
namespace BrightScript

variable {P : Expr → Prop} {Q : Stmt → Prop}

/-- The property holds of every statement of a block. -/
def Block.All (Q : Stmt → Prop) (b : Block Stmt) : Prop := ∀ s ∈ b.statements, Q s

/-- The properties hold of the default values and of the body of a function. -/
def Function.All (P : Expr → Prop) (Q : Stmt → Prop) (f : Function Expr Stmt) : Prop :=
  (∀ p ∈ f.parameters, ∀ e ∈ p.fallback, P e) ∧ f.body.All Q

/-- Properties of expressions and of statements that go from the parts of a node to the node. -/
structure Hereditary (P : Expr → Prop) (Q : Stmt → Prop) : Prop where
  literal : ∀ l, P (.literal l)
  var : ∀ x, P (.var x)
  dotted : ∀ object x r, P object → P (.dotted object x r)
  indexed : ∀ object index r, P object → P index → P (.indexed object index r)
  call : ∀ callee args r, P callee → (∀ e ∈ args, P e) → P (.call callee args r)
  array : ∀ elements r, (∀ e ∈ elements, P e) → P (.array elements r)
  assoc : ∀ members r, (∀ p, Member.property p ∈ members → P p.value) → P (.assoc members r)
  binary : ∀ operator left right r, P left → P right → P (.binary operator left right r)
  unary : ∀ operator operand r, P operand → P (.unary operator operand r)
  group : ∀ inner r, P inner → P (.group inner r)
  function : ∀ f, f.All P Q → P (.function f)
  conditional : ∀ test consequent alternate r, P test → P consequent → P alternate →
    P (.conditional test consequent alternate r)
  assign : ∀ x operator value r, P value → Q (.assign x operator value r)
  setDotted : ∀ object x operator value r, P object → P value →
    Q (.setDotted object x operator value r)
  setIndexed : ∀ object index operator value r, P object → P index → P value →
    Q (.setIndexed object index operator value r)
  expression : ∀ e, P e → Q (.expression e)
  increment : ∀ value operator r, P value → Q (.increment value operator r)
  print : ∀ items r, (∀ e, PrintItem.expression e ∈ items → P e) → Q (.print items r)
  ifThen : ∀ condition body elseIfs elseBody inline r, P condition → body.All Q →
    (∀ e ∈ elseIfs, P e.condition ∧ e.body.All Q) → (∀ b ∈ elseBody, b.All Q) →
    Q (.ifThen condition body elseIfs elseBody inline r)
  whileLoop : ∀ condition body r, P condition → body.All Q → Q (.whileLoop condition body r)
  forLoop : ∀ counter first last step body r, P first → P last → (∀ e ∈ step, P e) → body.All Q →
    Q (.forLoop counter first last step body r)
  forEach : ∀ item target body r, P target → body.All Q → Q (.forEach item target body r)
  comment : ∀ c, Q (.comment c)
  declare : ∀ name f, f.All P Q → Q (.declare name f)
  returns : ∀ value r, (∀ e ∈ value, P e) → Q (.returns value r)
  goto : ∀ label r, Q (.goto label r)
  label : ∀ name, Q (.label name)
  exitFor : ∀ r, Q (.exitFor r)
  exitWhile : ∀ r, Q (.exitWhile r)
  endProgram : ∀ r, Q (.endProgram r)
  stop : ∀ r, Q (.stop r)

namespace Hereditary

mutual
theorem expr (h : Hereditary P Q) (e : Expr) : P e :=
  match e with
  | .literal l => h.literal l
  | .var x => h.var x
  | .dotted object x r => h.dotted object x r (h.expr object)
  | .indexed object index r => h.indexed object index r (h.expr object) (h.expr index)
  | .call callee args r => h.call callee args r (h.expr callee) (h.exprs args)
  | .array elements r => h.array elements r (h.exprs elements)
  | .assoc members r => h.assoc members r (h.members members)
  | .binary operator left right r => h.binary operator left right r (h.expr left) (h.expr right)
  | .unary operator operand r => h.unary operator operand r (h.expr operand)
  | .group inner r => h.group inner r (h.expr inner)
  | .function ⟨isSub, parameters, returns, ⟨stmts, range⟩, r⟩ =>
    h.function ⟨isSub, parameters, returns, ⟨stmts, range⟩, r⟩ ⟨h.params parameters, h.stmts stmts⟩
  | .conditional test consequent alternate r =>
    h.conditional test consequent alternate r (h.expr test) (h.expr consequent) (h.expr alternate)

theorem stmt (h : Hereditary P Q) (s : Stmt) : Q s :=
  match s with
  | .assign x operator value r => h.assign x operator value r (h.expr value)
  | .setDotted object x operator value r =>
    h.setDotted object x operator value r (h.expr object) (h.expr value)
  | .setIndexed object index operator value r =>
    h.setIndexed object index operator value r (h.expr object) (h.expr index) (h.expr value)
  | .expression e => h.expression e (h.expr e)
  | .increment value operator r => h.increment value operator r (h.expr value)
  | .print items r => h.print items r (h.items items)
  | .ifThen condition ⟨stmts, range⟩ elseIfs elseBody inline r =>
    h.ifThen condition ⟨stmts, range⟩ elseIfs elseBody inline r (h.expr condition) (h.stmts stmts)
      (h.elseIfs elseIfs)
      (match elseBody with
      | some ⟨last, _⟩ => fun _ same => Option.some.inj same ▸ h.stmts last
      | none => fun _ same => nomatch same)
  | .whileLoop condition ⟨stmts, range⟩ r =>
    h.whileLoop condition ⟨stmts, range⟩ r (h.expr condition) (h.stmts stmts)
  | .forLoop counter first last step ⟨stmts, range⟩ r =>
    h.forLoop counter first last step ⟨stmts, range⟩ r (h.expr first) (h.expr last) (h.option step)
      (h.stmts stmts)
  | .forEach item target ⟨stmts, range⟩ r =>
    h.forEach item target ⟨stmts, range⟩ r (h.expr target) (h.stmts stmts)
  | .comment c => h.comment c
  | .declare name ⟨isSub, parameters, returns, ⟨stmts, range⟩, r⟩ =>
    h.declare name ⟨isSub, parameters, returns, ⟨stmts, range⟩, r⟩
      ⟨h.params parameters, h.stmts stmts⟩
  | .returns value r => h.returns value r (h.option value)
  | .goto label r => h.goto label r
  | .label name => h.label name
  | .exitFor r => h.exitFor r
  | .exitWhile r => h.exitWhile r
  | .endProgram r => h.endProgram r
  | .stop r => h.stop r

theorem exprs (h : Hereditary P Q) (es : List Expr) : ∀ e ∈ es, P e :=
  match es with
  | [] => fun _ mem => nomatch mem
  | e :: rest => List.forall_mem_cons.mpr ⟨h.expr e, h.exprs rest⟩

theorem option (h : Hereditary P Q) (value : Option Expr) : ∀ e ∈ value, P e :=
  match value with
  | none => fun _ same => nomatch same
  | some e => fun _ same => Option.some.inj same ▸ h.expr e

theorem members (h : Hereditary P Q) (ms : List (Member Expr)) :
    ∀ p, Member.property p ∈ ms → P p.value :=
  match ms with
  | [] => fun _ mem => nomatch mem
  | .property ⟨_, _, value, _⟩ :: rest => fun p mem =>
    (List.mem_cons.mp mem).elim (fun same => Member.property.inj same ▸ h.expr value)
      (h.members rest p)
  | .comment _ :: rest => fun p mem =>
    (List.mem_cons.mp mem).elim (fun same => nomatch same) (h.members rest p)

theorem params (h : Hereditary P Q) (ps : List (Parameter Expr)) :
    ∀ p ∈ ps, ∀ e ∈ p.fallback, P e :=
  match ps with
  | [] => fun _ mem => nomatch mem
  | ⟨_, _, fallback, _⟩ :: rest =>
    List.forall_mem_cons.mpr ⟨h.option fallback, h.params rest⟩

theorem items (h : Hereditary P Q) (is : List (PrintItem Expr)) :
    ∀ e, PrintItem.expression e ∈ is → P e :=
  match is with
  | [] => fun _ mem => nomatch mem
  | .expression first :: rest => fun e mem =>
    (List.mem_cons.mp mem).elim (fun same => PrintItem.expression.inj same ▸ h.expr first)
      (h.items rest e)
  | .separator _ :: rest => fun e mem =>
    (List.mem_cons.mp mem).elim (fun same => nomatch same) (h.items rest e)

theorem elseIfs (h : Hereditary P Q) (es : List (ElseIf Expr Stmt)) :
    ∀ e ∈ es, P e.condition ∧ e.body.All Q :=
  match es with
  | [] => fun _ mem => nomatch mem
  | ⟨condition, ⟨stmts, _⟩, _⟩ :: rest =>
    List.forall_mem_cons.mpr ⟨⟨h.expr condition, h.stmts stmts⟩, h.elseIfs rest⟩

theorem stmts (h : Hereditary P Q) (ss : List Stmt) : ∀ s ∈ ss, Q s :=
  match ss with
  | [] => fun _ mem => nomatch mem
  | s :: rest => List.forall_mem_cons.mpr ⟨h.stmt s, h.stmts rest⟩
end

end Hereditary
end BrightScript
