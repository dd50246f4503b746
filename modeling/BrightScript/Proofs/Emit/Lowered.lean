import BrightScript.Proofs.Emit.Places
import BrightScript.Proofs.Tree.Plain

/-! Conditionals as calls.
The text of a conditional is written piece by piece. It is the text of a call that BrightScript
has anyway, of one of the two helper functions, with an object and two functions among its
arguments. So a tree and the same tree with calls for its conditionals have one text. -/
namespace BrightScript

namespace Emit

def helperCall (o : Options) (name : String) (args : List Expr) (range : Range) : Expr :=
  .call (.var ⟨o.stem ++ name, range⟩) args range

def scopeObject (scope : Scope) (range : Range) : Expr :=
  .assoc (scope.idents.map fun x => .property ⟨x.name, true, .var x, x.range⟩) range

def branchFunction (names : List Ident) (value : Expr) (range : Range) : Function Expr Stmt where
  isSub := false
  parameters := [⟨⟨"scope", range⟩, .dynamic, none, range⟩]
  returns := .dynamic
  body := ⟨names.map rebind ++ [.returns (some value) range], range⟩
  range := range

/-- The call that stands for a conditional. Whether the branches need functions, and which
variables these bind, is asked of the operands as they were. -/
def ternaryCall (o : Options)
    (test consequent alternate test' consequent' alternate' : Expr) (range : Range) : Expr :=
  if isPlain o test consequent alternate then
    helperCall o "simpleTernary" [test', consequent', alternate'] range
  else
    let scope := Scope.collect [test, consequent, alternate]
    helperCall o "scopeSafeTernary"
      [test', scopeObject scope range,
        .function (branchFunction (rebound scope consequent) consequent' range),
        .function (branchFunction (rebound scope alternate) alternate' range)] range

def lowering (o : Options) : Rewriting := { conditional := ternaryCall o }

/-- The program with a call in the place of every conditional. -/
def lower (o : Options) (stmts : List Stmt) : List Stmt := stmts.map (·.rewrite (lowering o))

variable (o : Options)

theorem render_helperCall (level : Nat) (name : String) (args : List Expr) (range : Range) :
    render o.layout (exprPieces o level (helperCall o name args range)) =
      o.stem ++ name ++ "(" ++ render o.layout (exprsPieces o level args) ++ ")" := by
  simp [helperCall, exprPieces, Piece.render, String.append_assoc]

theorem render_scopeMembers (level : Nat) (names : List Ident) :
    render o.layout
        (membersPieces o level (names.map fun x => .property ⟨x.name, true, .var x, x.range⟩)) =
      render o.layout
        (names.flatMap fun x => [.line level, .text (quote x.name), .text ": ", .text x.name]) := by
  induction names with
  | nil => rfl
  | cons x rest ih =>
    simp [membersPieces, exprPieces, Piece.render, String.append_assoc, ih]

theorem render_scopeObject (level : Nat) (scope : Scope) (range : Range) :
    render o.layout (exprPieces o level (scopeObject scope range)) =
      render o.layout (scopePieces level scope) := by
  cases scope with
  | nil =>
    have braces : "\x7b\x7d" = "\x7b" ++ "\x7d" := by decide
    simp [scopeObject, Scope.idents, exprPieces, scopePieces, Piece.render, braces]
  | cons entry rest =>
    have members := render_scopeMembers o (level + 1) (Scope.idents (entry :: rest))
    have pieces : exprPieces o level (scopeObject (entry :: rest) range) =
        [.text "\x7b"] ++ membersPieces o (level + 1)
          ((Scope.idents (entry :: rest)).map fun x => .property ⟨x.name, true, .var x, x.range⟩) ++
        [.line level, .text "\x7d"] := rfl
    have given : ¬ (entry :: rest).isEmpty = true := by simp
    rw [pieces, render_append, render_append, members, scopePieces, if_neg given, render_append,
      render_append]

theorem render_branchBody (level line : Nat) (names : List Ident) (value : Expr) (range : Range) :
    render o.layout
        (bodyPieces o level line (names.map rebind ++ [.returns (some value) range])) =
      render o.layout
          (names.flatMap fun x => [.line level, .text x.name, .text " = scope.", .text x.name]) ++
        render o.layout ([.line level, .text "return "] ++ exprPieces o level value) := by
  induction names generalizing line with
  | nil =>
    have word : "return " = "return" ++ " " := by decide
    have pieces : bodyPieces o level line [.returns (some value) range] =
        [.line level, .text "return", .text " "] ++ exprPieces o level value := by
      simp [bodyPieces, lead, stmtPieces]
    simp only [List.map_nil, List.nil_append, List.flatMap_nil, pieces, render_append, render_cons,
      render_nil, Piece.render, word, String.append_assoc, String.append_empty, String.empty_append]
  | cons x rest ih =>
    have pieces : bodyPieces o level line
        ((x :: rest).map rebind ++ [.returns (some value) range]) =
        bodyPieces o level line ([x].map rebind) ++ bodyPieces o level (rebind x).range.stop.line
          (rest.map rebind ++ [.returns (some value) range]) := by
      simp [bodyPieces]
    rw [pieces, render_append, render_rebinds, ih, ← String.append_assoc, ← render_append]
    rfl

theorem render_branchFunction (level : Nat) (names : List Ident) (value : Expr) (range : Range) :
    render o.layout (functionPieces o level none (branchFunction names value range)) =
      render o.layout (branchPieces level
        (names.flatMap fun x => [.line (level + 1), .text x.name, .text " = scope.", .text x.name])
        (exprPieces o (level + 1) value)) := by
  have head : "function(scope)" = "function" ++ ("(" ++ ("scope" ++ ")")) := by decide
  have implied : asPieces .dynamic .dynamic = [] := rfl
  have pieces : functionPieces o level none (branchFunction names value range) =
      [.text "function", .text "(", .text "scope", .text ")"] ++
        bodyPieces o (level + 1) range.start.line
          (names.map rebind ++ [.returns (some value) range]) ++
        [.line level, .text "end function"] := by
    simp [branchFunction, functionPieces, parametersPieces, parameterPieces_none, implied]
  rw [pieces, render_append, render_append, render_branchBody]
  simp only [branchPieces, head, render_append, render_cons, render_nil, Piece.render,
    String.append_assoc, String.append_empty]

theorem exprKept_conditional (test consequent alternate : Expr) (range : Range)
    (kept : ExprKept (SeenAlike id o) o (lowering o) test)
    (kept' : ExprKept (SeenAlike id o) o (lowering o) consequent)
    (kept'' : ExprKept (SeenAlike id o) o (lowering o) alternate) :
    ExprKept (SeenAlike id o) o (lowering o) (.conditional test consequent alternate range) := by
  intro level
  have call : Expr.rewrite (lowering o) (.conditional test consequent alternate range) =
      ternaryCall o test consequent alternate (test.rewrite (lowering o))
        (consequent.rewrite (lowering o)) (alternate.rewrite (lowering o)) range := by
    rw [Expr.rewrite]
    rfl
  simp only [ExprKept, SeenAlike, shown, id] at kept kept' kept'' ⊢
  rw [call, ternaryCall, exprPieces]
  split
  · have name : "simpleTernary(" = "simpleTernary" ++ "(" := by decide
    rw [render_helperCall]
    simp [exprsPieces, kept, kept', kept'', name, Piece.render, String.append_assoc]
  · have name : "scopeSafeTernary(" = "scopeSafeTernary" ++ "(" := by decide
    rw [render_helperCall]
    simp only [exprsPieces, render_append, render_cons, render_nil, render_scopeObject,
      kept level, exprPieces, render_branchFunction, branchPieces, kept' (level + 1),
      kept'' (level + 1), rebindPieces, rebound, name, Piece.render, String.append_assoc,
      String.append_empty]

/-- Nothing of the lowering shows in the text. -/
theorem hidden_lowering : Hidden (SeenAlike id o) o (lowering o) 0 where
  toCongruent := Piecewise.congruent fun _ _ => rfl
  text _ _ := rfl
  quote _ _ := rfl
  comment _ _ := rfl
  starts _ := rfl
  stops _ := rfl
  placed test consequent alternate _ _ _ range := by
    change (ternaryCall o test consequent alternate _ _ _ range).range = range
    rw [ternaryCall]
    split <;> rfl
  unsigned test consequent alternate _ _ _ range := by
    change startsWithSign (ternaryCall o test consequent alternate _ _ _ range) = false
    rw [ternaryCall]
    split <;> rfl
  conditional := exprKept_conditional o

end Emit

section Plain

variable {w : Rewriting}

/- A rewriting leaves no conditional in an expression, or in a statement. -/
def ExprGone (w : Rewriting) (e : Expr) : Prop := (e.rewrite w).plain = true

def StmtGone (w : Rewriting) (s : Stmt) : Prop := (s.rewrite w).plain = true

theorem plain_block {b : Block Stmt} (inner : b.All (StmtGone w)) :
    blockPlain (blockRewrite w b) = true := by
  obtain ⟨stmts, range⟩ := b
  simp only [blockRewrite, blockPlain, stmtsPlain_eq, stmtsRewrite_eq, List.all_map, List.all_eq_true]
  exact inner

theorem plain_option {value : Option Expr} (inner : ∀ e ∈ value, ExprGone w e) :
    optionPlain (optionRewrite w value) = true := by
  cases value with
  | none => rfl
  | some e => exact inner e rfl

theorem plain_exprs {es : List Expr} (inner : ∀ e ∈ es, ExprGone w e) :
    exprsPlain (exprsRewrite w es) = true := by
  simp only [exprsPlain_eq, exprsRewrite_eq, List.all_map, List.all_eq_true]
  exact inner

theorem plain_members {ms : List (Member Expr)}
    (inner : ∀ p, Member.property p ∈ ms → ExprGone w p.value) :
    membersPlain (membersRewrite w ms) = true := by
  simp only [membersPlain_eq, membersRewrite_eq, List.all_map, List.all_eq_true]
  intro m mem
  cases m with
  | property p => exact inner p mem
  | comment c => rfl

theorem plain_items {is : List (PrintItem Expr)}
    (inner : ∀ e, PrintItem.expression e ∈ is → ExprGone w e) :
    itemsPlain (itemsRewrite w is) = true := by
  simp only [itemsPlain_eq, itemsRewrite_eq, List.all_map, List.all_eq_true]
  intro i mem
  cases i with
  | expression e => exact inner e mem
  | separator kind => rfl

theorem plain_elseIfs {es : List (ElseIf Expr Stmt)}
    (inner : ∀ e ∈ es, ExprGone w e.condition ∧ e.body.All (StmtGone w)) :
    elseIfsPlain (elseIfsRewrite w es) = true := by
  simp only [elseIfsPlain_eq, elseIfsRewrite_eq, List.all_map, List.all_eq_true]
  intro e mem
  obtain ⟨test, stmts⟩ := inner e mem
  cases e
  exact Bool.and_eq_true_iff.mpr ⟨test, plain_block stmts⟩

theorem plain_function {f : Function Expr Stmt} (inner : f.All (ExprGone w) (StmtGone w)) :
    functionPlain (functionRewrite w f) = true := by
  obtain ⟨values, stmts⟩ := inner
  have params : parametersPlain (parametersRewrite w f.parameters) = true := by
    simp only [parametersPlain_eq, parametersRewrite_eq, List.all_map, List.all_eq_true]
    intro p mem
    have value := plain_option (values p mem)
    cases p
    exact value
  cases f
  exact Bool.and_eq_true_iff.mpr ⟨params, plain_block stmts⟩

/-- A rewriting that leaves no conditional where it finds one leaves none at all. -/
theorem hereditary_plain
    (gone : ∀ test consequent alternate test' consequent' alternate' r,
      test'.plain = true → consequent'.plain = true → alternate'.plain = true →
        (w.conditional test consequent alternate test' consequent' alternate' r).plain = true) :
    Hereditary (ExprGone w) (StmtGone w) where
  literal _ := rfl
  var _ := rfl
  dotted _ _ _ ih := ih
  indexed _ _ _ ih ih' := Bool.and_eq_true_iff.mpr ⟨ih, ih'⟩
  call _ _ _ ih inner := Bool.and_eq_true_iff.mpr ⟨ih, plain_exprs inner⟩
  array _ _ inner := plain_exprs inner
  assoc _ _ inner := plain_members inner
  binary _ _ _ _ ih ih' := Bool.and_eq_true_iff.mpr ⟨ih, ih'⟩
  unary _ _ _ ih := ih
  group _ _ ih := ih
  function _ inner := plain_function inner
  conditional _ _ _ _ ih ih' ih'' := gone _ _ _ _ _ _ _ ih ih' ih''
  assign _ _ _ _ ih := ih
  setDotted _ _ _ _ _ ih ih' := Bool.and_eq_true_iff.mpr ⟨ih, ih'⟩
  setIndexed _ _ _ _ _ ih ih' ih'' := by
    unfold ExprGone at ih ih' ih''
    simp only [StmtGone, Stmt.rewrite, Stmt.plain, ih, ih', ih'', Bool.and_self]
  expression _ ih := ih
  increment _ _ _ ih := ih
  print _ _ inner := plain_items inner
  ifThen _ _ _ elseBody _ _ ih inner clauses last := by
    have test : (Expr.rewrite w _).plain = true := ih
    cases elseBody with
    | none =>
      simp only [StmtGone, Stmt.rewrite, Stmt.plain, test, plain_block inner, plain_elseIfs clauses,
        Bool.and_self]
    | some b =>
      simp only [StmtGone, Stmt.rewrite, Stmt.plain, test, plain_block inner, plain_elseIfs clauses,
        plain_block (last b rfl), Bool.and_self]
  whileLoop _ _ _ ih inner := Bool.and_eq_true_iff.mpr ⟨ih, plain_block inner⟩
  forLoop _ _ _ _ _ _ ih ih' step inner := by
    unfold ExprGone at ih ih'
    simp only [StmtGone, Stmt.rewrite, Stmt.plain, ih, ih', plain_option step, plain_block inner,
      Bool.and_self]
  forEach _ _ _ _ ih inner := Bool.and_eq_true_iff.mpr ⟨ih, plain_block inner⟩
  comment _ := rfl
  declare _ _ inner := plain_function inner
  returns _ _ inner := plain_option inner
  goto _ _ := rfl
  label _ := rfl
  exitFor _ := rfl
  exitWhile _ := rfl
  endProgram _ := rfl
  stop _ := rfl

end Plain

namespace Emit

theorem plain_ternaryCall (o : Options) (test consequent alternate test' consequent' alternate' : Expr)
    (range : Range) (plain : test'.plain = true) (plain' : consequent'.plain = true)
    (plain'' : alternate'.plain = true) :
    (ternaryCall o test consequent alternate test' consequent' alternate' range).plain = true := by
  have rebinds (names : List Ident) (value : Expr) (plain : value.plain = true) :
      functionPlain (branchFunction names value range) = true := by
    simp [branchFunction, functionPlain, parametersPlain, parameterPlain, optionPlain, blockPlain,
      stmtsPlain_eq, rebind, Stmt.plain, Expr.plain, plain]
  have scope (scope : Scope) : (scopeObject scope range).plain = true := by
    simp [scopeObject, Expr.plain, membersPlain_eq, memberPlain]
  rw [ternaryCall]
  split
  · simp [helperCall, Expr.plain, exprsPlain, plain, plain', plain'']
  · simp [helperCall, Expr.plain, exprsPlain, plain, scope, rebinds _ _ plain', rebinds _ _ plain'']

theorem plain_lower (o : Options) (stmts : List Stmt) : stmtsPlain (lower o stmts) = true := by
  simp only [lower, stmtsPlain_eq, List.all_map, List.all_eq_true]
  intro s _
  exact (hereditary_plain (plain_ternaryCall o)).stmt s

theorem emit_lower_eq (o : Options) (stmts : List Stmt) : emit o (lower o stmts) = emit o stmts := by
  have text : render o.layout (programPieces o (lower o stmts)) =
      render o.layout (programPieces o stmts) := (hidden_lowering o).program stmts
  simp only [emit, text]

/-- A program and the same program with calls for its conditionals are printed alike, whatever the
options are, and the calls leave no conditional. Every operand is printed once: the text of the
program has its outermost conditionals in it once each and in order, between texts that do not depend
on them, the text of a conditional has those of its operands in it so, between texts made of names,
and an operand is again such a text around the conditionals in it. -/
theorem emit_lower (o : Options) (stmts : List Stmt) :
    emit o (lower o stmts) = emit o stmts ∧ stmtsPlain (lower o stmts) = true ∧
      stmts.map (·.rewrite (exchanging .keep)) = stmts ∧
      (∃ conditionals, Outermost (stmtsNodes stmts) conditionals ∧
        Woven o conditionals fun x => emit o (stmts.map (·.rewrite (exchanging x)))) ∧
      (∀ (level : Nat) (test consequent alternate : Expr) (r : Range),
        exprText o level (.conditional test consequent alternate r) =
          if isPlain o test consequent alternate then
            simpleText o (exprText o level test) (exprText o level consequent)
              (exprText o level alternate)
          else
            let scope := Scope.collect [test, consequent, alternate]
            scopeSafeText o level scope (rebound scope consequent) (rebound scope alternate)
              (exprText o level test) (exprText o (level + 1) consequent)
              (exprText o (level + 1) alternate)) ∧
      ∀ (e : Expr) (level : Nat), ∃ conditionals, Outermost e.nodes conditionals ∧
        Woven o conditionals fun x => exprText o level (e.rewrite (exchanging x)) := by
  refine ⟨emit_lower_eq o stmts, plain_lower o stmts, stmts_rewrite_self stmts, woven_emit o stmts,
    fun level test consequent alternate r => ?_, woven_expr o⟩
  split
  · exact exprText_simple ‹_›
  · exact exprText_scopeSafe ‹_›

end Emit
end BrightScript
