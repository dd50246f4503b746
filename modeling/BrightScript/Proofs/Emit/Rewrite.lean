import BrightScript.Emit.Printer
import BrightScript.Proofs.Tree.Induction
import BrightScript.Proofs.Tree.Rewrite

/-! The text of a rewritten tree.
A relation of what is printed, if it holds of the whole when it holds of the parts, holds of a tree
and the rewritten tree as soon as it does at the leaves and at the conditionals. One such relation is
to look the same to someone who does not see all of a text. -/
namespace BrightScript.Emit

variable {o : Options} {w : Rewriting} {lines : Nat}

/-- What is printed at each level. -/
abbrev Printing := Nat → List Piece

variable {R : Printing → Printing → Prop}

/-- A relation that holds of whole printings if it holds of their parts. -/
structure Congruent (R : Printing → Printing → Prop) : Prop where
  nil : R (fun _ => []) fun _ => []
  word : ∀ s, R (fun _ => [.text s]) fun _ => [.text s]
  line : R (fun level => [.line level]) fun level => [.line level]
  append : ∀ {f f' g g'}, R f f' → R g g' →
    R (fun level => f level ++ g level) fun level => f' level ++ g' level
  indented : ∀ {f g}, R f g → R (fun level => f (level + 1)) fun level => g (level + 1)

namespace Congruent

variable (h : Congruent R)
include h

theorem words (ss : List String) : R (fun _ => ss.map .text) fun _ => ss.map .text := by
  induction ss with
  | nil => exact h.nil
  | cons s rest ih => exact h.append (h.word s) ih

theorem lineOf (s : String) :
    R (fun level => [.line level, .text s]) fun level => [.line level, .text s] :=
  h.append h.line (h.word s)

theorem flatMap {α : Type} {f g : α → Printing} (same : ∀ x, R (f x) (g x)) (xs : List α) :
    R (fun level => xs.flatMap (f · level)) fun level => xs.flatMap (g · level) := by
  induction xs with
  | nil => exact h.nil
  | cons x xs ih => simpa only [List.flatMap_cons] using h.append (same x) ih

theorem asPieces (implied type : Ty) :
    R (fun _ => asPieces implied type) fun _ => asPieces implied type := by
  unfold Emit.asPieces
  split
  · exact h.nil
  · exact h.words [_, _]

theorem lead (line : Nat) (s : Stmt) : R (lead · line s) (lead · line s) := by
  unfold Emit.lead
  split
  · split
    · exact h.word " "
    · exact h.line
  · exact h.line

theorem comment (c : Comment) : R (commentPieces · c) (commentPieces · c) :=
  h.append (h.words _) (h.flatMap h.lineOf _)

end Congruent

def ExprKept (R : Printing → Printing → Prop) (o : Options) (w : Rewriting) (e : Expr) : Prop :=
  R (exprPieces o · (e.rewrite w)) (exprPieces o · e)

def StmtKept (R : Printing → Printing → Prop) (o : Options) (w : Rewriting) (s : Stmt) : Prop :=
  R (stmtPieces o · (s.rewrite w)) (stmtPieces o · s)

/-- A rewriting does not show at the leaves. It may move everything so many lines down. -/
structure Unseen (R : Printing → Printing → Prop) (w : Rewriting) (lines : Nat) : Prop
    extends Congruent R where
  text : ∀ s, R (fun _ => [.text (w.text s)]) fun _ => [.text s]
  quote : ∀ s, R (fun _ => [.text (quote (w.text s))]) fun _ => [.text (quote s)]
  comment : ∀ c : Comment, R (commentPieces · (c.rewrite w)) (commentPieces · c)
  starts : ∀ r, (w.range r).start.line = r.start.line + lines
  stops : ∀ r, (w.range r).stop.line = r.stop.line + lines

/-- Nor does it at a conditional, if it does not in the operands. -/
structure Hidden (R : Printing → Printing → Prop) (o : Options) (w : Rewriting) (lines : Nat) : Prop
    extends Unseen R w lines where
  placed : w.Placed
  unsigned : ∀ test consequent alternate test' consequent' alternate' r,
    startsWithSign (w.conditional test consequent alternate test' consequent' alternate' r) = false
  conditional : ∀ test consequent alternate r, ExprKept R o w test → ExprKept R o w consequent →
    ExprKept R o w alternate → ExprKept R o w (.conditional test consequent alternate r)

namespace Hidden

section Lists

variable (h : Hidden R o w lines)
include h

theorem startsWithSign_rewrite (e : Expr) : startsWithSign (e.rewrite w) = startsWithSign e := by
  cases e with
  | conditional test consequent alternate r => rw [Expr.rewrite, h.unsigned]; rfl
  | _ => simp only [Expr.rewrite, startsWithSign, Operator.rewrite]

theorem lead_rewrite (level line : Nat) (s : Stmt) :
    lead level (line + lines) (s.rewrite w) = lead level line s := by
  cases s <;> simp only [Stmt.rewrite, lead, Comment.rewrite, h.starts, Nat.add_right_cancel_iff]

theorem stop_stmt (s : Stmt) : (s.rewrite w).range.stop.line = s.range.stop.line + lines := by
  rw [Stmt.range_rewrite h.placed, h.stops]

theorem exprs {es : List Expr} (kept : ∀ e ∈ es, ExprKept R o w e) :
    R (exprsPieces o · (exprsRewrite w es)) (exprsPieces o · es) := by
  induction es with
  | nil => exact h.nil
  | cons e rest ih =>
    obtain ⟨first, later⟩ := List.forall_mem_cons.mp kept
    cases rest with
    | nil => exact first
    | cons e' rest => exact h.append (h.append first (h.word ", ")) (ih later)

theorem members {ms : List (Member Expr)}
    (kept : ∀ p, Member.property p ∈ ms → ExprKept R o w p.value) :
    R (membersPieces o · (membersRewrite w ms)) (membersPieces o · ms) := by
  induction ms with
  | nil => exact h.nil
  | cons m rest ih =>
    have later := ih fun p mem => kept p (List.mem_cons_of_mem _ mem)
    match m with
    | .property ⟨key, quoted, value, _⟩ =>
      have name : R (fun _ => [.text (if quoted then Emit.quote (w.text key) else w.text key)])
          fun _ => [.text (if quoted then Emit.quote key else key)] := by
        cases quoted
        · exact h.text key
        · exact h.quote key
      exact h.append (h.append (h.append h.line (h.append name (h.word ": ")))
        (kept _ List.mem_cons_self)) later
    | .comment c => exact h.append (h.append h.line (h.comment c)) later

theorem parameter {p : Parameter Expr} (kept : ∀ e ∈ p.fallback, ExprKept R o w e) :
    R (parameterPieces o · (parameterRewrite w p)) (parameterPieces o · p) := by
  obtain ⟨name, type, _ | e, _⟩ := p
  · exact h.append (h.append (h.text name.name) h.nil) (h.asPieces ..)
  · exact h.append (h.append (h.text name.name) (h.append (h.word " = ") (kept e rfl)))
      (h.asPieces ..)

theorem parameters {ps : List (Parameter Expr)}
    (kept : ∀ p ∈ ps, ∀ e ∈ p.fallback, ExprKept R o w e) :
    R (parametersPieces o · (parametersRewrite w ps)) (parametersPieces o · ps) := by
  induction ps with
  | nil => exact h.nil
  | cons p rest ih =>
    obtain ⟨first, later⟩ := List.forall_mem_cons.mp kept
    cases rest with
    | nil => exact h.parameter first
    | cons p' rest => exact h.append (h.append (h.parameter first) (h.word ", ")) (ih later)

theorem items {is : List (PrintItem Expr)}
    (kept : ∀ e, PrintItem.expression e ∈ is → ExprKept R o w e) :
    R (itemsPieces o · (itemsRewrite w is)) (itemsPieces o · is) := by
  induction is with
  | nil => exact h.nil
  | cons i rest ih =>
    have later := ih fun p mem => kept p (List.mem_cons_of_mem _ mem)
    cases i with
    | expression e => exact h.append (h.append (h.word " ") (kept e List.mem_cons_self)) later
    | separator kind => exact h.append (h.word _) later

theorem body {ss : List Stmt} (kept : ∀ s ∈ ss, StmtKept R o w s) (line : Nat) :
    R (bodyPieces o · (line + lines) (stmtsRewrite w ss)) (bodyPieces o · line ss) := by
  induction ss generalizing line with
  | nil => exact h.nil
  | cons s rest ih =>
    obtain ⟨first, later⟩ := List.forall_mem_cons.mp kept
    simp only [stmtsRewrite, bodyPieces, h.lead_rewrite, h.stop_stmt]
    exact h.append (h.append (h.lead line s) first) (ih later _)

theorem block {b : Block Stmt} (kept : b.All (StmtKept R o w)) :
    R (fun level => bodyPieces o (level + 1) (blockRewrite w b).range.start.line
        (blockRewrite w b).statements)
      fun level => bodyPieces o (level + 1) b.range.start.line b.statements := by
  obtain ⟨ss, range⟩ := b
  simp only [blockRewrite, h.starts]
  exact h.indented (h.body kept range.start.line)

theorem inline {ss : List Stmt} (kept : ∀ s ∈ ss, StmtKept R o w s) :
    R (inlinePieces o · (stmtsRewrite w ss)) (inlinePieces o · ss) := by
  induction ss with
  | nil => exact h.nil
  | cons s rest ih =>
    obtain ⟨first, later⟩ := List.forall_mem_cons.mp kept
    cases rest with
    | nil => exact first
    | cons s' rest => exact h.append (h.append first (h.word " : ")) (ih later)

theorem elseIfs {es : List (ElseIf Expr Stmt)}
    (kept : ∀ e ∈ es, ExprKept R o w e.condition ∧ e.body.All (StmtKept R o w)) :
    R (elseIfsPieces o · (elseIfsRewrite w es)) (elseIfsPieces o · es) ∧
      R (inlineElseIfsPieces o · (elseIfsRewrite w es)) (inlineElseIfsPieces o · es) := by
  induction es with
  | nil => exact ⟨h.nil, h.nil⟩
  | cons e rest ih =>
    obtain ⟨⟨test, stmts⟩, later⟩ := List.forall_mem_cons.mp kept
    obtain ⟨_, ⟨_, _⟩, _⟩ := e
    obtain ⟨more, more'⟩ := ih later
    constructor
    · exact h.append (h.append (h.append (h.append (h.lineOf _) test) (h.word _))
        (h.block stmts)) more
    · exact h.append (h.append (h.append (h.append (h.word _) test) (h.word _)) (h.inline stmts)) more'

theorem function {f : Function Expr Stmt} (kept : f.All (ExprKept R o w) (StmtKept R o w))
    (name : Option Ident) :
    R (functionPieces o · (name.map (·.rewrite w |>.name)) (functionRewrite w f))
      (functionPieces o · (name.map (·.name)) f) := by
  obtain ⟨isSub, _, returns, ⟨_, _⟩, _⟩ := f
  have head {title title' : Printing} (named : R title title') :=
    h.append (h.append (h.append (h.append (h.append (h.word
      (if isSub then "sub" else "function")) named) (h.word "(")) (h.parameters kept.1))
      (h.word ")")) (h.asPieces (if isSub then .void else .dynamic) returns)
  cases name with
  | none => exact h.append (h.append (head h.nil) (h.block kept.2)) (h.lineOf _)
  | some x =>
    have named := head (h.append (h.word " ") (h.text x.name))
    exact h.append (h.append named (h.block kept.2)) (h.lineOf _)

end Lists

theorem ifThen (h : Hidden R o w lines) {condition : Expr} {body : Block Stmt}
    {elseIfs : List (ElseIf Expr Stmt)} {elseBody : Option (Block Stmt)} {inline : Bool} {r : Range}
    (test : ExprKept R o w condition) (stmts : body.All (StmtKept R o w))
    (clauses : ∀ e ∈ elseIfs, ExprKept R o w e.condition ∧ e.body.All (StmtKept R o w))
    (last : ∀ b ∈ elseBody, b.All (StmtKept R o w)) :
    StmtKept R o w (.ifThen condition body elseIfs elseBody inline r) := by
  obtain ⟨_, _⟩ := body
  obtain ⟨more, more'⟩ := h.elseIfs clauses
  have head := h.append (h.word "if ") test
  cases inline with
  | true =>
    have front := h.append (h.append (h.append head (h.word " then ")) (h.inline stmts)) more'
    cases elseBody with
    | none => exact h.append front h.nil
    | some b =>
      have stmts := h.inline (last b rfl)
      cases b
      exact h.append front (h.append (h.word _) stmts)
  | false =>
    have front := h.append (h.append (h.append head (h.word " then")) (h.block stmts)) more
    cases elseBody with
    | none => exact h.append (h.append front h.nil) (h.lineOf _)
    | some b =>
      exact h.append (h.append front (h.append (h.lineOf _) (h.block (last b rfl))))
        (h.lineOf _)

/-- From the leaves and the conditionals to whole trees, node by node. The parts are put together in
the order in which they are printed. -/
theorem hereditary (h : Hidden R o w lines) :
    Hereditary (ExprKept R o w) (StmtKept R o w) where
  literal l := h.text l.text
  var x := h.text x.name
  dotted _ x _ ih := h.append ih (h.append (h.word _) (h.text x.name))
  indexed _ _ _ ih ih' := h.append (h.append (h.append ih (h.word _)) ih') (h.word _)
  call _ _ _ ih inner := h.append (h.append (h.append ih (h.word _)) (h.exprs inner)) (h.word _)
  array _ _ inner := h.append (h.append (h.word _) (h.exprs inner)) (h.word _)
  assoc ms _ inner := by
    cases ms with
    | nil => exact h.word _
    | cons => exact h.append (h.append (h.word _) (h.indented (h.members inner))) (h.lineOf _)
  binary op _ _ _ ih ih' :=
    h.append (h.append ih (h.append (h.word _) (h.append (h.text op.text) (h.word _)))) ih'
  unary op operand _ ih := by
    have gap : R
        (fun _ => if op.kind = .not_ || startsWithSign (operand.rewrite w) then [.text " "] else [])
        fun _ => if op.kind = .not_ || startsWithSign operand then [.text " "] else [] := by
      rw [h.startsWithSign_rewrite]
      split
      · exact h.word _
      · exact h.nil
    exact h.append (h.append (h.text op.text) gap) ih
  group _ _ ih := h.append (h.append (h.word _) ih) (h.word _)
  function _ kept := h.function kept none
  conditional := h.conditional
  assign x _ _ _ ih := h.append (h.append (h.text x.name) (h.words [_, _, _])) ih
  setDotted _ x _ _ _ ih ih' :=
    h.append (h.append (h.append ih (h.append (h.word _) (h.text x.name))) (h.words [_, _, _])) ih'
  setIndexed _ _ _ _ _ ih ih' ih'' :=
    h.append (h.append (h.append (h.append (h.append ih (h.word _)) ih') (h.word _))
      (h.words [_, _, _])) ih''
  expression _ ih := ih
  increment _ _ _ ih := h.append ih (h.word _)
  print _ _ inner := h.append (h.word _) (h.items inner)
  ifThen _ _ _ _ _ _ test stmts clauses last := h.ifThen test stmts clauses last
  whileLoop _ _ _ test stmts :=
    h.append (h.append (h.append (h.word _) test) (h.block stmts)) (h.lineOf _)
  forLoop counter _ _ step _ _ ih ih' value stmts := by
    have name := h.append (h.word "for ") (h.append (h.text counter.name) (h.word " = "))
    have front := h.append (h.append (h.append name ih) (h.word " to ")) ih'
    have block := h.block stmts
    cases step with
    | none => exact h.append (h.append (h.append front h.nil) block) (h.lineOf _)
    | some e =>
      exact h.append (h.append (h.append front (h.append (h.word _) (value e rfl))) block) (h.lineOf _)
  forEach item _ _ _ ih stmts :=
    h.append (h.append (h.append (h.append (h.word _) (h.append (h.text item.name) (h.word _))) ih)
      (h.block stmts)) (h.lineOf _)
  comment c := h.comment c
  declare name _ kept := h.function kept (some name)
  returns value _ inner := by
    cases value with
    | none => exact h.append (h.word _) h.nil
    | some e => exact h.append (h.word _) (h.append (h.word _) (inner e rfl))
  goto label _ := h.append (h.word _) (h.text label.name)
  label name := h.append (h.text name.name) (h.word _)
  exitFor _ := h.word _
  exitWhile _ := h.word _
  endProgram _ := h.word _
  stop _ := h.word _

end Hidden

section Seen

variable {see : String → String}

/-- What is seen of the text of pieces. -/
def shown (see : String → String) (o : Options) (pieces : List Piece) : String :=
  see (render o.layout pieces)

/-- What is seen of a text is put together from what is seen of its parts. -/
def Piecewise (see : String → String) : Prop := ∀ a b, see (a ++ b) = see a ++ see b

/-- The same is seen at every level. -/
def SeenAlike (see : String → String) (o : Options) (f g : Printing) : Prop :=
  ∀ level, shown see o (f level) = shown see o (g level)

theorem Piecewise.congruent (h : Piecewise see) : Congruent (SeenAlike see o) where
  nil _ := rfl
  word _ _ := rfl
  line _ := rfl
  append first last level := by
    have first : see _ = see _ := first level
    have last : see _ = see _ := last level
    simp only [shown, render_append, h _ _, first, last]
  indented same level := same (level + 1)

theorem SeenAlike.text {s s' : String} (same : see s = see s') :
    SeenAlike see o (fun _ => [.text s]) fun _ => [.text s'] := by
  intro _
  simpa [shown, Piece.render] using same

theorem Hidden.program (h : Hidden (SeenAlike see o) o w lines) (stmts : List Stmt) :
    shown see o (programPieces o (stmts.map (·.rewrite w))) = shown see o (programPieces o stmts) := by
  cases stmts with
  | nil => rfl
  | cons s rest =>
    have kept : ∀ t ∈ rest, StmtKept (SeenAlike see o) o w t := fun t _ => h.hereditary.stmt t
    have whole := h.append (h.hereditary.stmt s) (h.body kept s.range.stop.line) 0
    rwa [stmtsRewrite_eq, ← h.stop_stmt] at whole

end Seen
end BrightScript.Emit
