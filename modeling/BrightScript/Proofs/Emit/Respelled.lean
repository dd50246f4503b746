import BrightScript.Proofs.Emit.Capture
import BrightScript.Proofs.Emit.Rewrite

/-! Trees in another spelling.
A rewriting that changes the case of letters at most, and where things stand, leaves a conditional
of the same shape that captures the same variables. So a conditional is written as before as far as
can be seen, if its operands are. -/
namespace BrightScript

/-- Letters may change their case, and conditionals stay conditionals. -/
structure Rewriting.Respells (w : Rewriting) : Prop where
  text : ∀ s, (w.text s).toLower = s.toLower
  conditional : ∀ test consequent alternate test' consequent' alternate' r,
    w.conditional test consequent alternate test' consequent' alternate' r =
      .conditional test' consequent' alternate' r

namespace Rewriting.Respells

variable {w : Rewriting}

mutual
theorem shape (h : w.Respells) (e : Expr) : (e.rewrite w).shape = e.shape := by
  match e with
  | .literal _ | .var _ | .function _ => simp only [Expr.rewrite, Expr.shape]
  | .dotted object _ _ => simp only [Expr.rewrite, Expr.shape, h.shape object]
  | .indexed object index _ => simp only [Expr.rewrite, Expr.shape, h.shape object, h.shape index]
  | .call callee args _ => simp only [Expr.rewrite, Expr.shape, h.shape callee, h.exprsShape args]
  | .array elements _ => simp only [Expr.rewrite, Expr.shape, h.exprsShape elements]
  | .assoc members _ => simp only [Expr.rewrite, Expr.shape, h.membersShape members]
  | .binary _ left right _ => simp only [Expr.rewrite, Expr.shape, h.shape left, h.shape right]
  | .unary _ operand _ => simp only [Expr.rewrite, Expr.shape, h.shape operand]
  | .group inner _ => simp only [Expr.rewrite, Expr.shape, h.shape inner]
  | .conditional test consequent alternate _ =>
    simp only [Expr.rewrite, h.conditional, Expr.shape, h.shape test, h.shape consequent,
      h.shape alternate]

theorem exprsShape (h : w.Respells) (es : List Expr) :
    BrightScript.exprsShape (exprsRewrite w es) = BrightScript.exprsShape es := by
  match es with
  | [] => rfl
  | e :: rest => simp only [exprsRewrite, BrightScript.exprsShape, h.shape e, h.exprsShape rest]

theorem membersShape (h : w.Respells) (ms : List (Member Expr)) :
    BrightScript.membersShape (membersRewrite w ms) = BrightScript.membersShape ms := by
  match ms with
  | [] => rfl
  | .property ⟨_, _, value, _⟩ :: rest =>
    simp only [membersRewrite, memberRewrite, BrightScript.membersShape, h.shape value,
      h.membersShape rest]
  | .comment _ :: rest =>
    simp only [membersRewrite, memberRewrite, BrightScript.membersShape, h.membersShape rest]
end

mutual
theorem occurrences (h : w.Respells) (e : Expr) :
    (e.rewrite w).occurrences = e.occurrences.map (Ident.rewrite w) := by
  match e with
  | .literal _ | .var _ | .function _ => simp [Expr.rewrite, Expr.occurrences]
  | .dotted object _ _ => simp [Expr.rewrite, Expr.occurrences, h.occurrences object]
  | .indexed object index _ =>
    simp [Expr.rewrite, Expr.occurrences, h.occurrences object, h.occurrences index]
  | .call callee args _ =>
    have inner := h.occurrences callee
    have first := h.exprsOccurrences args
    cases callee <;> simp_all [Expr.rewrite, Expr.occurrences, h.conditional]
  | .array elements _ => simp [Expr.rewrite, Expr.occurrences, h.exprsOccurrences elements]
  | .assoc members _ => simp [Expr.rewrite, Expr.occurrences, h.membersOccurrences members]
  | .binary _ left right _ =>
    simp [Expr.rewrite, Expr.occurrences, h.occurrences left, h.occurrences right]
  | .unary _ operand _ => simp [Expr.rewrite, Expr.occurrences, h.occurrences operand]
  | .group inner _ => simp [Expr.rewrite, Expr.occurrences, h.occurrences inner]
  | .conditional test consequent alternate _ =>
    simp [Expr.rewrite, h.conditional, Expr.occurrences, h.occurrences test,
      h.occurrences consequent, h.occurrences alternate]

theorem exprsOccurrences (h : w.Respells) (es : List Expr) :
    BrightScript.exprsOccurrences (exprsRewrite w es) =
      (BrightScript.exprsOccurrences es).map (Ident.rewrite w) := by
  match es with
  | [] => rfl
  | e :: rest =>
    simp [exprsRewrite, BrightScript.exprsOccurrences, h.occurrences e, h.exprsOccurrences rest]

theorem membersOccurrences (h : w.Respells) (ms : List (Member Expr)) :
    BrightScript.membersOccurrences (membersRewrite w ms) =
      (BrightScript.membersOccurrences ms).map (Ident.rewrite w) := by
  match ms with
  | [] => rfl
  | .property ⟨_, _, value, _⟩ :: rest =>
    simp [membersRewrite, memberRewrite, BrightScript.membersOccurrences, h.occurrences value,
      h.membersOccurrences rest]
  | .comment _ :: rest =>
    simp [membersRewrite, memberRewrite, BrightScript.membersOccurrences,
      h.membersOccurrences rest]
end

end Rewriting.Respells

namespace Scope

variable {w : Rewriting}

/-- The same variables in the other spelling; the keys are folded already. -/
def rewrite (w : Rewriting) (scope : Scope) : Scope := scope.map fun (key, x) => (key, x.rewrite w)

theorem idents_rewrite (scope : Scope) :
    (scope.rewrite w).idents = scope.idents.map (Ident.rewrite w) := by
  simp [rewrite, idents]

theorem contains_rewrite (h : w.Respells) (scope : Scope) (name : String) :
    (scope.rewrite w).contains (w.text name) = scope.contains name := by
  unfold contains get?
  rw [h.text]
  induction scope with
  | nil => rfl
  | cons entry rest ih =>
    obtain ⟨key, x⟩ := entry
    simp only [rewrite, List.map_cons, List.lookup_cons] at ih ⊢
    split
    · rfl
    · exact ih

theorem insert_rewrite (h : w.Respells) (scope : Scope) (x : Ident) :
    (scope.rewrite w).insert (x.rewrite w) = (scope.insert x).rewrite w := by
  have known : (scope.rewrite w).contains (x.rewrite w).name = scope.contains x.name :=
    contains_rewrite h scope x.name
  have key : (x.rewrite w).name.toLower = x.name.toLower := h.text x.name
  rw [insert, insert, known]
  split
  · rfl
  · simp [rewrite, key]

theorem collect_rewrite (h : w.Respells) (es : List Expr) :
    collect (es.map (Expr.rewrite w)) = (collect es).rewrite w := by
  have steps (xs : List Ident) (scope : Scope) :
      (xs.map (Ident.rewrite w)).foldl insert (scope.rewrite w) =
        (xs.foldl insert scope).rewrite w := by
    induction xs generalizing scope with
    | nil => rfl
    | cons x xs ih => rw [List.map_cons, List.foldl_cons, insert_rewrite h, ih, List.foldl_cons]
  rw [collect, ← exprsRewrite_eq, exprsCaptures_eq_foldl, h.exprsOccurrences, collect,
    exprsCaptures_eq_foldl]
  exact steps _ []

end Scope

namespace Emit

variable {R : Printing → Printing → Prop} {o : Options} {w : Rewriting} {lines : Nat}

namespace Unseen

theorem scope (h : Unseen R w lines) (scope : Scope) :
    R (scopePieces · (scope.rewrite w)) (scopePieces · scope) := by
  have entry (x : Ident) :
      R (fun level => [.line level, .text (Emit.quote (x.rewrite w).name), .text ": ",
          .text (x.rewrite w).name])
        fun level => [.line level, .text (Emit.quote x.name), .text ": ", .text x.name] :=
    h.append h.line (h.append (h.quote x.name) (h.append (h.word _) (h.text x.name)))
  have empty : (scope.rewrite w).isEmpty = scope.isEmpty := List.isEmpty_map
  simp only [scopePieces, empty, Scope.idents_rewrite, List.flatMap_map]
  split
  · exact h.words [_, _]
  · exact h.append (h.append (h.word _) (h.indented (h.flatMap entry _))) (h.lineOf _)

theorem rebind (h : Unseen R w lines) (respells : w.Respells) (scope : Scope) (branch : Expr) :
    R (rebindPieces · (scope.rewrite w) (branch.rewrite w)) (rebindPieces · scope branch) := by
  have bind (x : Ident) :
      R (fun level => [.line level, .text (x.rewrite w).name, .text " = scope.",
          .text (x.rewrite w).name])
        fun level => [.line level, .text x.name, .text " = scope.", .text x.name] :=
    h.append h.line (h.append (h.text x.name) (h.append (h.word _) (h.text x.name)))
  have read (x : Ident) : (Scope.collect [branch.rewrite w]).contains (x.rewrite w).name =
      (Scope.collect [branch]).contains x.name := by
    have same := Scope.collect_rewrite respells [branch]
    rw [List.map_cons, List.map_nil] at same
    rw [same]
    exact Scope.contains_rewrite respells _ x.name
  simp only [rebindPieces, Scope.idents_rewrite, List.filter_map, List.flatMap_map,
    Function.comp_def, read]
  exact h.flatMap bind _

theorem branch (h : Unseen R w lines) {rebind rebind' value value' : Printing}
    (same : R rebind rebind') (kept : R value value') :
    R (fun level => branchPieces level (rebind (level + 1)) (value (level + 1)))
      fun level => branchPieces level (rebind' (level + 1)) (value' (level + 1)) :=
  h.append (h.append (h.append (h.append (h.word _) (h.indented same)) (h.indented (h.lineOf _)))
    (h.indented kept)) (h.lineOf _)

/-- Another spelling that does not show at the leaves does not show at all. -/
theorem hidden (h : Unseen R w lines) (respells : w.Respells) : Hidden R o w lines where
  toUnseen := h
  placed _ _ _ _ _ _ _ := by rw [respells.conditional]; rfl
  unsigned _ _ _ _ _ _ _ := by rw [respells.conditional]; rfl
  conditional test consequent alternate range kept kept' kept'' := by
    have plain : isPlain o (test.rewrite w) (consequent.rewrite w) (alternate.rewrite w) =
        isPlain o test consequent alternate := by
      simp only [isPlain, respells.shape]
    have scope := Scope.collect_rewrite respells [test, consequent, alternate]
    have comma := h.word ", "
    have head (name : String) := h.append (h.append (h.words [o.stem, name]) kept) comma
    simp only [List.map_cons, List.map_nil] at scope
    simp only [ExprKept, Expr.rewrite, respells.conditional, exprPieces, plain, scope]
    generalize Scope.collect [test, consequent, alternate] = names
    split
    · exact h.append (h.append (h.append (h.append (head "simpleTernary(") kept') comma) kept'')
        (h.word ")")
    · have front := h.append (h.append (head "scopeSafeTernary(") (h.scope names)) comma
      have first := h.branch (h.rebind respells names consequent) kept'
      have last := h.branch (h.rebind respells names alternate) kept''
      exact h.append (h.append (h.append (h.append front first) comma) last) (h.word ")")

end Unseen
end Emit
end BrightScript
