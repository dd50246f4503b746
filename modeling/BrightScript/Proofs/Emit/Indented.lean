import BrightScript.Proofs.Emit.Page
import BrightScript.Proofs.Emit.Respelled

/-! Indentation.
A node leaves the level of its page as it finds it and only adds to the text. Further in it adds the
same text with more indents after the line breaks. -/
namespace BrightScript.Emit

/-- The text of pieces, with so many further indents right after each line break. -/
def inset (l : Layout) (more : Nat) : List Piece → String
  | [] => ""
  | .text s :: rest => s ++ inset l more rest
  | .line level :: rest => l.newline ++ indentation l more ++ indentation l level ++ inset l more rest

theorem inset_append (l : Layout) (more : Nat) (first last : List Piece) :
    inset l more (first ++ last) = inset l more first ++ inset l more last := by
  induction first with
  | nil => simp [inset]
  | cons p rest ih => cases p <;> simp [inset, ih, String.append_assoc]

theorem indentation_add (l : Layout) (level more : Nat) :
    indentation l (level + more) = indentation l more ++ indentation l level := by
  induction more with
  | zero => simp [indentation]
  | succ more ih => rw [← Nat.add_assoc, indentation, indentation, ih, String.append_assoc]

def Shifts (l : Layout) (print : Printing) : Prop :=
  ∀ level more, render l (print (level + more)) = inset l more (print level)

/- Nothing is asked here of the printing on the left. -/
theorem congruent_shifts (l : Layout) : Congruent fun _ => Shifts l where
  nil _ _ := rfl
  word s _ _ := by simp [inset, Piece.render]
  line level more := by simp [inset, Piece.render, indentation_add, String.append_assoc]
  append first last level more := by rw [render_append, first, last, inset_append]
  indented inner level more := by
    have inside := inner (level + 1) more
    rwa [Nat.add_right_comm] at inside

theorem hidden_shifts (o : Options) : Hidden (fun _ => Shifts o.layout) o {} 0 :=
  have pieces := congruent_shifts o.layout
  Unseen.hidden ⟨pieces, pieces.word, fun _ => pieces.word _, pieces.comment, fun _ => rfl,
    fun _ => rfl⟩ ⟨fun _ => rfl, fun _ _ _ _ _ _ _ => rfl⟩

theorem Prints.inset {o : Options} {act : Page → Page} {print : Printing} (h : Prints o act print)
    (shifts : Shifts o.layout print) (page : Page) :
    act page = ⟨page.text ++ inset o.layout page.level (print 0), page.level⟩ := by
  rw [h page, ← shifts 0 page.level, Nat.zero_add]

/-- Indentation is uniform. On any page a node adds the pieces that are printed at the level of the
page, which is the text of those at the margin with an indent for each level after every line break,
and it leaves the level as it was; and a program is what is written so on a clean page. -/
theorem print_uniform (o : Options) :
    (∀ (e : Expr) (page : Page),
      page.expr o e = ⟨page.text ++ render o.layout (exprPieces o page.level e), page.level⟩ ∧
      page.expr o e = ⟨page.text ++ inset o.layout page.level (exprPieces o 0 e), page.level⟩) ∧
    (∀ (s : Stmt) (page : Page),
      page.stmt o s = ⟨page.text ++ render o.layout (stmtPieces o page.level s), page.level⟩ ∧
      page.stmt o s = ⟨page.text ++ inset o.layout page.level (stmtPieces o 0 s), page.level⟩) ∧
    (∀ e : Expr, emitExpr o e = (Page.expr o ⟨"", 0⟩ e).text) ∧
    ∀ stmts : List Stmt, emit o stmts = ((Page.program o stmts).finish o).text := by
  have shifts := (hidden_shifts o).hereditary
  refine ⟨fun e page => ⟨prints_expr o e page, (prints_expr o e).inset (shifts.expr e) page⟩,
    fun s page => ⟨prints_stmt o s page, (prints_stmt o s).inset (shifts.stmt s) page⟩,
    fun e => ?_, emit_eq_page o⟩
  have clean := congrArg Page.text (prints_expr o e ⟨"", 0⟩)
  simpa [emitExpr] using clean.symm

end BrightScript.Emit
