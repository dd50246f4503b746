import BrightScript.Proofs.Emit.Respelled
import BrightScript.Proofs.Parser.Shift

/-! The text of a tree further down.
The printer only asks whether two places are on the same line, so a tree and the same tree further
down have one text. -/
namespace BrightScript.Emit

variable (o : Options) (lines : Nat)

theorem hidden_down : Hidden (SeenAlike id o) o (.down lines) lines :=
  Unseen.hidden ⟨Piecewise.congruent fun _ _ => rfl, fun _ _ => rfl, fun _ _ => rfl, fun _ _ => rfl,
    fun _ => rfl, fun _ => rfl⟩ ⟨fun _ => rfl, fun _ _ _ _ _ _ _ => rfl⟩

theorem render_stmt_shift (level : Nat) (s : Stmt) :
    render o.layout (stmtPieces o level (s.shift lines)) =
      render o.layout (stmtPieces o level s) :=
  (hidden_down o lines).hereditary.stmt s level

theorem render_body_shift (level line : Nat) (stmts : List Stmt) :
    render o.layout (bodyPieces o level (line + lines) (stmts.map (·.shift lines))) =
      render o.layout (bodyPieces o level line stmts) := by
  have kept (s : Stmt) (_ : s ∈ stmts) := (hidden_down o lines).hereditary.stmt s
  have same := (hidden_down o lines).body kept line level
  rwa [stmtsRewrite_eq] at same

theorem render_program_shift (stmts : List Stmt) :
    render o.layout (programPieces o (stmts.map (·.shift lines))) =
      render o.layout (programPieces o stmts) :=
  (hidden_down o lines).program stmts

end BrightScript.Emit
