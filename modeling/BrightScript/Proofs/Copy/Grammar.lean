import BrightScript.Proofs.Copy.Branch
import BrightScript.Proofs.Copy.Conditional

/-! Copies of whatever the grammar reads.
A statement is copied by the form it has, and since every way back into the grammar goes one
level further in, the copies of the inner levels are there when the outer ones are made. -/
namespace BrightScript

open BrightScript.Parser BrightScript.Emit

variable {c : Setting} {g : Grammar}

theorem byKeyword_copied (h : Recovers c g) {st : Stmt} {s s' : State}
    (run : Reads (byKeyword g s.kind) s st s')
    (other : s.kind.isWord = true → (s.drop 1).kind.isAssignment = false) (sound : Sound c s) :
    WholeCopied c st s s' := by
  by_cases operand : s.kind.leadsOperand = true
  · rw [byKeyword_operand operand] at run
    exact expressionStatement_copied h run operand other sound
  generalize kind : s.kind = k at run operand
  unfold byKeyword at run
  split at run
  · exact ifStatement_copied h kind run sound
  · exact whileStatement_copied h run sound
  · exact forStatement_copied h run sound
  · exact functionDeclaration_copied h run sound
  · exact functionDeclaration_copied h run sound
  · exact returnStatement_copied h run sound
  · exact printStatement_copied h run sound
  · exact printStatement_copied h run sound
  · exact gotoStatement_copied run sound
  · exact keywordStatement_copied (k := .exitFor) run rfl (fun _ => rfl) (fun _ _ _ => rfl)
      (fun _ _ _ => rfl) (fun _ => rfl) fun _ => rfl
  · exact keywordStatement_copied (k := .exitWhile) run rfl (fun _ => rfl) (fun _ _ _ => rfl)
      (fun _ _ _ => rfl) (fun _ => rfl) fun _ => rfl
  · exact keywordStatement_copied (k := .end_) run rfl (fun _ => rfl) (fun _ _ _ => rfl)
      (fun _ _ _ => rfl) (fun _ => rfl) fun _ => rfl
  · exact keywordStatement_copied (k := .stop) run rfl (fun _ => rfl) (fun _ _ _ => rfl)
      (fun _ _ _ => rfl) (fun _ => rfl) fun _ => rfl
  · have question : k ≠ .questionMark := by assumption
    have refused : (k.isKeyword && !startsExpression k) = true := by
      simpa [Kind.leadsOperand, question] using operand
    rw [if_pos refused] at run
    exact absurd run not_reads_refusePast

theorem statementBody_copied (h : Recovers c g) {st : Stmt} {s s' : State}
    (run : Reads (statementBody g) s st s') (sound : Sound c s) :
    WholeCopied c st s s' := by
  rcases run.statementBody_inv with ⟨_, assigns, run⟩ | ⟨label, run⟩ | ⟨other, run⟩
  · exact assignment_copied h run assigns sound
  · exact labelStatement_copied run label sound
  · exact byKeyword_copied h run other sound

theorem statement_copied (h : Recovers c g) {st : Stmt} {s s' : State}
    (run : Reads (statement g) s st s') (sound : Sound c s) :
    StmtCopied c (fun m => (unroll m).statement) (deeper (st.fits c.options)) st s s' := by
  obtain ⟨shallow, t, inner, rfl⟩ := run.statement_inv
  have copy := statementBody_copied h inner (sound.atNesting _).withDiscard
  refine ⟨copy.code, fun exact => ?_, fun level room fits => ?_⟩
  · have room : maxNesting - s.nesting = maxNesting - (s.nesting + 1) + 1 := by omega
    rw [room]
    exact copy.fits exact
  · obtain ⟨room, rfl, fits⟩ := deeper_eq_true.mp fits
    obtain ⟨ws, spelled, yields⟩ := copy.written level room fits
    refine ⟨ws, ⟨spelled.phrase, spelled.opens, spelled.ifs, spelled.code⟩, fun m w le ends => ?_⟩
    obtain ⟨m, rfl⟩ : ∃ n, m = n + 1 := ⟨m - 1, by omega⟩
    exact Yields.nested (Yields.droppable (yields m w (by omega) ends))

theorem recovers_unroll (c : Setting) (n : Nat) : Recovers c (unroll n) := by
  induction n with
  | zero =>
    refine ⟨fun _ run => ?_, fun _ run => ?_, fun _ run => ?_, fun run => ?_, fun run => ?_,
      fun _ _ run => ?_⟩ <;> exact absurd run not_reads_tooDeep
  | succ n ih =>
    exact ⟨fun sound run => expression_copied ih run sound,
      fun sound run => operand_copied ih run sound,
      fun sound run => statement_copied ih run sound, fun run => operand_ends ih run,
      fun run => expression_ends ih run, fun exact sound run => expression_plain ih exact run sound⟩

end BrightScript
