import BrightScript.Proofs.Emit.Shift
import BrightScript.Proofs.Emit.Visible
import BrightScript.Proofs.Parser.Bounds
import BrightScript.Proofs.Parser.Compose

/-! Texts of programs, one below the other.
What is written for two texts with a line break between them is what is written for the one and
then for the other. A comment goes on with the line before it only where it stood on that line, and
the statements of the second text all start on later lines. -/
namespace BrightScript

namespace Emit

variable (o : Options)

theorem bodyPieces_append (level line : Nat) (first second : List Stmt) :
    bodyPieces o level line (first ++ second) =
      bodyPieces o level line first ++
        bodyPieces o level ((first.getLast?.map (·.range.stop.line)).getD line) second := by
  induction first generalizing line with
  | nil => rfl
  | cons s rest ih =>
    have last : ((s :: rest).getLast?.map (·.range.stop.line)).getD line =
        (rest.getLast?.map (·.range.stop.line)).getD s.range.stop.line := by
      rw [List.getLast?_cons]
      cases rest.getLast? <;> rfl
    simp only [List.cons_append, bodyPieces, ih, last, List.append_assoc]

theorem render_body_below {level line lines : Nat} (later : line < lines) (s : Stmt)
    (rest : List Stmt) :
    render o.layout (bodyPieces o level line ((s :: rest).map (·.shift lines))) =
      (Piece.line level).render o.layout ++ render o.layout (stmtPieces o level s) ++
        render o.layout (bodyPieces o level s.range.stop.line rest) := by
  have below : lead level line (s.shift lines) = [.line level] := by
    cases s with
    | comment c =>
      have other : ¬ c.range.start.line + lines = line := by omega
      exact if_neg other
    | _ => rfl
  have stop : (s.shift lines).range.stop.line = s.range.stop.line + lines := by
    rw [Stmt.range_shift]
    rfl
  rw [List.map_cons, bodyPieces, below, stop]
  simp only [render_append, render_cons, render_nil, String.append_empty, render_stmt_shift,
    render_body_shift]

theorem render_program_append {lines : Nat} {first second : List Stmt} (some : first ≠ [])
    (some' : second ≠ []) (above : ∀ s ∈ first, s.range.stop.line < lines) :
    render o.layout (programPieces o (first ++ second.map (·.shift lines))) =
      render o.layout (programPieces o first) ++ (Piece.line 0).render o.layout ++
        render o.layout (programPieces o second) := by
  obtain ⟨s, rest, rfl⟩ := List.exists_cons_of_ne_nil some
  obtain ⟨s', rest', rfl⟩ := List.exists_cons_of_ne_nil some'
  have later : (rest.getLast?.map (·.range.stop.line)).getD s.range.stop.line < lines := by
    cases last : rest.getLast? with
    | none => exact above s List.mem_cons_self
    | some t => exact above t (List.mem_cons_of_mem _ (List.mem_of_getLast? last))
  rw [List.cons_append, programPieces, bodyPieces_append]
  simp only [programPieces, render_append, render_body_below o later, String.append_assoc]

theorem render_programPieces_ne_empty {o : Options} (feed : o.layout.newline ≠ "")
    {stmts : List Stmt} (some : stmts ≠ []) (visible : ∀ s ∈ stmts, s.Visible) :
    render o.layout (programPieces o stmts) ≠ "" := by
  obtain ⟨s, rest, rfl⟩ := List.exists_cons_of_ne_nil some
  have text : render o.layout (stmtPieces o 0 s) ≠ "" :=
    render_stmtPieces_ne_empty feed (visible s List.mem_cons_self)
  simp [programPieces, text]

end Emit

theorem emit_of_visible {stmts : List Stmt} (some : stmts ≠ []) (visible : ∀ s ∈ stmts, s.Visible) :
    emit {} stmts = Emit.render {} (Emit.programPieces {} stmts) ++ "\n" := by
  have text : Emit.render {} (Emit.programPieces {} stmts) ≠ "" :=
    Emit.render_programPieces_ne_empty (o := {}) (by decide) some visible
  simp [emit, text]

theorem emit_append {lines : Nat} {first second : List Stmt}
    (visible : ∀ s ∈ first, s.Visible) (visible' : ∀ s ∈ second, s.Visible)
    (above : ∀ s ∈ first, s.range.stop.line < lines) :
    emit {} (first ++ second.map (·.shift lines)) = emit {} first ++ emit {} second := by
  have shifted : emit {} (second.map (·.shift lines)) = emit {} second := by
    rw [emit, Emit.render_program_shift, ← emit]
  by_cases none : first = []
  · rw [none, List.nil_append, shifted]
    rfl
  by_cases none' : second = []
  · rw [none', List.map_nil, List.append_nil]
    exact (String.append_empty).symm
  rw [emit_of_visible none visible, emit_of_visible none' visible', emit,
    Emit.render_program_append {} none none' above]
  simp [String.append_assoc, Emit.Piece.render, Emit.indentation]

/-- Reading and writing a program are compositional over its lines: behind a text that is read
without a report, another one that does not begin with a comment is read as it is for itself, only
further down. -/
theorem parse_append_line (mode : Mode) (a b : String)
    (quiet : (parse mode (scan a).tokens).diagnostics = [])
    (code : ∀ t, (scan b).tokens.head? = some t → t.kind ≠ .comment) :
    let lines := a.toList.count '\n' + 1
    let first := parse mode (scan a).tokens
    let second := parse mode (scan b).tokens
    let both := parse mode (scan (a ++ "\n" ++ b)).tokens
    both.statements = first.statements ++ second.statements.map (·.shift lines) ∧
      both.diagnostics = second.diagnostics.map (·.shift lines) ∧
      emit {} both.statements = emit {} first.statements ++ emit {} second.statements := by
  intro lines first second both
  let line : Token := ⟨.newline, "\n", ⟨.endOf a.toList, ⟨lines, 0⟩⟩, none⟩
  obtain ⟨front, tokens, inner⟩ := scan_endOfFile a
  obtain ⟨t, rest, more⟩ : ∃ t rest, (scan b).tokens = t :: rest := by
    obtain ⟨front, tokens, _⟩ := scan_endOfFile b
    exact List.exists_cons_of_ne_nil (by simp [tokens])
  have open_ : (scan b).tokens.map (·.shift lines) ≠ [] := by simp [more]
  have below : parse mode ((scan b).tokens.map (·.shift lines)) =
      ⟨second.statements.map (·.shift lines), second.diagnostics.map (·.shift lines)⟩ := by
    rw [more, parse_shift, ← more]
  have apart : both = parse mode (front ++ line :: (scan b).tokens.map (·.shift lines)) := by
    simp only [both, scan_line, tokens, List.dropLast_concat, lines, line]
  have code : ∀ u, ((scan b).tokens.map (·.shift lines)).head? = some u → u.kind ≠ .comment := by
    rw [more]
    rintro _ ⟨⟩
    exact code t (by rw [more]; rfl)
  have ordered := ordered_scan a
  rw [tokens] at ordered quiet
  obtain ⟨above, parsed⟩ :=
    parse_line ordered rfl (rfl : line.kind = .newline) inner open_ code quiet
  rw [← apart, below, ← tokens] at parsed
  rw [← tokens] at above
  refine ⟨by rw [parsed], by rw [parsed], ?_⟩
  rw [parsed]
  refine emit_append (visible_parse mode a) (visible_parse mode b) fun stmt mem => ?_
  rcases Position.le_def.mp (above stmt mem) with less | ⟨same, _⟩
  · exact Nat.lt_succ_of_lt less
  · exact Nat.lt_succ_of_le same.le

/-- The comment at the end of the first text stays on its line; the second text has a report. -/
theorem parse_append_line_comment :
    let a := "sub f()\nx = a ? b() : 1 ' one\nend sub ' two"
    let b := "\n' three\ny = = 1\nprint 2"
    let second := parse .brighterScript (scan b).tokens
    let both := parse .brighterScript (scan (a ++ "\n" ++ b)).tokens
    second.diagnostics.map (·.range.start.line) = [2] ∧
      both.diagnostics.map (·.range.start.line) = [5] ∧
      emit {} both.statements =
        emit {} (parse .brighterScript (scan a).tokens).statements ++ "' three\nprint 2\n" := by
  intro a b second both
  obtain ⟨_, diagnostics, text⟩ :=
    parse_append_line .brighterScript a b (by decide +kernel) (by decide +kernel)
  refine ⟨by decide +kernel, ?_, ?_⟩
  · rw [show both.diagnostics = _ from diagnostics]
    decide +kernel
  · rw [show emit {} both.statements = _ from text]
    have alone : emit {} second.statements = "' three\nprint 2\n" := by decide +kernel
    rw [alone]

end BrightScript
