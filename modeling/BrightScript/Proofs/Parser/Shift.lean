import BrightScript.Proofs.Parser.ParallelRoutines
import BrightScript.Proofs.Token.Line

/-! Parsing further down.
A parser compares places but does not look where they are, so the tokens of a text that stands
further down are read to the same tree further down, with the same reports further down. -/
namespace BrightScript

section

variable (lines : Nat)

def Rewriting.down : Rewriting := { range := Range.shift lines }

/-- The statement that the same text has with so many more lines before it. -/
def Stmt.shift (s : Stmt) : Stmt := s.rewrite (.down lines)

theorem Stmt.range_shift (s : Stmt) : (s.shift lines).range = s.range.shift lines :=
  Stmt.range_rewrite (fun _ _ _ _ _ _ _ => rfl) s

theorem Position.shift_le (a b : Position) : a.shift lines ≤ b.shift lines ↔ a ≤ b := by
  change a.line + lines < b.line + lines ∨ _ ↔ a.line < b.line ∨ _
  simp [shift]

theorem Range.union_shift (a b : Range) :
    (a.shift lines).union (b.shift lines) = (a.union b).shift lines := by
  simp only [union, shift, Position.earlier, Position.later, Position.shift_le]
  split <;> split <;> rfl

/-- A text and the same text further down. -/
def Likeness.down : Likeness Diagnostic where
  text := id
  range := Range.shift lines
  range' := id
  report := Diagnostic.shift lines
  report' := id
  folded := @folded_id
  joined := @joined_id
  trimmed := @trimmed_id
  union := by rintro a _ b _ rfl rfl; exact (Range.union_shift lines a b).symm
  empty := by rintro _ _ rfl; rfl
  reported := by
    rintro p p' r _ notice args rfl
    simp only [List.map_id] at args
    simp only [Diagnostic.of, Diagnostic.ofNotice, Diagnostic.shift, notice, args, id]

namespace Parser

/- Tokens that are changed in nothing that tells which comments stand below each other. -/
variable {lines} {f : Token → Token} (kind : ∀ t, (f t).kind = t.kind)
  (range : ∀ t, (f t).range = t.range.shift lines)

include kind range

theorem followingComments_map (place : Range) (tokens : List Token) :
    followingComments (place.shift lines) (tokens.map f) =
      (followingComments place tokens).map f := by
  have follows (place : Range) (n t : Token) :
      ((f n).kind = .newline && (f t).kind = .comment &&
          (f t).range.start.line = (place.shift lines).stop.line + 1) =
        (n.kind = .newline && t.kind = .comment && t.range.start.line = place.stop.line + 1) := by
    rw [kind, kind, range]
    refine congrArg (n.kind = .newline && t.kind = .comment && ·) (decide_eq_decide.mpr ?_)
    simp only [Range.shift, Position.shift]
    omega
  induction place, tokens using followingComments.induct with
  | case1 place n t rest here ih =>
    rw [List.map_cons, List.map_cons, followingComments, followingComments, follows, if_pos here,
      if_pos here, List.map_cons, ← ih, ← Range.union_shift, range]
  | case2 place n t rest other =>
    rw [List.map_cons, List.map_cons, followingComments, followingComments, follows, if_neg other,
      if_neg other, List.map_nil]
  | case3 tokens place short =>
    rcases tokens with _ | ⟨n, _ | ⟨t, rest⟩⟩
    iterate 2 rfl
    exact absurd rfl (short n t rest)

theorem commentRuns_map (tokens : List Token) :
    commentRuns (tokens.map f) = commentRuns tokens := by
  induction tokens with
  | nil => rfl
  | cons t rest ih =>
    rw [List.map_cons, commentRuns, commentRuns, ih, kind, range, followingComments_map kind range,
      List.length_map]

end Parser

end

/-- A token list that stands further down has the same tree and the same reports further down. -/
theorem parse_shift (lines : Nat) (mode : Mode) (t : Token) (tokens : List Token) :
    parse mode ((t :: tokens).map (·.shift lines)) =
      ⟨(parse mode (t :: tokens)).statements.map (·.shift lines),
        (parse mode (t :: tokens)).diagnostics.map (·.shift lines)⟩ := by
  have start : (Parser.State.start mode (t :: tokens)).Alike (.down lines) 0
      (Parser.State.start mode ((t :: tokens).map (·.shift lines))) := by
    have runs := Parser.commentRuns_map (f := (·.shift lines)) (fun _ => rfl) (fun _ => rfl)
      (t :: tokens)
    refine ⟨rfl, ?_, ?_, runs.symm, rfl, rfl, rfl, rfl, Nat.zero_le _, Nat.zero_le _⟩
    · simp only [Parser.State.start, List.getLast?_map]
      cases last : (t :: tokens).getLast? with
      | none => simp at last
      | some l => rfl
    · change (t :: tokens).map _ = ((t :: tokens).map _).map _
      rw [List.map_map]
      rfl
  obtain ⟨trees, reports⟩ := parse_of_alike start
  have trees : (parse mode (t :: tokens)).statements.map (·.shift lines) =
      (parse mode ((t :: tokens).map (·.shift lines))).statements.map (·.rewrite {}) := trees
  rw [stmts_rewrite_self] at trees
  have reports : (parse mode (t :: tokens)).diagnostics.map (·.shift lines) =
      (parse mode ((t :: tokens).map (·.shift lines))).diagnostics.map id := reports
  rw [List.map_id] at reports
  rw [trees, reports]

end BrightScript
