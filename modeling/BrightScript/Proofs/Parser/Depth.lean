import BrightScript.Proofs.Parser.ParallelRoutines

/-! The recursion of the grammar ends.
Every way back into the grammar passes a check of the nesting, so routines that are unrolled as
often as nesting is allowed, and once more, never get to where the unrolling stops. What stands
there does not matter. -/
namespace BrightScript

def Likeness.self : Likeness Diagnostic where
  text := id
  range := id
  range' := id
  report := id
  report' := id
  folded := @folded_id
  joined := @joined_id
  trimmed := @trimmed_id
  union := @union_id
  empty := @empty_id
  reported := by
    rintro p p' r _ notice args rfl
    simp only [List.map_id] at args
    simp only [Diagnostic.of, Diagnostic.ofNotice, notice, args, id]

theorem Token.rewrite_self (t : Token) : t.rewrite {} = t := by
  obtain ⟨kind, text, range, value⟩ := t
  rcases value with _ | (_ | _) <;> rfl

namespace Parser

theorem State.Alike.eq {m : Nat} {s s' : State} (h : s.Alike .self m s') : s = s' := by
  have tokens : s.rest.items.map (·.rewrite {}) = s'.rest.items.map (·.rewrite {}) := h.tokens
  rw [map_of_kept fun t _ => t.rewrite_self, map_of_kept fun t _ => t.rewrite_self] at tokens
  have rest : s.rest = s'.rest := Input.eq_of_items tokens
  have finish : s.finish = s'.finish := congrArg Range.start h.finish
  have reports : s.diagnostics.map id = s'.diagnostics.map id := h.diagnostics
  rw [List.map_id, List.map_id] at reports
  obtain ⟨mode, -, -, -, -, nesting, functions, discard, -, -⟩ := h
  cases s
  cases s'
  simp_all

/-- What stands where the unrolling stops does not show. -/
theorem run_unrollFrom (bottom : Grammar) (closers : List Kind) {s : State}
    (within : s.nesting ≤ maxNesting) :
    (statements (unrollFrom bottom (maxNesting + 1)) closers).run s =
      (statements grammar closers).run s := by
  have like : s.Alike .self 0 s := ⟨rfl, rfl, rfl, rfl, rfl, rfl, rfl, rfl, Nat.zero_le _, within⟩
  rw [grammar, unroll_eq]
  obtain ⟨t, t', like, hp, hq⟩ | ⟨a, b, t, t', same, like, hp, hq⟩ :=
    Parallel.statements (Parallel.unrolled bottom _ (m := 0) (Nat.le_refl _)) closers s s like
  · rw [hp, hq, like.eq]
  · have same : a.map (·.rewrite {}) = b.map (·.rewrite {}) := same
    rw [stmts_rewrite_self, stmts_rewrite_self] at same
    rw [hp, hq, like.eq, same]

end Parser
end BrightScript
