import BrightScript.Proofs.Parser.InOrder
import BrightScript.Proofs.Parser.Confinement
import BrightScript.Proofs.Parser.Mirrored
import BrightScript.Proofs.Parser.Shift

/-! Two texts, one below the other.
The outermost list of statements ends at the end of the file. With a line break there instead it
goes on with the tokens behind it, in the state in which it would start with them. -/
namespace BrightScript
namespace Parser

variable {α : Type}

theorem run_many_some {round : Parser (Option (List α))} {s t : State} {first : List α}
    (run : round.run s = (some (some first), t)) (less : t.rest.size < s.rest.size) :
    (many round).run s = (((many round).run t).1.map (first ++ ·), ((many round).run t).2) := by
  have rest := run_loop_manyRound round (first.reverse ++ []) t
  rw [List.append_nil, List.reverse_reverse] at rest
  rw [many, run_loop_again (run_manyRound_some run) less, List.append_nil, rest]
  rfl

namespace Seam

variable (j : Seam)

def beyond (s : State) : State := s.upTo [] j.more j.finish'

theorem run_statementRound_line (g : Grammar) (s : State) :
    (statementRound g []).run (j.across s []) = (some (some []), j.beyond s) := by
  have kind : (j.across s []).kind = .newline := j.kind_across_nil s
  have taken : (j.across s []).drop 1 = j.beyond s := by
    have rest : (Input.ofList (j.line :: j.more)).drop 1 = .ofList j.more := Input.eq_of_items rfl
    simp only [across, beyond, State.upTo, State.drop, List.nil_append, rest]
  refine run_bind_eq_some.mpr ⟨.newline, j.across s [], congrArg (some ·, _) kind, ?_⟩
  exact run_bind_eq_some.mpr ⟨(), j.beyond s, congrArg (some (), ·) taken, rfl⟩

theorem beyond_of_reads {p : Parser α} {s s' : State} {u : List Token} {a : α}
    (read : Reads p (j.before s u) a s') : j.beyond s' = j.beyond s := by
  have advances := read.advances
  have mode : s'.mode = s.mode := advances.mode
  have diagnostics : s'.diagnostics = s.diagnostics := read.2
  have nesting : s'.nesting = s.nesting := advances.nesting
  have functions : s'.functions = s.functions := advances.functions
  have discard : s'.discard = s.discard := read.discard_eq
  simp only [beyond, State.upTo, mode, diagnostics, nesting, functions, discard]

variable {g : Grammar} {s s' : State} {u : List Token}

theorem eq_nil_of_reads_none (outside : s.functions = 0) (unmarked : s.discard = false)
    (inner : ∀ t ∈ u, t.kind ≠ .endOfFile)
    (last : Reads (statementRound g []) (j.before s u) none s') : u = [] ∧ s' = j.before s [] := by
  have open_ : (j.before s u).closes [] = false := by
    have level : (j.before s u).functions = 0 := outside
    simp [State.closes, level]
  obtain ⟨file, rfl⟩ : (j.before s u).kind = .endOfFile ∧ s' = j.before s u := by
    obtain ⟨_, ⟨⟩, _⟩ | ⟨file, _, same⟩ | ⟨_, _, ⟨⟩, _⟩ |
      ⟨_, _, _, _, ⟨closes, _⟩ | ⟨_, _, _, _, ⟨⟩, _⟩⟩ :=
        last.statementRound_inv (s := j.before s u) unmarked
    · exact ⟨file, same⟩
    · rw [open_] at closes
      cases closes
  cases u with
  | nil => exact ⟨rfl, rfl⟩
  | cons t u => exact absurd file (inner t List.mem_cons_self)

theorem ne_nil_of_reads_some {first : List Stmt} (unmarked : s.discard = false)
    (head : Reads (statementRound g []) (j.before s u) (some first) s') : u ≠ [] := by
  rintro rfl
  have file := j.kind_before_nil s
  obtain ⟨line | colon, _⟩ | ⟨_, ⟨⟩, _⟩ | ⟨comment, _⟩ | ⟨_, _, code, _⟩ :=
    head.statementRound_inv (s := j.before s []) unmarked
  · rw [file] at line
    cases line
  · rw [file] at colon
    cases colon
  · rw [file] at comment
    cases comment
  · exact code file

/-- A list that is read up to the end of the file, which is left there, is the beginning of the list
that goes on behind the line break. -/
theorem run_statements (h : ContinuesGrammar j g) {all : List Stmt} (outside : s.functions = 0)
    (unmarked : s.discard = false) (inner : ∀ t ∈ u, t.kind ≠ .endOfFile)
    (read : Reads (statements g []) (j.before s u) all s') :
    s' = j.before s' [] ∧
      (statements g []).run (j.across s u) =
        (((statements g []).run (j.beyond s)).1.map (all ++ ·),
          ((statements g []).run (j.beyond s)).2) := by
  refine Reads.many_induction (motive := fun all t => ∀ s u, s.functions = 0 → s.discard = false →
      (∀ t ∈ u, t.kind ≠ .endOfFile) → t = j.before s u → s' = j.before s' [] ∧
      (statements g []).run (j.across s u) =
        (((statements g []).run (j.beyond s)).1.map (all ++ ·),
          ((statements g []).run (j.beyond s)).2))
    ?_ ?_ read s u outside unmarked inner rfl
  · rintro _ last s u outside unmarked inner rfl
    obtain ⟨rfl, rfl⟩ := j.eq_nil_of_reads_none outside unmarked inner last
    refine ⟨rfl, run_many_some (j.run_statementRound_line g s) ?_⟩
    rw [j.size_across, beyond, State.size_upTo]
    exact Nat.lt_succ_self _
  · rintro _ first t more head less _ ih s u outside unmarked inner rfl
    have mirrors : Mirrors j false (statementRound g []) u :=
      mirrors_statementRound h [] (j.ne_nil_of_reads_some unmarked head)
    obtain ⟨v, suffix, left, ⟨⟨⟩, _⟩ | same⟩ := mirrors s _ t unmarked head
    have fewer : (j.across t v).rest.size < (j.across s u).rest.size := by
      rw [left, j.size_before, j.size_before] at less
      rw [j.size_across, j.size_across]
      omega
    obtain ⟨file, rest⟩ := ih t v (head.advances.functions.trans outside)
      (head.discard_eq.trans unmarked) (fun t mem => inner t (suffix.subset mem)) left
    refine ⟨file, ?_⟩
    rw [statements, run_many_some same.1 fewer]
    rw [statements, j.beyond_of_reads head] at rest
    rw [rest]
    simp [Function.comp_def]

end Seam
end Parser

/-- The statements of two token lists with a line break between them, where the first is read without
a report, are those of the first, which stop before the end of its file, and then those of the
second. -/
theorem parse_line {mode : Mode} {front more : List Token} {file line : Token}
    (ordered : Ordered (front ++ [file])) (file_kind : file.kind = .endOfFile)
    (line_kind : line.kind = .newline) (inner : ∀ t ∈ front, t.kind ≠ .endOfFile)
    (open_ : more ≠ []) (code : ∀ t, more.head? = some t → t.kind ≠ .comment)
    (quiet : (parse mode (front ++ [file])).diagnostics = []) :
    (∀ stmt ∈ (parse mode (front ++ [file])).statements,
        stmt.range.stop ≤ file.range.start) ∧
      parse mode (front ++ line :: more) =
        ⟨(parse mode (front ++ [file])).statements ++ (parse mode more).statements,
          (parse mode more).diagnostics⟩ := by
  let s : Parser.State := .start mode (front ++ [file])
  let j : Parser.Seam :=
    ⟨file, line, more, s.finish, Parser.State.finish (.start mode more), file_kind, line_kind, code⟩
  have across : .start mode (front ++ line :: more) = j.across s front := by
    have last : (front ++ line :: more).getLast? = more.getLast? := by
      rw [List.getLast?_append_of_ne_nil front (List.cons_ne_nil line more),
        ← List.singleton_append, List.getLast?_append_of_ne_nil [line] open_]
    simp only [Parser.State.start, last]
    rfl
  have beyond : .start mode more = j.beyond s := rfl
  obtain ⟨s', read⟩ := reads_of_quiet quiet
  obtain ⟨left, run⟩ := j.run_statements (Parser.continuesGrammar_unroll (Parser.maxNesting + 1))
    (s := s) (u := front) rfl rfl inner read
  refine ⟨fun stmt mem => ?_, ?_⟩
  · have sound := Parser.State.sound_start mode ordered
    have laid := (Parser.orderly_statements (Parser.orderlyGrammar_unroll _) [] sound).2 _ _ read.1
    have after := laid.after (p := .node (.stmt stmt)) (by simpa using mem) List.mem_cons_self
    rw [left] at after
    exact after file List.mem_cons_self
  · obtain ⟨all, t, ends⟩ : ∃ all t,
        (Parser.statements Parser.grammar []).run (.start mode more) = (some all, t) := by
      obtain ⟨all, t, _, ends, _⟩ := (Parser.total_statementRound Parser.grammar []).many_ends
        ((Parser.consuming_unroll _).statementRound []) (.start mode more)
      exact ⟨all, t, ends⟩
    have whole : (Parser.statements Parser.grammar []).run (.start mode (front ++ line :: more)) =
        (some ((parse mode (front ++ [file])).statements ++ all), t) := by
      rw [across, Parser.grammar, run, ← beyond, ← Parser.grammar, ends]
      rfl
    rw [parse_of_run whole, parse_of_run ends]

end BrightScript
