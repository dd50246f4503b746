import BrightScript.Proofs.Parser.Compose

/-! A line and what follows it.
Whatever the tokens of a line are, if none of them opens a bracket or a block then the outermost list
of statements gets to the line break behind them, and from there on it is as if nothing had stood
before. -/
namespace BrightScript
namespace Parser

structure State.Outermost (mode : Mode) (s : State) : Prop where
  mode : s.mode = mode
  nesting : s.nesting = 0
  functions : s.functions = 0
  discard : s.discard = false

namespace State.Outermost

variable {mode : Mode} {s : State}

theorem start (tokens : List Token) : (State.start mode tokens).Outermost mode :=
  ⟨rfl, rfl, rfl, rfl⟩

theorem upTo_eq (h : s.Outermost mode) (after : List Token) (finish : Position) :
    s.upTo [] after finish =
      ((State.start mode []).upTo [] after finish).behind s.diagnostics := by
  simp [State.upTo, State.behind, State.start, h.mode, h.nesting, h.functions, h.discard]

theorem statementRound {n : Nat} (h : s.Outermost mode) {t : State} {r : Option (List Stmt)}
    (run : (statementRound (unroll n) []).run s = (some r, t)) : t.Outermost mode := by
  have advances := advances_of_run run
  have mark := keepsMark_statementRound (keepsMark_statement_unroll n) [] s
  rw [run] at mark
  exact ⟨advances.mode.trans h.mode, advances.nesting.trans h.nesting,
    advances.functions.trans h.functions, mark.trans h.discard⟩

end State.Outermost

def JoinsNone (more : List Token) : Prop := ∀ t, more.head? = some t → t.kind ≠ .comment

theorem joinsNone_nil : JoinsNone [] := fun _ head => by cases head

variable {line : Token} {u : List Token}

/-- In front of a line break a round does not depend on what follows the line break. It takes
tokens of the line, and the list goes on behind it. -/
theorem exists_round {mode : Mode} (newline : line.kind = .newline) (n : Nat) {s : State}
    (outermost : s.Outermost mode) {t : Token} (on : (Verge.line line.range).Spans (t :: u)) :
    ∃ (first : List Stmt) (s' : State) (u' : List Token), u' <:+ t :: u ∧
      u'.length < (t :: u).length ∧ s'.Outermost mode ∧ ∀ more finish, JoinsNone more →
        (statementRound (unroll n) []).run (s.upTo (t :: u) (line :: more) finish) =
          (some (some first), s'.upTo u' (line :: more) finish) := by
  obtain ⟨r, s', u', ⟨suffix, blind⟩, -⟩ :=
    (sheltered_unroll (.line line.range) n).statementRound [] s (t :: u) nofun on
      fun _ => List.cons_ne_nil t u
  have same (more : List Token) (finish : Position) (code : JoinsNone more) :=
    blind (line :: more) finish ⟨newline, rfl, nofun, fun _ => code⟩
  -- what stands behind the line break does not count, so let nothing stand there
  have run := same [] .origin joinsNone_nil
  have start : (s.upTo (t :: u) [line] .origin).Outermost mode :=
    ⟨outermost.mode, outermost.nesting, outermost.functions, outermost.discard⟩
  obtain ⟨found, _, total⟩ := total_statementRound (unroll n) [] (s.upTo (t :: u) [line] .origin)
  obtain ⟨rfl, rfl⟩ := Prod.mk.inj (run.symm.trans total)
  have next := start.statementRound run
  have outermost' : s'.Outermost mode :=
    ⟨next.mode, next.nesting, next.functions, next.discard⟩
  cases found with
  | none =>
    have file : (s'.upTo u' [line] .origin).kind = .endOfFile :=
      kind_of_statementRound_none start.functions run
    exfalso
    cases u' with
    | nil => cases newline.symm.trans file
    | cons t' w =>
      have stays := (on.suffix suffix).line rfl t' List.mem_cons_self
      rw [show t'.kind = .endOfFile from file] at stays
      cases stays
  | some first =>
    have less := (consuming_unroll n).statementRound [] _ _ _ run rfl
    rw [State.size_upTo, State.size_upTo] at less
    exact ⟨first, s', u', suffix, Nat.lt_of_add_lt_add_right less, outermost', same⟩

/- Round after round, by induction on the tokens of the line that are left; the last round takes the
line break itself. -/
theorem exists_run_statements {mode : Mode} (newline : line.kind = .newline) (n : Nat) {s : State}
    (outermost : s.Outermost mode) (on : (Verge.line line.range).Spans u) :
    ∃ (all : List Stmt) (s' : State), s'.Outermost mode ∧ ∀ more finish, JoinsNone more →
      (statements (unroll n) []).run (s.upTo u (line :: more) finish) =
        (((statements (unroll n) []).run (s'.upTo [] more finish)).1.map (all ++ ·),
          ((statements (unroll n) []).run (s'.upTo [] more finish)).2) := by
  induction size : u.length using Nat.strongRecOn generalizing u s with
  | ind size ih =>
    cases u with
    | nil =>
      refine ⟨[], s, outermost, fun more finish code => ?_⟩
      let j : Seam := ⟨.endOfFile .origin, line, more, .origin, finish, rfl, newline, code⟩
      have head : (statementRound (unroll n) []).run (s.upTo [] (line :: more) finish) =
          (some (some []), s.upTo [] more finish) := j.run_statementRound_line (unroll n) s
      have fewer : (s.upTo [] more finish).rest.size <
          (s.upTo [] (line :: more) finish).rest.size := by
        rw [State.size_upTo, State.size_upTo]
        exact Nat.lt_succ_self _
      rw [statements, run_many_some head fewer]
    | cons t w =>
      obtain ⟨first, t', u', suffix, less, outermost', head⟩ := exists_round newline n outermost on
      obtain ⟨all, s', outermost'', rest⟩ :=
        ih u'.length (size ▸ less) outermost' (on.suffix suffix) rfl
      refine ⟨first ++ all, s', outermost'', fun more finish code => ?_⟩
      have fewer : (t'.upTo u' (line :: more) finish).rest.size <
          (s.upTo (t :: w) (line :: more) finish).rest.size := by
        rw [State.size_upTo, State.size_upTo]
        exact Nat.add_lt_add_right less _
      have rest := rest more finish code
      rw [statements] at rest ⊢
      rw [run_many_some (head more finish code) fewer, rest]
      simp [Function.comp_def]

/-- From the outermost level on, the rest of a text is read as if it stood alone. -/
theorem parse_append_of_run {mode : Mode} {before rest : List Token} {all : List Stmt} {s : State}
    (outermost : s.Outermost mode)
    (run : (statements grammar []).run (.start mode (before ++ rest)) =
      (((statements grammar []).run
          (s.upTo [] rest (State.start mode (before ++ rest)).finish)).1.map (all ++ ·),
        ((statements grammar []).run
          (s.upTo [] rest (State.start mode (before ++ rest)).finish)).2)) :
    parse mode (before ++ rest) =
      ⟨all ++ (parse mode rest).statements, s.diagnostics ++ (parse mode rest).diagnostics⟩ := by
  obtain ⟨found, t, _, alone, _⟩ := (total_statementRound grammar []).many_ends
    ((consuming_unroll _).statementRound []) (.start mode rest)
  obtain ⟨t', behind, reports⟩ := run_statements_behind alone before
  rw [outermost.upTo_eq, Parser.framed, behind] at run
  rw [parse_of_run run, parse_of_run alone, ← reports]
  rfl

end Parser

open BrightScript.Parser in
/-- A line does not change how the text below it is read, whatever is wrong with it: none of its
tokens opens a bracket or a block, and no comment of it goes on below. -/
theorem parse_line_append (mode : Mode) {front rest : List Token} {line : Token}
    (kinds : ∀ t ∈ front, t.kind ∉ [Kind.newline, .endOfFile, .leftParen, .leftSquare, .leftCurly,
      .if_, .while_, .for_, .function, .sub])
    (newline : line.kind = .newline) (code : ∀ t, rest.head? = some t → t.kind ≠ .comment) :
    parse mode (front ++ [line] ++ rest) =
      ⟨(parse mode (front ++ [line])).statements ++ (parse mode rest).statements,
        (parse mode (front ++ [line])).diagnostics ++ (parse mode rest).diagnostics⟩ := by
  have on : (Verge.line line.range).Spans front := by
    refine ⟨fun _ t mem => ?_, nofun⟩
    have other := kinds t mem
    revert other
    cases t.kind <;> intro other <;> first | rfl | exact absurd (by decide) other
  have start : (State.start mode []).Outermost mode := State.Outermost.start []
  obtain ⟨all, s, outermost, run⟩ := exists_run_statements newline (maxNesting + 1) start on
  have whole (more : List Token) (code : JoinsNone more) : parse mode (front ++ [line] ++ more) =
      ⟨all ++ (parse mode more).statements, s.diagnostics ++ (parse mode more).diagnostics⟩ := by
    apply parse_append_of_run outermost
    rw [List.append_assoc]
    exact run more _ code
  have alone := whole [] joinsNone_nil
  have nothing : parse mode [] = ⟨[], []⟩ := parse_of_run (run_statements_nil grammar rfl)
  rw [nothing, List.append_nil, List.append_nil, List.append_nil] at alone
  rw [whole rest code, alone]

/-- Operators without operands, a stray keyword and a dot with no name do not spoil the next
line. -/
theorem parse_line_append_garbage :
    let front := (scan "x = = 1 : end sub ? . next : y = 2").tokens.dropLast
    let line : Token := ⟨.newline, "\n", .empty .origin, none⟩
    let rest := (scan "print y").tokens
    (parse .brightScript (front ++ [line])).diagnostics.isEmpty = false ∧
      parse .brightScript (front ++ [line] ++ rest) =
        ⟨(parse .brightScript (front ++ [line])).statements ++ (parse .brightScript rest).statements,
          (parse .brightScript (front ++ [line])).diagnostics ++
            (parse .brightScript rest).diagnostics⟩ := by
  intro front line rest
  have first : rest.head?.map (·.kind) = some .print := by decide +kernel
  constructor
  · decide +kernel
  · apply parse_line_append .brightScript
    · decide +kernel
    · rfl
    · intro t head comment
      rw [head, Option.map_some, comment] at first
      cases first

end BrightScript
