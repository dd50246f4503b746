import BrightScript.Proofs.Parser.Retrace
import BrightScript.Proofs.Tree.Dropped

/-! Lists, functions and expressions in BrightScript, along a run in BrighterScript.
An expression is read to its end in both languages. In BrightScript its conditionals leave a mark,
and a list loses the statements that are marked. -/
namespace BrightScript

/-- What a statement that starts with an expression goes by. -/
inductive Head where
  | literal (l : Literal)
  | var
  | dotted
  | indexed
  | call
  | other

def Expr.head : Expr → Head
  | .literal l => .literal l
  | .var _ => .var
  | .dotted _ _ _ => .dotted
  | .indexed _ _ _ => .indexed
  | .call _ _ _ => .call
  | _ => .other

namespace Parser

/-- A single-line `if` from `s` to `s'` is given up at a position. -/
structure Cut (tokens : List Token) (p : Parser Stmt) (s s' : State) (st : Stmt)
    (position : Position) : Prop where
  range : st.range = (s.lastTaken s').elim s.range fun last => s.range.union last.range
  colon : s'.kind ≠ .colon
  after : s'.After position
  loses : Clear position s s' → Loses tokens p s (pastLine s'.rest.items)

/-- What becomes of a statement from `s` to `s'`. -/
structure Outcome (tokens : List Token) (p : Parser Stmt) (s s' : State) (st : Stmt) : Prop where
  kept : st.lostAt = none → Retraces tokens p s s' false fun _ => True
  lost : st.cutAt = none → st.uses = true → Loses tokens p s s'.rest.items
  cut : ∀ position, st.cutAt = some position → s.Settled tokens → Cut tokens p s s' st position

/-- An expression is read to its end, and marks the statement if it uses a conditional. -/
def Own (tokens : List Token) (p : Parser Expr) : Prop :=
  ∀ ⦃s e s'⦄, Reads p s e s' → Flat tokens e.listed →
    Retraces tokens p s s' e.uses (·.head = e.head)

/-- The routines one level further in retrace their runs, as long as recovery finds its way. -/
structure Traced (tokens : List Token) (g : Grammar) : Prop where
  expression : Own tokens g.expression
  operand : Own tokens g.operand
  statement : ∀ ⦃s st s'⦄, Reads g.statement s st s' → Flat tokens st.listed →
    Outcome tokens g.statement s s' st

namespace Traced

variable {tokens : List Token} {g : Grammar} {s s' : State} {st : Stmt} {comments : List Stmt}

theorem onto_eq {α : Type} {p : Parser α} {a : α} (run : Reads p s a s') :
    s.onto s'.rest.items = s' := by
  have advances := run.advances
  have input : Input.ofList s'.rest.items = s'.rest := Input.eq_of_items rfl
  simp only [State.onto, input, ← advances.mode, ← advances.finish, ← advances.nesting,
    ← advances.functions, ← run.2, ← run.discard_eq]

/-- After a lost statement, recovery finds the place that a kept one is followed by. -/
theorem synchronize_eq (run : Reads (finishStatement st) s comments s') :
    s.skipWhile (fun k => !(k.isSeparator || closesBlock k)) = s' := by
  obtain ⟨trailing, ends⟩ := run.finishStatement_inv
  obtain ⟨_, _, rfl⟩ | ⟨atComment, _, rfl⟩ := trailing.trailingComment_inv
  · exact State.skipWhile_of_stop (congrArg not ends)
  · rw [State.skipWhile_of_skip rfl (by rw [atComment]; rfl)]
    exact State.skipWhile_of_stop (congrArg not ends)

/- Only the report of a bad end asks what the statement is. -/
theorem finishStatement_any {other : Stmt} (run : Reads (finishStatement st) s comments s') :
    Reads (finishStatement other) s comments s' := by
  obtain ⟨trailing, ends⟩ := run.finishStatement_inv
  unfold finishStatement
  simp only [reads_bind, reads_kind]
  exact ⟨_, _, trailing, _, _, ⟨rfl, rfl⟩, by simp [ends]⟩

theorem kind_of_items {t : Token} {rest : List Token} (items : s.rest.items = t :: rest) :
    s.kind = t.kind := by
  simp [State.kind, State.token, Input.head?, items]

theorem split_taken (advances : s.Advances s') (less : s'.rest.size < s.rest.size) :
    ∃ init last, s.rest.items = init ++ last :: s'.rest.items ∧ s.lastTaken s' = some last := by
  obtain ⟨taken, items⟩ := advances.suffix
  have last := State.lastTaken_of_items items.symm
  rcases List.eq_nil_or_concat taken with rfl | ⟨init, t, rfl⟩
  · rw [s.rest.size_eq, s'.rest.size_eq, ← items] at less
    exact absurd less (Nat.lt_irrefl _)
  · rw [List.concat_eq_append] at items last
    exact ⟨init, t, by simp [← items], by rw [last, List.getLast?_concat]⟩

theorem mem_zip_tail {α : Type} (init : List α) (a b : α) (rest : List α) :
    (a, b) ∈ (init ++ a :: b :: rest).zip (init ++ a :: b :: rest).tail := by
  induction init with
  | nil => simp
  | cons x init ih =>
    cases init with
    | nil => simp
    | cons y init => exact List.mem_cons_of_mem _ ih

theorem clear_of_flat (ordered : Ordered tokens) {position : Position} (settled : s.Settled tokens)
    (advances : s.Advances s') (less : s'.rest.size < s.rest.size) (at_ : st.cutAt = some position)
    (range : st.range = (s.lastTaken s').elim s.range fun last => s.range.union last.range)
    (flat : st.flat tokens = true) :
    Clear position s s' ∧ s'.kind ≠ .else_ ∧ s'.kind ≠ .elseIf := by
  obtain ⟨init, last, items, lastTaken⟩ := split_taken advances less
  have here := ordered.suffix settled.within.1
  rw [items] at here
  have proper : last.range.start ≤ last.range.stop := here.proper last (by simp)
  have upTo : ∀ t ∈ init ++ [last], t.range.stop ≤ last.range.stop := by
    intro t mem
    rcases List.mem_append.mp mem with mem | mem
    · have sorted := (List.pairwise_append.mp here.sorted).2.2 t mem last List.mem_cons_self
      exact le_trans sorted proper
    · rw [List.mem_singleton.mp mem]
  have stop : st.range.stop = last.range.stop := by
    rw [range, lastTaken]
    refine Position.later_eq_right (upTo s.token ?_)
    cases init with
    | nil => simp [State.token, Input.head?, items]
    | cons t init => simp [State.token, Input.head?, items]
  simp only [Stmt.flat, at_, Bool.and_eq_true, List.all_eq_true, Bool.or_eq_true, Bool.not_eq_true',
    stop] at flat
  obtain ⟨inside, follows⟩ := flat
  constructor
  · intro taken split t mem late
    obtain rfl : init ++ [last] = taken := by
      rw [items, List.append_cons] at split
      exact List.append_cancel_right split
    have inTokens : t ∈ tokens :=
      settled.within.1.subset (by rw [split]; exact List.mem_append_left _ mem)
    rcases inside t inTokens with early | skips
    · simp [late, upTo t mem] at early
    · exact skips
  · cases rest : s'.rest.items with
    | nil => simp [State.kind, State.token, Input.head?, rest, Token.endOfFile]
    | cons next tail =>
      rw [kind_of_items rest]
      obtain ⟨before, whole⟩ := settled.within.1
      rw [items, rest, ← List.append_assoc] at whole
      have pair := mem_zip_tail (before ++ init) last next tail
      rw [whole] at pair
      simpa using follows (last, next) pair

theorem skipsInlineIf_of_end {k : Kind} (ends : (k.isSeparator || closesBlock k) = true)
    (colon : k ≠ .colon) (noElse : k ≠ .else_ ∧ k ≠ .elseIf) : skipsInlineIf k = false := by
  cases k <;> simp_all [Kind.isSeparator, closesBlock, skipsInlineIf]

theorem pastLine_of_finish (finish : Reads (finishStatement st) s comments s')
    (colon : s.kind ≠ .colon) (noElse : s.kind ≠ .else_ ∧ s.kind ≠ .elseIf) :
    pastLine s.rest.items = s.rest.items := by
  obtain ⟨trailing, ends⟩ := finish.finishStatement_inv
  have stops : skipsInlineIf s.kind = false := by
    obtain ⟨_, _, rfl⟩ | ⟨atComment, _, _⟩ := trailing.trailingComment_inv
    · exact skipsInlineIf_of_end ends colon noElse
    · rw [atComment]
      rfl
  cases items : s.rest.items with
  | nil => rfl
  | cons t rest =>
    rw [kind_of_items items] at stops
    simp [pastLine, stops]

theorem makeBlock_statements (start : Range) (stmts : List Stmt) :
    (makeBlock start stmts).statements = stmts := by
  unfold makeBlock
  split <;> rfl

theorem binaryRest {operandAt : Nat → Parser Expr} (own : ∀ level, Own tokens (operandAt level))
    {level : Nat} {left e : Expr} (run : Reads (binaryRest operandAt level left) s e s') :
    (Flat tokens e.listed → Flat tokens left.listed) ∧
      ∃ m, e.uses = (left.uses || m) ∧ (Flat tokens e.listed → ∀ left', left'.head = left.head →
        Retraces tokens (binaryRest operandAt level left') s s' m (·.head = e.head)) := by
  refine Reads.loop_induction (motive := fun left s =>
    (Flat tokens e.listed → Flat tokens left.listed) ∧
      ∃ m, e.uses = (left.uses || m) ∧ (Flat tokens e.listed → ∀ left', left'.head = left.head →
        Retraces tokens (loop (binaryRound operandAt level) left') s s' m (·.head = e.head)))
    (fun left s read => ?_) (fun left s next t read less _ ih => ?_) run
  · obtain ⟨_, _, _, _, _, _, ⟨⟩⟩ | ⟨loose, ⟨⟩, rfl⟩ := read.binaryRound_inv
    refine ⟨id, false, by simp, fun _ left' head => .loop_done (.token ?_)⟩
    split
    · rename_i p binds
      rw [if_neg (loose p binds)]
      exact .pure ⟨_, rfl, head⟩
    · exact .pure ⟨_, rfl, head⟩
  · obtain ⟨p, right, range, binds, tighter, readRight, ⟨⟩⟩ | ⟨_, ⟨⟩, _⟩ := read.binaryRound_inv
    obtain ⟨flatNext, m, uses, rest⟩ := ih
    refine ⟨fun flat => (flat_append.mp (flatNext flat)).1, right.uses || m, ?_,
      fun flat left' _ => ?_⟩
    · rw [uses, Expr.uses, Bool.or_assoc]
    · refine .loop_again (I := fun e => e.head = .other) ?_ less fun e' head => rest flat e' head
      refine .token ?_
      rw [show s.token.kind.precedence? = some p from binds]
      dsimp only
      rw [if_pos tighter]
      exact .advance ((own p readRight (flat_append.mp (flatNext flat)).2).then_ fun _ _ =>
        .pure ⟨_, rfl, rfl⟩)

theorem binary {operand : Parser Expr} (own : Own tokens operand) (level : Nat) :
    Own tokens (binary operand level) := by
  have from_ : ∀ depth level, Own tokens (binaryFrom operand depth level) := by
    intro depth
    induction depth with
    | zero => exact fun _ => own
    | succ depth ih =>
      intro level s e s' run flat
      obtain ⟨left, t, readLeft, readRest⟩ := run.binaryFrom_succ_inv
      obtain ⟨flatLeft, m, uses, rest⟩ := binaryRest ih readRest
      rw [uses]
      exact (own readLeft (flatLeft flat)).bind fun e' head => rest flat e' head
  exact from_ _ level

theorem markUnsupported : Retraces tokens markUnsupported s s true fun _ => True := by
  refine fun settled => ⟨settled, fun marked reports only => ?_⟩
  cases marked with
  | true => exact ⟨(), reports, only, rfl, trivial⟩
  | false =>
    refine ⟨(), reports ++ [.of (.unsupportedFeature "ternary operator") s.range], ?_, rfl, trivial⟩
    intro d mem
    rcases List.mem_append.mp mem with mem | mem
    · exact only d mem
    · rw [List.mem_singleton.mp mem]
      rfl

section

variable (h : Traced tokens g) {closers : List Kind}
include h

theorem codeRound (ordered : Ordered tokens) {t : State} (opens : s.closes closers = false)
    (read : Reads g.statement s st t) (finish : Reads (finishStatement st) t comments s')
    (less : t.rest.size < s.rest.size) (flat : Flat tokens (stmtsListed false [st])) :
    Retraces tokens (codeRound g closers) s s' false fun r => ∃ more, r = some more := by
  obtain ⟨flatHere, flatInside⟩ : st.flat tokens = true ∧ Flat tokens st.listed := by
    simpa [stmtsListed, Flat] using flat
  have outcome := h.statement read flatInside
  have lost : Loses tokens g.statement s t.rest.items →
      Retraces tokens (Parser.codeRound g closers) s s' false fun r => ∃ more, r = some more := by
    intro loses
    have past := loses.attemptPast (by rwa [t.rest.size_eq] at less) read.advances.suffix
    rw [onto_eq read] at past
    refine .neutral_bind (.inspect fun _ _ _ => rfl) (reads_inspect.mpr ⟨opens, rfl⟩) (past.then_ ?_)
    rintro _ rfl
    refine .skipWhile ?_
    rw [synchronize_eq finish]
    exact .pure ⟨_, rfl⟩
  intro settled
  cases at_ : st.cutAt with
  | some position =>
    have cut := outcome.cut position at_ settled
    obtain ⟨clear, noElse⟩ :=
      clear_of_flat ordered settled read.advances less at_ cut.range flatHere
    have loses := cut.loses clear
    rw [pastLine_of_finish finish cut.colon noElse] at loses
    exact lost loses settled
  | none =>
    cases uses : st.uses with
    | true => exact lost (outcome.lost at_ uses) settled
    | false =>
      refine Retraces.neutral_bind (.inspect fun _ _ _ => rfl) (reads_inspect.mpr ⟨opens, rfl⟩) ?_ settled
      refine (outcome.kept (by simp [Stmt.lostAt, at_, uses])).attemptPast.then_ ?_
      rintro _ ⟨other, rfl, _⟩
      exact .neutral_bind .finishStatement (finishStatement_any finish) (.pure ⟨_, rfl⟩)

theorem statementRound (ordered : Ordered tokens) {first : List Stmt}
    (run : Reads (statementRound g closers) s (some first) s') (less : s'.rest.size < s.rest.size)
    (flat : Flat tokens (stmtsListed false first)) (unmarked : s.discard = false) :
    Retraces tokens (statementRound g closers) s s' false fun r => ∃ more, r = some more := by
  refine .kind ?_
  obtain ⟨newline | colon, ⟨⟩, rfl⟩ | ⟨_, ⟨⟩, _⟩ | ⟨atComment, c, ⟨⟩, read⟩ |
    ⟨newline, colon, file, atComment, ⟨_, ⟨⟩, _⟩ | ⟨opens, st, comments, t, ⟨⟩, read, finish⟩⟩ :=
    run.statementRound_inv unmarked
  · rw [newline]
    exact .advance (.pure ⟨_, rfl⟩)
  · rw [colon]
    exact .advance (.pure ⟨_, rfl⟩)
  · rw [atComment]
    exact .neutral_bind .commentRun read (.pure ⟨_, rfl⟩)
  · have taken : t.rest.size < s.rest.size := by
      refine Nat.lt_of_le_of_ne read.advances.size_le fun same => ?_
      have items : t.rest.items = s.rest.items := by
        refine read.advances.suffix.eq_of_length ?_
        rw [← t.rest.size_eq, ← s.rest.size_eq, same]
      obtain rfl : t = s := by rw [← onto_eq read, items, State.onto_items]
      obtain ⟨trailing, _⟩ := finish.finishStatement_inv
      obtain ⟨_, _, rfl⟩ | ⟨comment, _, _⟩ := trailing.trailingComment_inv
      · exact Nat.lt_irrefl _ less
      · exact atComment comment
    have flatHere : Flat tokens (stmtsListed false [st]) := by
      rw [← List.singleton_append, stmtsListed_append] at flat
      exact (flat_append.mp flat).1
    have code := h.codeRound ordered opens read finish taken flatHere
    split
    · exact absurd ‹_› newline
    · exact absurd ‹_› colon
    · exact absurd ‹_› file
    · exact absurd ‹_› atComment
    · exact code

theorem statements (ordered : Ordered tokens) {stmts : List Stmt}
    (run : Reads (statements g closers) s stmts s') (flat : Flat tokens (stmtsListed false stmts)) :
    Retraces tokens (statements g closers) s s' false fun _ => True := by
  refine Reads.many_induction (motive := fun stmts s => Flat tokens (stmtsListed false stmts) →
    ∀ found, Retraces tokens (loop (manyRound (Parser.statementRound g closers)) found) s s' false
      fun _ => True) (fun s read _ found => ?_) (fun s first t more read less _ ih flat found => ?_)
    run flat []
  · intro settled
    refine Retraces.many_none (Retraces.kind ?_) settled
    obtain ⟨_, ⟨⟩, _⟩ | ⟨file, _, rfl⟩ | ⟨_, _, ⟨⟩, _⟩ |
      ⟨newline, colon, file, atComment, ⟨closes, _, rfl⟩ | ⟨_, _, _, _, ⟨⟩, _⟩⟩ :=
      read.statementRound_inv settled.unmarked
    · rw [file]
      exact .pure rfl
    · split
      · exact absurd ‹_› newline
      · exact absurd ‹_› colon
      · exact absurd ‹_› file
      · exact absurd ‹_› atComment
      · exact .neutral_bind (.inspect fun _ _ _ => rfl) (reads_inspect.mpr ⟨closes, rfl⟩) (.pure rfl)
  · intro settled
    rw [stmtsListed_append] at flat
    obtain ⟨flatFirst, flatMore⟩ := flat_append.mp flat
    have round := h.statementRound ordered read less flatFirst settled.unmarked
    exact Retraces.many_some round less (ih flatMore) settled

theorem block (ordered : Ordered tokens) {b : Block Stmt} (run : Reads (block g closers) s b s')
    (flat : Flat tokens (stmtsListed false b.statements)) :
    Retraces tokens (block g closers) s s' false fun _ => True := by
  obtain ⟨header, t, stmts, trailing, read, rfl⟩ := run.block_inv
  rw [makeBlock_statements, stmtsListed_append] at flat
  refine .here (.neutral_bind .trailingComment trailing ?_)
  exact (h.statements ordered read (flat_append.mp flat).2).then_ fun _ _ => .pure trivial

theorem parameter {p : Parameter Expr} (run : Reads (parameter g) s p s')
    (flat : Flat tokens (optionListed p.fallback)) :
    Retraces tokens (parameter g) s s' (optionUses p.fallback)
      (·.isRequired = p.isRequired) := by
  obtain ⟨name, fallback, type, range, t, u, rfl, readName, value, readType, check⟩ :=
    run.parameter_inv
  obtain ⟨rfl, fits⟩ := check.checkFallback_inv
  refine .ranged (.neutral_bind .declaredName readName ?_)
  obtain ⟨equal, e, rfl, read⟩ | ⟨other, rfl, rfl⟩ := value
  · rw [← State.drop_drop 1 1 s] at read
    refine .accept equal ?_
    refine ((h.expression read flat).map (g := some)
      (Q := fun b => ∃ e', b = some e' ∧ e'.head = e.head) fun e' head => ⟨e', rfl, head⟩).then_ ?_
    rintro _ ⟨e', rfl, head⟩
    refine .neutral_bind .asType readType ?_
    have passes : checkFallback (some e') type = Pure.pure () := by
      unfold checkFallback
      split
      · rename_i l same
        cases same
        have literal : e = .literal l := by
          cases e <;> simp_all [Expr.head]
        exact if_neg (by simp only [fits l (congrArg some literal)]; exact Bool.false_ne_true)
      · rfl
    rw [passes]
    exact .neutral_bind .pure (reads_pure.mpr ⟨rfl, rfl⟩) (.pure fun _ => rfl)
  · refine .accept_not other (.neutral_bind .pure (reads_pure.mpr ⟨rfl, rfl⟩) ?_)
    refine .neutral_bind .asType readType ?_
    exact .neutral_bind .pure (reads_pure.mpr ⟨rfl, rfl⟩) (.pure fun _ => rfl)

theorem parameterLoop {seen : List (Parameter Expr) × Bool}
    {params : List (Parameter Expr)} (run : Reads (loop (parameterRound g) seen) s params s') :
    ∃ more, params = seen.1 ++ more ∧ (Flat tokens (parametersListed more) → ∀ done,
      Retraces tokens (loop (parameterRound g) (done, seen.2)) s s' (parametersUse more)
        fun _ => True) := by
  refine Reads.loop_induction (motive := fun seen s => ∃ more, params = seen.1 ++ more ∧
    (Flat tokens (parametersListed more) → ∀ done,
      Retraces tokens (loop (parameterRound g) (done, seen.2)) s s' (parametersUse more)
        fun _ => True)) (fun seen s read => ?_) (fun seen s next t read less _ ih => ?_) run
  · obtain ⟨p, u, readP, early, ⟨_, ⟨⟩, _⟩ | ⟨other, ⟨⟩, rfl⟩⟩ := read.parameterRound_inv
    refine ⟨[p], rfl, fun flat done => .loop_done ?_⟩
    have flatP : Flat tokens (optionListed p.fallback) := by simpa [parametersListed] using flat
    refine ((h.parameter readP flatP).then_ fun q same => ?_).cast (by simp [parametersUse])
    rw [same, if_neg (by simp [early])]
    exact .accept_not other (.pure ⟨_, rfl, trivial⟩)
  · obtain ⟨p, u, readP, early, ⟨comma, ⟨⟩, rfl⟩ | ⟨_, ⟨⟩, _⟩⟩ := read.parameterRound_inv
    obtain ⟨more, rfl, rest⟩ := ih
    refine ⟨p :: more, by simp, fun flat done => ?_⟩
    obtain ⟨flatP, flatRest⟩ := flat_append.mp flat
    refine .loop_again (I := fun next => next.2 = (seen.2 || !p.isRequired)) ?_ less ?_
    · refine (h.parameter readP flatP).then_ fun q same => ?_
      rw [same, if_neg (by simp [early])]
      exact .accept comma (.pure ⟨_, rfl, rfl⟩)
    · rintro ⟨done, flag⟩ rfl
      exact rest flatRest done

theorem parameters {params : List (Parameter Expr)} (run : Reads (parameters g) s params s')
    (flat : Flat tokens (parametersListed params)) :
    Retraces tokens (parameters g) s s' (parametersUse params) fun _ => True := by
  obtain ⟨t, ⟨close, rfl, rfl⟩ | ⟨other, loop⟩, last, rfl⟩ := run.parameters_inv
  · refine .isAt close (.neutral_bind .pure (reads_pure.mpr ⟨rfl, rfl⟩) ?_)
    exact .expect last (.pure trivial)
  · obtain ⟨more, rfl, rest⟩ := h.parameterLoop loop
    refine .isAt_not other ((rest flat []).then_ fun _ _ => ?_)
    exact .expect last (.pure trivial)

theorem functionRest (ordered : Ordered tokens) {first : Range} {isSub : Bool}
    {f : Function Expr Stmt} (run : Reads (functionRest g first isSub) s f s')
    (flat : Flat tokens (functionListed f)) :
    Retraces tokens (functionRest g first isSub) s s' (parametersUse f.parameters)
      fun _ => True := by
  obtain ⟨params, returns, body, range, t, u, v, rfl, opens, readParams, readType, readBody, close,
    rfl⟩ := run.functionRest_inv
  rw [functionListed_eq] at flat
  obtain ⟨flatParams, flatBody⟩ := flat_append.mp flat
  refine .spanned (.expect opens ((h.parameters readParams flatParams).then_ fun _ _ => ?_))
  refine .neutral_bind .asType readType ?_
  refine (h.block ordered readBody flatBody).inFunction.then_ fun _ _ => ?_
  exact .neutral_bind .closeFunction (Reads.of_closeFunction close) (.pure fun _ => trivial)

theorem argumentLoop {done args : List Expr}
    (run : Reads (loop (argumentRound g) done) s args s') :
    ∃ more, args = done ++ more ∧ (Flat tokens (exprsListed more) → ∀ done',
      Retraces tokens (loop (argumentRound g) done') s s' (exprsUse more) fun _ => True) := by
  refine Reads.loop_induction (motive := fun done s => ∃ more, args = done ++ more ∧
    (Flat tokens (exprsListed more) → ∀ done',
      Retraces tokens (loop (argumentRound g) done') s s' (exprsUse more) fun _ => True))
    (fun done s read => ?_) (fun done s next t read less _ ih => ?_) run
  · obtain ⟨e, u, readE, ⟨_, ⟨⟩, _⟩ | ⟨other, ⟨⟩, rfl⟩⟩ := read.argumentRound_inv
    refine ⟨[e], rfl, fun flat done' => .loop_done ?_⟩
    have flatE : Flat tokens e.listed := by simpa [exprsListed] using flat
    have first := h.expression readE flatE
    refine (first.then_ fun b _ => ?_).cast (by simp [exprsUse])
    refine .skipNewlines ?_
    exact .accept_not other (.pure ⟨_, rfl, trivial⟩)
  · obtain ⟨e, u, readE, ⟨comma, ⟨⟩, rfl⟩ | ⟨_, ⟨⟩, _⟩⟩ := read.argumentRound_inv
    obtain ⟨more, rfl, rest⟩ := ih
    refine ⟨e :: more, by simp, fun flat done' => ?_⟩
    obtain ⟨flatE, flatRest⟩ := flat_append.mp flat
    refine .loop_again (I := fun _ => True) ?_ less fun done' _ => rest flatRest done'
    refine (h.expression readE flatE).then_ fun b _ => ?_
    refine .skipNewlines ?_
    refine .accept comma ?_
    exact .skipNewlines (.pure ⟨_, rfl, trivial⟩)

theorem arguments {args : List Expr} (run : Reads (arguments g) s args s')
    (flat : Flat tokens (exprsListed args)) :
    Retraces tokens (arguments g) s s' (exprsUse args) fun _ => True := by
  obtain ⟨t, ⟨close, rfl, rfl⟩ | ⟨other, loop⟩, last, rfl⟩ := run.arguments_inv
  · refine .skipNewlines ?_
    refine .isAt close ?_
    refine .neutral_bind .pure (reads_pure.mpr ⟨rfl, rfl⟩) ?_
    exact .expect last (.pure trivial)
  · obtain ⟨more, rfl, rest⟩ := h.argumentLoop loop
    refine .skipNewlines ?_
    refine .isAt_not other ?_
    refine (rest flat []).then_ fun _ _ => ?_
    exact .expect last (.pure trivial)

theorem elements {es : List Expr} (run : Reads (many (elementRound g)) s es s')
    (flat : Flat tokens (exprsListed es)) :
    Retraces tokens (many (elementRound g)) s s' (exprsUse es) fun _ => True := by
  refine Reads.many_induction (motive := fun es s => Flat tokens (exprsListed es) → ∀ found,
    Retraces tokens (loop (manyRound (elementRound g)) found) s s' (exprsUse es) fun _ => True)
    (fun s read _ found => .many_none ?_) (fun s first t more read less _ ih flat found => ?_)
    run flat []
  · obtain ⟨close, _, rfl⟩ | ⟨_, _, _, ⟨⟩, _⟩ := read.elementRound_inv
    exact .skipWhile (.isAt close (.pure rfl))
  · obtain ⟨_, ⟨⟩, _⟩ | ⟨other, e, u, ⟨⟩, readE, separates⟩ := read.elementRound_inv
    obtain ⟨flatE, flatRest⟩ := flat_append.mp flat
    refine (Retraces.many_some ?_ less (ih flatRest)).cast rfl
    refine .skipWhile (.isAt_not other ((h.expression readE flatE).then_ fun _ _ => ?_))
    exact .neutral_bind .separator separates (.pure ⟨_, rfl⟩)

theorem members {ms : List (Member Expr)}
    (run : Reads (many (memberRound g)) s ms s') (flat : Flat tokens (membersListed ms)) :
    Retraces tokens (many (memberRound g)) s s' (membersUse ms) fun _ => True := by
  refine Reads.many_induction (motive := fun ms s => Flat tokens (membersListed ms) → ∀ found,
    Retraces tokens (loop (manyRound (memberRound g)) found) s s' (membersUse ms) fun _ => True)
    (fun s read _ found => .many_none ?_) (fun s first t more read less _ ih flat found => ?_)
    run flat []
  · obtain ⟨close, _, rfl⟩ | ⟨_, ⟨⟩, _⟩ | ⟨_, _, _, _, _, _, _, ⟨⟩, _⟩ := read.memberRound_inv
    refine .skipNewlines (.kind ?_)
    rw [if_pos close]
    exact .pure rfl
  · obtain ⟨_, ⟨⟩, _⟩ | ⟨atComment, ⟨⟩, rfl⟩ |
      ⟨close, other, key, quoted, value, range, u, ⟨⟩, readKey, colon, readE, separates⟩ :=
      read.memberRound_inv
    · refine (Retraces.many_some (m := false) ?_ less (ih flat)).cast (Bool.false_or _)
      refine .skipNewlines (.kind ?_)
      rw [if_neg (by rw [atComment]; decide), if_pos atComment]
      exact .neutral_bind .comment (Reads.of_comment _) (.pure ⟨_, rfl⟩)
    · obtain ⟨flatE, flatRest⟩ := flat_append.mp flat
      refine (Retraces.many_some ?_ less (ih flatRest)).cast rfl
      refine .skipNewlines (.kind ?_)
      rw [if_neg close, if_neg other]
      refine .here (.neutral_bind .memberKey readKey (.expect colon ?_))
      rw [State.drop_drop]
      refine (h.expression readE flatE).then_ fun _ _ => ?_
      exact .neutral_bind .separator separates (.pure ⟨_, rfl⟩)

theorem primary (ordered : Ordered tokens) {e : Expr} (run : Reads (primary g) s e s')
    (flat : Flat tokens e.listed) : Retraces tokens (primary g) s s' e.uses (·.head = e.head) := by
  refine .token ?_
  obtain ⟨ident, rfl, rfl⟩ | ⟨open_, read⟩ | ⟨open_, read⟩ | ⟨open_, read⟩ | ⟨open_, read⟩ |
    ⟨literal, rfl, rfl⟩ := run.primary_inv
  · rw [show s.token.kind = .identifier from ident]
    exact .map (.of_neutral .takeIdent (reads_takeIdent.mpr ⟨rfl, rfl⟩)) fun _ _ => rfl
  · obtain ⟨inner, range, t, rfl, readInner, close, rfl⟩ := read.grouping_inv
    rw [show s.token.kind = .leftParen from open_]
    refine .ranged (.advance ((h.expression readInner flat).then_ fun _ _ => ?_))
    exact .expect close (.pure fun _ => rfl)
  · obtain ⟨es, range, t, rfl, readInner, close, rfl⟩ := read.arrayLiteral_inv
    rw [show s.token.kind = .leftSquare from open_]
    refine .ranged (.advance ((h.elements readInner flat).then_ fun _ _ => ?_))
    exact .expect close (.pure fun _ => rfl)
  · obtain ⟨ms, range, t, rfl, readInner, close, rfl⟩ := read.assocLiteral_inv
    rw [show s.token.kind = .leftCurly from open_]
    refine .ranged (.advance ((h.members readInner flat).then_ fun _ _ => ?_))
    exact .expect close (.pure fun _ => rfl)
  · obtain ⟨f, rfl, readF⟩ := read.anonymousFunction_inv
    have inner : Retraces tokens (anonymousFunction g) s s' (parametersUse f.parameters)
        (·.head = (Expr.function f).head) :=
      .token (.advance ((h.functionRest ordered readF flat).then_ fun _ _ => .pure rfl))
    have uses : (Expr.function f).uses = parametersUse f.parameters := by
      cases f
      rfl
    rw [uses]
    rcases open_ with open_ | open_
    · rw [show s.token.kind = .function from open_]
      exact inner
    · rw [show s.token.kind = .sub from open_]
      exact inner
  · split
    case h_7 =>
      rw [if_pos (show s.token.kind.isLiteral = true from literal)]
      exact .advance (.pure rfl)
    all_goals simp_all [State.kind, Kind.isLiteral]

/- Each accessor adds what it uses to the expression that it is applied to. -/
theorem accesses {first e : Expr}
    (run : Reads (loop (accessRound g) first) s e s') :
    (Flat tokens e.listed → Flat tokens first.listed) ∧
      ∃ m, e.uses = (first.uses || m) ∧ (Flat tokens e.listed → ∀ first', first'.head = first.head →
        Retraces tokens (loop (accessRound g) first') s s' m (·.head = e.head)) := by
  refine Reads.loop_induction (motive := fun first s =>
    (Flat tokens e.listed → Flat tokens first.listed) ∧
      ∃ m, e.uses = (first.uses || m) ∧ (Flat tokens e.listed → ∀ first', first'.head = first.head →
        Retraces tokens (loop (accessRound g) first') s s' m (·.head = e.head)))
    (fun first s read => ?_) (fun first s next t read less _ ih => ?_) run
  · obtain ⟨_, _, _, ⟨⟩, _⟩ | ⟨_, _, _, _, ⟨⟩⟩ | ⟨_, _, _, _, ⟨⟩, _⟩ | ⟨paren, dot, square, ⟨⟩, rfl⟩ :=
      read.accessRound_inv
    refine ⟨id, false, by simp, fun _ first' head => .loop_done (.kind ?_)⟩
    split
    · exact absurd ‹_› paren
    · exact absurd ‹_› dot
    · exact absurd ‹_› square
    · exact .pure ⟨_, rfl, head⟩
  · obtain ⟨flatNext, m, uses, rest⟩ := ih
    obtain ⟨paren, args, range, ⟨⟩, readArgs⟩ | ⟨dot, word, rfl, range, ⟨⟩⟩ |
      ⟨square, index, range, u, ⟨⟩, readIndex, close, rfl⟩ | ⟨_, _, _, ⟨⟩, _⟩ := read.accessRound_inv
    · refine ⟨fun flat => (flat_append.mp (flatNext flat)).1, exprsUse args || m, ?_,
        fun flat first' _ => ?_⟩
      · rw [uses, Expr.uses, Bool.or_assoc]
      · refine .loop_again (I := fun e => e.head = .call) ?_ less fun e' head => rest flat e' head
        refine .kind ?_
        rw [paren]
        refine .map (P := fun e => e.head = .call) (.spanned (.advance ?_)) fun e head => ⟨e, rfl, head⟩
        exact (h.arguments readArgs (flat_append.mp (flatNext flat)).2).then_ fun _ _ =>
          .pure fun _ => rfl
    · refine ⟨flatNext, m, uses, fun flat first' _ => ?_⟩
      refine (Retraces.loop_again (m := false) (I := fun e => e.head = .dotted) ?_ less
        fun e' head => rest flat e' head).cast (Bool.false_or m)
      refine .kind ?_
      rw [dot]
      refine .here (.advance (.kind ?_))
      rw [if_pos word]
      exact .neutral_bind .takeIdent (reads_takeIdent.mpr ⟨rfl, State.drop_drop 1 1 s⟩)
        (.pure ⟨_, rfl, rfl⟩)
    · refine ⟨fun flat => (flat_append.mp (flatNext flat)).1, index.uses || m, ?_,
        fun flat first' _ => ?_⟩
      · rw [uses, Expr.uses, Bool.or_assoc]
      · refine .loop_again (I := fun e => e.head = .indexed) ?_ less fun e' head => rest flat e' head
        refine .kind ?_
        rw [square]
        refine .map (P := fun e => e.head = .indexed) (.spanned (.advance ?_))
          fun e head => ⟨e, rfl, head⟩
        refine (h.expression readIndex (flat_append.mp (flatNext flat)).2).then_ fun _ _ => ?_
        exact .expect close (.pure fun _ => rfl)

theorem accessed (ordered : Ordered tokens) {e : Expr} (run : Reads (accessed g) s e s')
    (flat : Flat tokens e.listed) : Retraces tokens (accessed g) s s' e.uses (·.head = e.head) := by
  obtain ⟨first, t, readFirst, readRest⟩ := run.accessed_inv
  obtain ⟨flatFirst, m, uses, rest⟩ := h.accesses readRest
  rw [uses]
  exact (h.primary ordered readFirst (flatFirst flat)).bind fun e' head => rest flat e' head

theorem operandStep (ordered : Ordered tokens) : Own tokens (Parser.operand g) := by
  intro s e s' run flat
  refine .kind ?_
  obtain ⟨sign, shallow, inner, range, t, rfl, read, rfl⟩ | ⟨plain, read⟩ := run.operand_inv
  · rw [if_pos sign]
    have inner (k : Kind) : Own tokens (prefixOperand k g.operand) := by
      unfold prefixOperand
      split
      · exact binary h.operand notLevel
      · exact h.operand
    exact .nested shallow (.token (.advance ((inner _ read flat).then_ fun _ _ => .pure rfl)))
  · rw [if_neg (by simp [plain])]
    exact h.accessed ordered read flat

theorem conditionalRest {test e : Expr}
    (run : Reads (conditionalRest g test) s e s') :
    (Flat tokens e.listed → Flat tokens test.listed) ∧
      ∃ m, e.uses = (test.uses || m) ∧ (Flat tokens e.listed → ∀ test', test'.head = test.head →
        Retraces tokens (conditionalRest g test') s s' m (·.head = e.head)) := by
  obtain ⟨mark, _, consequent, alternate, range, t, rfl, first, colon, second⟩ | ⟨other, rfl, rfl⟩ :=
    run.conditionalRest_inv
  · refine ⟨fun flat => (flat_append.mp (flat_append.mp flat).1).1, true, by simp [Expr.uses],
      fun flat test' _ => ?_⟩
    obtain ⟨flatFirst, flatSecond⟩ := flat_append.mp flat
    refine .isAt mark ((markUnsupported.bind (n := consequent.uses || alternate.uses)
      fun _ _ => .advance ?_).cast (Bool.true_or _))
    refine (h.expression first (flat_append.mp flatFirst).2).bind fun _ _ => .expect colon ?_
    exact (h.expression second flatSecond).then_ fun _ _ => .pure rfl
  · exact ⟨id, false, by simp, fun _ test' head => .isAt_not other (.pure head)⟩

theorem expressionStep (ordered : Ordered tokens) : Own tokens (Parser.expression g) := by
  intro s e s' run flat
  obtain ⟨shallow, test, t, u, first, second, rfl⟩ := run.expression_inv
  obtain ⟨flatTest, m, uses, rest⟩ := h.conditionalRest second
  rw [uses]
  refine .nested shallow ?_
  exact (binary (h.operandStep ordered) conditionalLevel first (flatTest flat)).bind
    fun test' head => rest flat test' head

end

end Traced
end Parser
end BrightScript
