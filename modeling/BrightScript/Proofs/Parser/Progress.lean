import BrightScript.Proofs.Parser.Depth

/-! Parsing ends.
Results cost tokens: a statement, an expression or an operand is never read from nothing, and a
loop that asks for another round has taken a token in this one. So no loop meets its guard, and
the outermost one goes on to the end of the file. -/
namespace BrightScript
namespace Parser

variable {α β σ : Type} {f : α → Parser β}

namespace State

theorem size_drop_lt {s : State} (h : s.kind ≠ .endOfFile) : (s.drop 1).rest.size < s.rest.size := by
  have nonempty : s.rest.items ≠ [] := by
    intro none
    refine h ?_
    simp [kind, token, Input.head?, none]
    rfl
  have positive := List.length_pos_iff.mpr nonempty
  rw [← s.rest.size_eq] at positive
  exact Nat.sub_lt positive Nat.one_pos

end State

/-- From `s` the results of `p` in `P` cost at least one token. -/
def Consumes (p : Parser α) (s : State) (P : α → Prop := fun _ => True) : Prop :=
  ∀ a s', p.run s = (some a, s') → P a → s'.rest.size < s.rest.size

namespace Consumes

variable {p : Parser α} {s : State} {P : α → Prop} {R : β → Prop}

theorem bind
    (h : ∀ a s', p.run s = (some a, s') → s'.rest.size < s.rest.size ∨ Consumes (f a) s' R) :
    Consumes (p >>= f) s R := by
  intro b s'' run holds
  obtain ⟨a, s', head, tail⟩ := run_bind_eq_some.mp run
  have before := (advances_of_run head).size_le
  have after := (advances_of_run tail).size_le
  rcases h a s' head with less | later
  · omega
  · exact Nat.lt_of_lt_of_le (later b s'' tail holds) before

theorem first (h : Consumes p s) : Consumes (p >>= f) s R :=
  bind fun a s' run => .inl (h a s' run trivial)

theorem second (h : ∀ a s', p.run s = (some a, s') → Consumes (f a) s' R) :
    Consumes (p >>= f) s R :=
  bind fun a s' run => .inr (h a s' run)

theorem inspect {g : State → α} {framed impartial} (h : Consumes (f (g s)) s R) :
    Consumes (Parser.inspect g framed impartial >>= f) s R :=
  second fun a s' run => by
    obtain ⟨rfl, rfl⟩ : g s = a ∧ s = s' := by simpa [Parser.run] using run
    exact h

theorem pure {a : α} (h : ¬ P a) : Consumes (pure a) s P := by
  rintro _ _ ⟨⟩ holds
  exact absurd holds h

theorem never (fails : ∀ s, (p.run s).1 = none) : Consumes p s P := by
  intro a s' run
  cases (fails s).symm.trans (congrArg Prod.fst run)

theorem map {f : α → β} (h : Consumes p s) : Consumes (f <$> p) s R := h.first

theorem advance (h : s.kind ≠ .endOfFile) : Consumes advance s := by
  rintro _ _ ⟨⟩ _
  exact State.size_drop_lt h

theorem taking {k : Kind} {f : Unit → Parser β} (here : s.kind = k)
    (other : k ≠ .endOfFile) : Consumes (Parser.advance >>= f) s R :=
  (advance (here ▸ other)).first

theorem takeIdent (h : s.kind ≠ .endOfFile) : Consumes takeIdent s :=
  inspect (advance h).first

theorem spanned {first : Range} {p : Parser (Range → α)} (h : Consumes p s) :
    Consumes (spanned first p) s P := by
  intro a s' run _
  simp only [run_spanned] at run
  split at run
  · rename_i node t inner
    obtain ⟨_, rfl⟩ : node _ = a ∧ t = s' := by simpa using run
    exact h node t inner trivial
  · cases run

theorem ranged {p : Parser (Range → α)} (h : Consumes p s) : Consumes (ranged p) s P :=
  inspect (spanned h)

theorem nested (h : Consumes p (s.atNesting (s.nesting + 1))) : Consumes (nested p) s := by
  intro a s' run _
  simp only [run_nested] at run
  split at run
  · cases run
  · obtain ⟨result, rfl⟩ := Prod.mk.inj run
    exact h a (p.run _).2 (Prod.ext result rfl) trivial

theorem droppable (h : Consumes p (s.withDiscard false)) : Consumes (droppable p) s := by
  intro a s' run _
  simp only [run_droppable, Prod.mk.injEq] at run
  obtain ⟨result, rfl⟩ := run
  split at result
  · cases result
  · exact h a (p.run _).2 (Prod.ext result rfl) trivial

theorem attemptPast (h : Consumes p s) (file : s.kind ≠ .endOfFile) :
    Consumes (attemptPast p) s := by
  intro r s' run _
  have before := p.advances s
  simp only [run_attemptPast] at run
  split at run
  · rename_i a t inner
    obtain ⟨_, rfl⟩ : some a = r ∧ t = s' := by simpa using run
    exact h a t inner trivial
  · rename_i t inner
    rw [inner] at before
    obtain ⟨_, rfl⟩ : none = r ∧ _ = s' := by simpa using run
    have positive := State.size_drop_lt file
    have less : t.rest.size ≤ s.rest.size := before.size_le
    split
    · change t.rest.size - 1 < s.rest.size
      omega
    · omega

end Consumes

/-- No result of the three routines is read from nothing. -/
structure Consuming (g : Grammar) : Prop where
  expression : ∀ s, Consumes g.expression s
  operand : ∀ s, Consumes g.operand s
  statement : ∀ s, Consumes g.statement s

theorem Kind.isWord_ne {k : Kind} (h : k.isWord = true) : k ≠ .endOfFile := by
  rintro rfl
  cases h

theorem consumes_declaredName (s : State) : Consumes declaredName s := by
  refine .inspect ?_
  split
  · rename_i word
    exact (Consumes.takeIdent (Kind.isWord_ne word)).first
  · exact .never fun _ => rfl

theorem consumes_primary (g : Grammar) (s : State) : Consumes (primary g) s := by
  refine .inspect ?_
  split
  · rename_i name
    exact (Consumes.takeIdent (Kind.isWord_ne (congrArg Kind.isWord name))).map
  iterate 3 exact .ranged (.taking ‹_› (by decide))
  iterate 2 exact .inspect (.taking ‹_› (by decide))
  split
  · rename_i literal
    refine (Consumes.advance fun file => ?_).first
    rw [show s.token.kind = .endOfFile from file] at literal
    cases literal
  · exact .never fun _ => rfl

theorem consumes_operand (g : Grammar) (s : State) : Consumes (operand g) s := by
  refine .inspect ?_
  split
  · rename_i sign
    refine .nested (.inspect (Consumes.advance fun file => ?_).first)
    rw [show s.kind = .endOfFile from file] at sign
    cases sign
  · exact (consumes_primary g s).first

theorem consumes_expression (g : Grammar) (s : State) : Consumes (expression g) s := by
  have binary : Consumes (binary (operand g) conditionalLevel) (s.atNesting (s.nesting + 1)) :=
    (consumes_operand g _).first
  exact .nested binary.first

theorem consumes_statementBody (g : Grammar) (s : State) : Consumes (statementBody g) s := by
  refine .inspect ?_
  split
  · exact (consumes_declaredName s).first
  · refine .inspect ?_
    split
    · rename_i label
      simp only [State.atLabel, Bool.and_eq_true, decide_eq_true_eq] at label
      exact (Consumes.takeIdent (Kind.isWord_ne (congrArg Kind.isWord label.1.1))).first
    · refine .inspect ?_
      unfold byKeyword
      split
      iterate 3 exact .ranged (.taking ‹_› (by decide))
      iterate 2 exact .inspect (.taking ‹_› (by decide))
      iterate 3 exact .ranged (.taking ‹_› (by decide))
      iterate 5 exact .inspect (.taking ‹_› (by decide))
      split
      · exact .never fun _ => rfl
      · exact (consumes_operand g s).first

theorem consuming_unroll (n : Nat) : Consuming (unroll n) := by
  cases n with
  | zero => exact ⟨fun _ => .never fun _ => rfl, fun _ => .never fun _ => rfl,
      fun _ => .never fun _ => rfl⟩
  | succ n =>
    refine ⟨consumes_expression _, consumes_operand _, fun s => ?_⟩
    exact .nested (.droppable (consumes_statementBody _ _))

def RoundConsumes (p : Parser (Round σ α)) : Prop := ∀ s, Consumes p s fun r => ∃ y, r = .again y

def ItemConsumes (p : Parser (Option (List α))) : Prop := ∀ s, Consumes p s (·.isSome = true)

/-- Every loop of the grammar takes tokens as long as it goes on. -/
structure LoopsConsume (g : Grammar) : Prop where
  statements : ∀ closers, ItemConsumes (statementRound g closers)
  print : ItemConsumes (printRound g)
  array : ItemConsumes (elementRound g)
  assoc : ItemConsumes (memberRound g)
  arguments : ∀ args, RoundConsumes (argumentRound g args)
  parameters : ∀ seen, RoundConsumes (parameterRound g seen)
  accessors : ∀ e, RoundConsumes (accessRound g e)
  operators : ∀ operandAt level left, RoundConsumes (binaryRound operandAt level left)
  elseIfs : ∀ branches, ItemConsumes (elseIfRound g branches)
  inline : ∀ stmts, RoundConsumes (inlineRound g stmts)

namespace Consuming

variable {g : Grammar}

theorem statementRound (h : Consuming g) (closers : List Kind) :
    ItemConsumes (statementRound g closers) := by
  intro s
  refine .inspect ?_
  split
  · exact .taking ‹_› (by decide)
  · exact .taking ‹_› (by decide)
  · exact .pure (by simp)
  · have comment : Consumes comment s := .inspect (.taking ‹_› (by decide))
    have run : Consumes commentRun s := comment.first
    exact run.first
  · rename_i file _
    refine .inspect ?_
    split
    · exact .pure (by simp)
    · exact ((h.statement s).attemptPast file).first

theorem printRound (h : Consuming g) : ItemConsumes (printRound g) := by
  intro s
  refine .inspect ?_
  split
  · exact .pure (by simp)
  · rename_i goesOn
    have file : s.kind ≠ .endOfFile := by
      intro file
      rw [file] at goesOn
      exact goesOn rfl
    split
    · exact (Consumes.advance file).first
    · exact (h.expression s).first

theorem elementRound (h : Consuming g) : ItemConsumes (elementRound g) := by
  intro s
  refine .second fun _ t _ => .inspect ?_
  split
  · exact .pure (by simp)
  · exact (h.expression t).first

theorem memberRound (h : Consuming g) : ItemConsumes (memberRound g) := by
  intro s
  refine .second fun _ t _ => .inspect ?_
  split
  · exact .pure (by simp)
  · split
    · rename_i at_
      have comment : Consumes comment t := .inspect (.taking at_ (by decide))
      exact comment.first
    · refine .second fun _ _ _ => .second fun _ _ _ => .second fun _ u _ => ?_
      exact (h.expression u).first

theorem accessRound (g : Grammar) (e : Expr) : RoundConsumes (accessRound g e) := by
  intro s
  refine .inspect ?_
  split
  · exact (Consumes.spanned (.taking ‹_› (by decide))).map
  · exact .inspect (.taking ‹_› (by decide))
  · exact (Consumes.spanned (.taking ‹_› (by decide))).map
  · exact .pure (by simp)

theorem binaryRound (operandAt : Nat → Parser Expr) (level : Nat) (left : Expr) :
    RoundConsumes (binaryRound operandAt level left) := by
  intro s
  refine .inspect ?_
  split
  · rename_i binds
    split
    · refine (Consumes.advance fun file => ?_).first
      rw [show s.token.kind = .endOfFile from file] at binds
      cases binds
    · exact .pure (by simp)
  · exact .pure (by simp)

theorem elseIfRound (g : Grammar) (branches : Branches) : ItemConsumes (elseIfRound g branches) := by
  intro s
  refine .inspect ?_
  split
  · rename_i at_
    have clause : Consumes (elseIf g branches) s := .ranged (.taking (of_decide_eq_true at_) (by decide))
    exact clause.first
  · exact .pure (by simp)

theorem loopsConsume (h : Consuming g) : LoopsConsume g where
  statements := h.statementRound
  print := h.printRound
  array := h.elementRound
  assoc := h.memberRound
  arguments _ s := (h.expression s).first
  parameters _ s := by
    have parameter : Consumes (parameter g) s := .ranged (consumes_declaredName s).first
    exact parameter.first
  accessors := accessRound g
  operators := binaryRound
  elseIfs := elseIfRound g
  inline _ s := (h.statement s).first

end Consuming

/-- A parser that always has a result. -/
def Total (p : Parser α) : Prop := ∀ s, ∃ a s', p.run s = (some a, s')

theorem Total.bind {p : Parser α} (first : Total p) (second : ∀ a, Total (f a)) :
    Total (p >>= f) := by
  intro s
  obtain ⟨a, s', head⟩ := first s
  obtain ⟨b, s'', tail⟩ := second a s'
  exact ⟨b, s'', run_bind_eq_some.mpr ⟨a, s', head, tail⟩⟩

theorem Total.of_isSome {p : Parser α} (h : ∀ s, (p.run s).1.isSome = true) : Total p :=
  fun s => ⟨_, _, Prod.ext (Option.some_get (h s)).symm rfl⟩

theorem Total.then_ {p : Parser α} (h : ∀ s, (p.run s).1.isSome = true)
    (second : ∀ a, Total (f a)) :
    Total (p >>= f) :=
  (of_isSome h).bind second

theorem Total.pure {a : α} : Total (pure a) := of_isSome fun _ => rfl

theorem Total.attemptPast (p : Parser α) : Total (attemptPast p) := by
  refine of_isSome fun s => ?_
  simp only [run_attemptPast]
  split <;> rfl

theorem total_comment : Total comment :=
  .then_ (fun _ => rfl) fun _ => .then_ (fun _ => rfl) fun _ => .pure

theorem total_trailingComment : Total trailingComment := by
  refine .then_ (fun _ => rfl) fun _ => ?_
  split
  · exact total_comment.bind fun _ => .pure
  · exact .pure

theorem total_finishStatement (st : Stmt) : Total (finishStatement st) := by
  refine total_trailingComment.bind fun _ => .then_ (fun _ => rfl) fun _ => ?_
  split
  · exact .pure
  · refine .then_ (fun _ => rfl) fun _ => .then_ (fun _ => rfl) fun _ => ?_
    split <;> exact .then_ (fun _ => rfl) fun _ => .pure

theorem total_statementRound (g : Grammar) (closers : List Kind) :
    Total (statementRound g closers) := by
  refine .then_ (fun _ => rfl) fun _ => ?_
  split
  · exact .then_ (fun _ => rfl) fun _ => .pure
  · exact .then_ (fun _ => rfl) fun _ => .pure
  · exact .pure
  · have run : Total commentRun :=
      total_comment.bind fun _ => .then_ (fun _ => rfl) fun _ => .then_ (fun _ => rfl) fun _ => .pure
    exact run.bind fun _ => .pure
  · refine .then_ (fun _ => rfl) fun _ => ?_
    split
    · exact .pure
    · refine (Total.attemptPast _).bind fun r => ?_
      cases r with
      | some st => exact (total_finishStatement st).bind fun _ => .pure
      | none => exact .then_ (fun _ => rfl) fun _ => .pure

/- Induction on the tokens that are left: a round that goes on leaves fewer of them. -/
theorem Total.many_ends {round : Parser (Option (List α))} (total : Total round)
    (consumes : ItemConsumes round) (s : State) :
    ∃ all s' t, (many round).run s = (some all, s') ∧ s.Advances t ∧
      round.run t = (some none, s') := by
  unfold many
  generalize ([] : List α) = found
  induction size : s.rest.size using Nat.strongRecOn generalizing s found with
  | ind n ih =>
    obtain ⟨r, t, run⟩ := total s
    cases r with
    | none =>
      exact ⟨found.reverse, t, s, run_loop_done (run_manyRound_none run), .refl s, run⟩
    | some more =>
      have less := consumes s (some more) t run rfl
      obtain ⟨all, s', u, rest, advances, last⟩ := ih _ (size ▸ less) t (more.reverse ++ found) rfl
      exact ⟨all, s', u, (run_loop_again (run_manyRound_some run) less).trans rest,
        (advances_of_run run).trans advances, last⟩

theorem kind_of_statementRound_none {g : Grammar} {s s' : State} (outside : s.functions = 0)
    (run : (statementRound g []).run s = (some none, s')) : s'.kind = .endOfFile := by
  obtain ⟨k, t, head, tail⟩ := run_bind_eq_some.mp run
  obtain ⟨rfl, rfl⟩ : s.kind = k ∧ s = t := by simpa [kind, Parser.run] using head
  split at tail
  · simp [run_bind_eq_some, pure, Parser.run] at tail
  · simp [run_bind_eq_some, pure, Parser.run] at tail
  · rename_i file
    obtain rfl : s = s' := by simpa [pure, Parser.run] using tail
    exact file
  · simp [run_bind_eq_some, pure, Parser.run] at tail
  · exfalso
    obtain ⟨closed, t, head, tail⟩ := run_bind_eq_some.mp tail
    obtain ⟨rfl, rfl⟩ : s.closes [] = closed ∧ s = t := by simpa [Parser.run] using head
    have open_ : s.closes [] = false := by simp [State.closes, outside]
    rw [open_] at tail
    obtain ⟨r, t, _, tail⟩ := run_bind_eq_some.mp tail
    cases r <;> simp [run_bind_eq_some, pure, Parser.run] at tail

end Parser

open BrightScript.Parser in
/-- Parsing ends for every token list. The recursion never gets to where its unrolling stops, so
any routines may stand there; at every level results cost tokens and loops take one in each round
after which they go on; and the outermost loop ends at the end of the file. -/
theorem parse_ends (mode : Mode) (tokens : List Token) :
    (∀ bottom, (Parser.statements (unrollFrom bottom (maxNesting + 1)) []).run (.start mode tokens) =
      (Parser.statements grammar []).run (.start mode tokens)) ∧
    (∀ n, Consuming (unroll n) ∧ LoopsConsume (unroll n)) ∧
    ∃ stmts s, (Parser.statements grammar []).run (.start mode tokens) = (some stmts, s) ∧
      parse mode tokens = ⟨stmts, s.diagnostics⟩ ∧
      (s.rest.items = [] ∨ ∃ t rest, s.rest.items = t :: rest ∧ t.kind = .endOfFile) := by
  refine ⟨fun bottom => ?_, fun n => ⟨consuming_unroll n, (consuming_unroll n).loopsConsume⟩, ?_⟩
  · exact run_unrollFrom bottom [] (Nat.zero_le _)
  · obtain ⟨stmts, s, t, run, advances, last⟩ :=
      (total_statementRound grammar []).many_ends ((consuming_unroll _).statementRound [])
        (.start mode tokens)
    refine ⟨stmts, s, run, ?_, ?_⟩
    · unfold parse
      rw [Parser.statements, run]
      rfl
    · have file := kind_of_statementRound_none (advances.functions) last
      cases items : s.rest.items with
      | nil => exact .inl rfl
      | cons t rest =>
        refine .inr ⟨t, rest, rfl, ?_⟩
        simpa [State.kind, State.token, Input.head?, items] using file

end BrightScript
