import BrightScript.Proofs.Parser.Bounds
import BrightScript.Proofs.Parser.Inversion

/-! A run in BrightScript along one in BrighterScript.
A text that BrighterScript reads without a report is read again in BrightScript, with the same
tokens taken. The state differs only in its mode, its mark and its reports, which are all about
the conditional operator. A parser retraces a run if it ends with a result where the run did; a
statement that is marked is lost there or further on. -/
namespace BrightScript.Parser

variable {α β σ : Type} {a : α} {round : σ → Parser (Round σ α)} {x : σ} {k : Kind} {first : Range}
  {I : σ → Prop} {found : List α}

def Unsupported (reports : List Diagnostic) : Prop := ∀ d ∈ reports, d.code = 1061

namespace State

def gated (marked : Bool) (reports : List Diagnostic) (s : State) : State :=
  { s with mode := .brightScript, discard := marked, diagnostics := reports }

def onto (items : List Token) (s : State) : State := { s with rest := .ofList items }

theorem nesting_gated (m : Bool) (r : List Diagnostic) (s : State) :
    (s.gated m r).nesting = s.nesting := rfl

theorem atNesting_gated (m : Bool) (r : List Diagnostic) (s : State) (n : Nat) :
    (s.gated m r).atNesting n = (s.atNesting n).gated m r := rfl

theorem withDiscard_gated (m n : Bool) (r : List Diagnostic) (s : State) :
    (s.gated m r).withDiscard n = (s.withDiscard n).gated n r := rfl

/-- A place in a token list, without a mark. -/
structure Settled (tokens : List Token) (s : State) : Prop where
  unmarked : s.discard = false
  within : s.rest.items <:+ tokens ∧ ∀ t ∈ tokens, t.range.stop ≤ s.finish

theorem Settled.reads {tokens : List Token} {p : Parser α} {s s' : State} (h : s.Settled tokens)
    (run : Reads p s a s') : s'.Settled tokens :=
  ⟨run.discard_eq.trans h.unmarked, run.advances.suffix.trans h.within.1,
    fun t mem => run.advances.finish ▸ h.within.2 t mem⟩

theorem Settled.sound {tokens : List Token} {s : State} (h : s.Settled tokens)
    (ordered : Ordered tokens) : s.Sound :=
  ⟨ordered.suffix h.within.1, fun t mem => h.within.2 t (h.within.1.subset mem)⟩

theorem gated_onto_eq {s s' : State} {m m' n : Bool} {r r' q : List Diagnostic}
    (h : (s.gated m r).Advances (s'.gated m' r')) (items : List Token) :
    (s'.onto items).gated n q = (s.onto items).gated n q := by
  have finish : s'.finish = s.finish := h.finish
  have nesting : s'.nesting = s.nesting := h.nesting
  have functions : s'.functions = s.functions := h.functions
  simp [gated, onto, finish, nesting, functions]

theorem onto_items (s : State) : s.onto s.rest.items = s := by
  have same : Input.ofList s.rest.items = s.rest := Input.eq_of_items rfl
  simp [onto, same]

theorem skipWhile_eq_onto (skips : Kind → Bool) (s : State) :
    s.skipWhile skips = s.onto (s.rest.items.dropWhile fun t => skips t.kind) := by
  have same : s.rest.drop (s.rest.items.takeWhile fun t => skips t.kind).length =
      .ofList (s.rest.items.dropWhile fun t => skips t.kind) :=
    Input.eq_of_items (Input.items_skipWhile (fun t : Token => skips t.kind) s.rest)
  simp only [skipWhile, drop, onto, same]

end State

/-- A run without a report is the same in BrightScript, whether there is a mark or not. -/
def Neutral (p : Parser α) : Prop :=
  ∀ s a s', Reads p s a s' → ∀ marked reports,
    p.run (s.gated marked reports) = (some a, s'.gated marked reports)

namespace Neutral

variable {p : Parser α} {f : α → Parser β}

theorem inspect {f : State → α} {framed impartial}
    (same : ∀ marked reports s, f (State.gated marked reports s) = f s) :
    Neutral (inspect f framed impartial) := by
  intro s a s' run marked reports
  obtain ⟨rfl, rfl⟩ := reads_inspect.mp run
  change (some (f (s.gated marked reports)), _) = _
  rw [same]

theorem pure : Neutral (Pure.pure a) := .inspect fun _ _ _ => rfl

theorem take {n : Nat} : Neutral (take n) := by
  intro s _ s' run marked reports
  obtain rfl := reads_take.mp run
  rfl

theorem advance : Neutral advance := take

theorem member : Neutral member := by
  intro s _ s' run marked reports
  obtain ⟨rfl, rfl⟩ := reads_member.mp run
  rfl

theorem skipWhile {skips : Kind → Bool} : Neutral (skipWhile skips) := by
  intro s _ s' run marked reports
  obtain rfl := reads_skipWhile.mp run
  rfl

theorem never (fails : ∀ s a s', ¬ Reads p s a s') : Neutral p :=
  fun s a s' run => absurd run (fails s a s')

theorem bind (first : Neutral p) (second : ∀ a, Neutral (f a)) : Neutral (p >>= f) := by
  intro s b s'' run marked reports
  obtain ⟨a, s', head, tail⟩ := reads_bind.mp run
  rw [run_bind, first s a s' head]
  exact second a s' b s'' tail marked reports

theorem accept : Neutral (accept k) := by
  refine .bind (.inspect fun _ _ _ => rfl) fun found => ?_
  cases found with
  | true => exact .bind .advance fun _ => .pure
  | false => exact .pure

theorem expect : Neutral (expect k) := by
  refine .bind .accept fun found => ?_
  cases found with
  | true => exact .pure
  | false => exact .never (by simp)

theorem takeIdent : Neutral takeIdent :=
  .bind (.inspect fun _ _ _ => rfl) fun _ => .bind .advance fun _ => .pure

theorem comment : Neutral comment :=
  .bind (.inspect fun _ _ _ => rfl) fun _ => .bind .advance fun _ => .pure

theorem commentRun : Neutral commentRun :=
  .bind .comment fun _ => .bind (.inspect fun _ _ _ => rfl) fun _ => .bind .take fun _ => .pure

theorem trailingComment : Neutral trailingComment := by
  refine .bind (.inspect fun _ _ _ => rfl) fun found => ?_
  cases found with
  | true => exact .bind .comment fun _ => .pure
  | false => exact .pure

theorem finishStatement {st : Stmt} : Neutral (finishStatement st) := by
  refine .bind .trailingComment fun comments => .bind (.inspect fun _ _ _ => rfl) fun k => ?_
  split
  · exact .pure
  · exact .never (by simp [reads_bind])

theorem declaredName : Neutral declaredName := by
  refine .bind (.inspect fun _ _ _ => rfl) fun k => ?_
  split
  · refine .bind .takeIdent fun name => ?_
    split
    · exact .never (by simp [reads_bind])
    · split
      · exact .never (by simp [reads_bind])
      · exact .pure
  · exact .never (by simp)

theorem asType {missing : Ty} : Neutral (asType missing) := by
  refine .bind (.inspect fun _ _ _ => rfl) fun found => ?_
  cases found with
  | false => exact .pure
  | true =>
    refine .bind .advance fun _ => .bind (.inspect fun _ _ _ => rfl) fun t => ?_
    split
    · refine .bind .advance fun _ => ?_
      split
      · exact .pure
      · exact .never (by simp [reads_bind])
    · exact .never (by simp)

theorem separator {closer : Kind} : Neutral (separator closer) := by
  refine .bind .accept fun found => ?_
  cases found with
  | true => exact .pure
  | false =>
    refine .bind (.inspect fun _ _ _ => rfl) fun k => ?_
    split
    · exact .pure
    · exact .never (by simp)

theorem memberKey : Neutral memberKey := by
  refine .bind (.inspect fun _ _ _ => rfl) fun t => ?_
  split
  · refine .bind .member fun _ => ?_
    split <;> exact .pure
  · split
    · exact .bind .member fun _ => .pure
    · exact .never (by simp)

theorem close {closer : Kind} {construct : String} : Neutral (close closer construct) := by
  refine .bind .accept fun found => ?_
  cases found with
  | true => exact .pure
  | false => exact .never (by simp)

theorem closeFunction {isSub : Bool} : Neutral (closeFunction isSub) := by
  refine .bind (.inspect fun _ _ _ => rfl) fun k => ?_
  dsimp only
  by_cases closer : k = if isSub then .endSub else .endFunction
  · rw [if_pos closer]
    split
    · exact .advance
    · exact .pure
  · rw [if_neg closer]
    exact .never (by simp [reads_bind])

theorem closeFor : Neutral closeFor := by
  refine .bind .accept fun found => ?_
  cases found with
  | true => exact .bind .accept fun _ => .pure
  | false => exact .close

end Neutral

variable (tokens : List Token)

/-- In BrightScript `p` goes from `s` to `s'`, sets the mark if `uses` says so and ends with a
result that has the property `P`. -/
def Retraces (p : Parser α) (s s' : State) (uses : Bool) (P : α → Prop) : Prop :=
  s.Settled tokens → s'.Settled tokens ∧ ∀ marked reports, Unsupported reports →
    ∃ b more, Unsupported more ∧
      p.run (s.gated marked reports) = (some b, s'.gated (marked || uses) more) ∧ P b

/-- In BrightScript `p` goes from `s` to where `items` are left and fails, with the mark as it
was. -/
def Loses (p : Parser α) (s : State) (items : List Token) : Prop :=
  s.Settled tokens → ∀ marked reports, Unsupported reports →
    ∃ more, Unsupported more ∧
      p.run (s.gated marked reports) = (none, (s.onto items).gated marked more)

/-- In BrightScript `p` fails somewhere further on, perhaps with the mark set on the way, and the
tokens that are left have the property `V`. -/
def Drops (p : Parser α) (s : State) (V : List Token → Prop) : Prop :=
  s.Settled tokens → ∀ marked reports, Unsupported reports →
    ∃ items marked' more, V items ∧ Unsupported more ∧
      p.run (s.gated marked reports) = (none, (s.onto items).gated marked' more)

variable {tokens} {p : Parser α} {f : α → Parser β} {q : Parser β} {s s' s'' : State} {m n : Bool}
  {P : α → Prop} {Q : β → Prop} {items : List Token} {V : List Token → Prop}

/-- `q` runs `p` and goes on with `f`, at least where `p` goes from `s` to `s'`. -/
structure Sequel (p : Parser α) (f : α → Parser β) (q : Parser β) (s s' : State) : Prop where
  fails : ∀ {t t'}, p.run t = (none, t') → q.run t = (none, t')
  goesOn : ∀ {b t t'}, p.run t = (some b, t') → t.rest = s.rest → t'.rest = s'.rest →
    q.run t = (f b).run t'

namespace Sequel

theorem bind : Sequel p f (p >>= f) s s' :=
  ⟨fun run => by rw [run_bind, run], fun run _ _ => by rw [run_bind, run]⟩

theorem loop (less : s'.rest.size < s.rest.size) :
    Sequel (round x) (fun
      | .again y => loop round y
      | .done a => Pure.pure a) (loop round x) s s' := by
  refine ⟨run_loop_failed, fun {r t t'} run rest rest' => ?_⟩
  cases r with
  | again y => exact run_loop_again run (by rwa [rest, rest'])
  | done a => exact run_loop_done run

end Sequel

namespace Retraces

theorem of_neutral (neutral : Neutral p) (run : Reads p s a s') :
    Retraces tokens p s s' false (· = a) := by
  refine fun settled => ⟨settled.reads run, fun marked reports only => ⟨a, reports, only, ?_, rfl⟩⟩
  rw [Bool.or_false]
  exact neutral s a s' run marked reports

theorem through (h : Retraces tokens p s s' m P)
    (ends : ∀ {b t t'}, P b → p.run t = (some b, t') → ∃ c, q.run t = (some c, t') ∧ Q c) :
    Retraces tokens q s s' m Q := by
  refine fun settled => ⟨(h settled).1, fun marked reports only => ?_⟩
  obtain ⟨b, more, only', run, holds⟩ := (h settled).2 marked reports only
  obtain ⟨c, run', holds'⟩ := ends holds run
  exact ⟨c, more, only', run', holds'⟩

theorem mono {R : α → Prop} (h : Retraces tokens p s s' m P) (weaker : ∀ a, P a → R a) :
    Retraces tokens p s s' m R := h.through fun {b _ _} holds run => ⟨b, run, weaker b holds⟩

theorem pure (holds : P a) : Retraces tokens (pure a) s s false P :=
  (of_neutral .pure (reads_pure.mpr ⟨rfl, rfl⟩)).mono fun _ same => same ▸ holds

theorem sequel (next : Sequel p f q s s') (first : Retraces tokens p s s' m P)
    (second : ∀ b, P b → Retraces tokens (f b) s' s'' n Q) :
    Retraces tokens q s s'' (m || n) Q := by
  intro settled
  obtain ⟨settled', head⟩ := first settled
  have last : s''.Settled tokens := by
    obtain ⟨b, _, _, _, holds⟩ := head false [] (by simp [Unsupported])
    exact (second b holds settled').1
  refine ⟨last, fun marked reports only => ?_⟩
  obtain ⟨b, between, only', run, holds⟩ := head marked reports only
  obtain ⟨c, more, only'', run', holds'⟩ := (second b holds settled').2 (marked || m) between only'
  refine ⟨c, more, only'', ?_, holds'⟩
  rw [next.goesOn run rfl rfl, ← Bool.or_assoc]
  exact run'

theorem bind (first : Retraces tokens p s s' m P)
    (second : ∀ b, P b → Retraces tokens (f b) s' s'' n Q) :
    Retraces tokens (p >>= f) s s'' (m || n) Q := sequel .bind first second

theorem then_ (first : Retraces tokens p s s' m P)
    (second : ∀ b, P b → Retraces tokens (f b) s' s'' false Q) :
    Retraces tokens (p >>= f) s s'' m Q := by
  have whole := first.bind second
  rwa [Bool.or_false] at whole

theorem cast (h : Retraces tokens p s s' m P) (same : m = n) : Retraces tokens p s s' n P :=
  same ▸ h

theorem neutral_bind (neutral : Neutral p) (run : Reads p s a s')
    (second : Retraces tokens (f a) s' s'' n Q) : Retraces tokens (p >>= f) s s'' n Q := by
  have first : Retraces tokens p s s' false (· = a) := of_neutral neutral run
  have whole := first.bind fun b (same : b = a) =>
    show Retraces tokens (f b) s' s'' n Q from same ▸ second
  rwa [Bool.false_or] at whole

section

variable {f : Unit → Parser β} {f' : Bool → Parser β}

theorem advance (rest : Retraces tokens (f ()) (s.drop 1) s'' n Q) :
    Retraces tokens (Parser.advance >>= f) s s'' n Q :=
  neutral_bind .advance (a := ()) (reads_advance.mpr rfl) rest

theorem skipWhile {skips : Kind → Bool} (rest : Retraces tokens (f ()) (s.skipWhile skips) s'' n Q) :
    Retraces tokens (Parser.skipWhile skips >>= f) s s'' n Q :=
  neutral_bind .skipWhile (a := ()) (reads_skipWhile.mpr rfl) rest

theorem skipNewlines (rest : Retraces tokens (f ()) (s.skipWhile (· = .newline)) s'' n Q) :
    Retraces tokens (Parser.skipNewlines >>= f) s s'' n Q := skipWhile rest

theorem expect (here : s.kind = k) (rest : Retraces tokens (f ()) (s.drop 1) s'' n Q) :
    Retraces tokens (Parser.expect k >>= f) s s'' n Q :=
  neutral_bind .expect (a := ()) (reads_expect.mpr ⟨here, rfl⟩) rest

theorem accept (here : s.kind = k) (rest : Retraces tokens (f' true) (s.drop 1) s'' n Q) :
    Retraces tokens (Parser.accept k >>= f') s s'' n Q :=
  neutral_bind .accept (reads_accept.mpr (.inl ⟨here, rfl, rfl⟩)) rest

theorem accept_not (other : s.kind ≠ k) (rest : Retraces tokens (f' false) s s'' n Q) :
    Retraces tokens (Parser.accept k >>= f') s s'' n Q :=
  neutral_bind .accept (reads_accept.mpr (.inr ⟨other, rfl, rfl⟩)) rest

theorem past (rest : ∀ found, Retraces tokens (f' found) (s.past k) s'' n Q) :
    Retraces tokens (Parser.accept k >>= f') s s'' n Q :=
  (Reads.of_past k s).elim fun found run => neutral_bind .accept run (rest found)

theorem isAt (here : s.kind = k) (rest : Retraces tokens (f' true) s s'' n Q) :
    Retraces tokens (Parser.isAt k >>= f') s s'' n Q :=
  neutral_bind (.inspect fun _ _ _ => rfl) (reads_isAt.mpr ⟨decide_eq_true here, rfl⟩) rest

theorem isAt_not (other : s.kind ≠ k) (rest : Retraces tokens (f' false) s s'' n Q) :
    Retraces tokens (Parser.isAt k >>= f') s s'' n Q :=
  neutral_bind (.inspect fun _ _ _ => rfl) (reads_isAt.mpr ⟨decide_eq_false other, rfl⟩) rest

theorem kind {f : Kind → Parser β} (rest : Retraces tokens (f s.kind) s s'' n Q) :
    Retraces tokens (Parser.kind >>= f) s s'' n Q :=
  neutral_bind (.inspect fun _ _ _ => rfl) (reads_kind.mpr ⟨rfl, rfl⟩) rest

theorem token {f : Token → Parser β} (rest : Retraces tokens (f s.token) s s'' n Q) :
    Retraces tokens (Parser.token >>= f) s s'' n Q :=
  neutral_bind (.inspect fun _ _ _ => rfl) (reads_token.mpr ⟨rfl, rfl⟩) rest

theorem here {f : Range → Parser β} (rest : Retraces tokens (f s.range) s s'' n Q) :
    Retraces tokens (Parser.here >>= f) s s'' n Q :=
  neutral_bind (.inspect fun _ _ _ => rfl) (reads_here.mpr ⟨rfl, rfl⟩) rest

end

theorem map {g : α → β} (h : Retraces tokens p s s' m P) (image : ∀ a, P a → Q (g a)) :
    Retraces tokens (g <$> p) s s' m Q :=
  h.then_ fun b holds => pure (image b holds)

theorem spanned {p : Parser (Range → α)}
    (h : Retraces tokens p s s' m fun node => ∀ range, P (node range)) :
    Retraces tokens (spanned first p) s s' m P :=
  h.through fun holds run => ⟨_, by simp only [run_spanned, run]; rfl, holds _⟩

theorem ranged {p : Parser (Range → α)}
    (h : Retraces tokens p s s' m fun node => ∀ range, P (node range)) :
    Retraces tokens (ranged p) s s' m P :=
  here h.spanned

theorem withCleanup {cleanup : Parser Unit} (h : Retraces tokens p s s' m P) :
    Retraces tokens (withCleanup p cleanup) s s' m P :=
  h.through fun holds run => ⟨_, by simp only [run_withCleanup, run], holds⟩

theorem nested (shallow : s.nesting < maxNesting)
    (h : Retraces tokens p (s.atNesting (s.nesting + 1)) s' m P) :
    Retraces tokens (nested p) s (s'.atNesting s.nesting) m P := by
  intro settled
  obtain ⟨settled', inner⟩ := h ⟨settled.unmarked, settled.within⟩
  refine ⟨⟨settled'.unmarked, settled'.within⟩, fun marked reports only => ?_⟩
  obtain ⟨b, more, only', run, holds⟩ := inner marked reports only
  refine ⟨b, more, only', ?_, holds⟩
  have level : s'.nesting = s.nesting + 1 := (advances_of_run run).nesting
  have deep : ¬ maxNesting ≤ s.nesting := Nat.not_le.mpr shallow
  simp only [run_nested, State.nesting_gated, deep, if_false, State.atNesting_gated, run]
  simp [State.gated, State.atNesting, level]

theorem inFunction (h : Retraces tokens p (s.atFunctions (s.functions + 1)) s' m P) :
    Retraces tokens (inFunction p) s (s'.atFunctions s.functions) m P := by
  intro settled
  obtain ⟨settled', inner⟩ := h ⟨settled.unmarked, settled.within⟩
  refine ⟨⟨settled'.unmarked, settled'.within⟩, fun marked reports only => ?_⟩
  obtain ⟨b, more, only', run, holds⟩ := inner marked reports only
  refine ⟨b, more, only', ?_, holds⟩
  have level : s'.functions = s.functions + 1 := (advances_of_run run).functions
  have start : (s.gated marked reports).atFunctions ((s.gated marked reports).functions + 1) =
      (s.atFunctions (s.functions + 1)).gated marked reports := rfl
  simp only [run_inFunction, start, run]
  simp [State.gated, State.atFunctions, level]

theorem droppable (h : Retraces tokens p (s.withDiscard false) s' false P) :
    Retraces tokens (droppable p) s (s'.withDiscard s.discard) false P := by
  intro settled
  obtain ⟨settled', inner⟩ := h ⟨rfl, settled.within⟩
  refine ⟨⟨settled.unmarked, settled'.within⟩, fun marked reports only => ?_⟩
  obtain ⟨b, more, only', run, holds⟩ := inner false reports only
  refine ⟨b, more, only', ?_, holds⟩
  simp only [run_droppable, State.withDiscard_gated, run]
  simp [State.gated, State.withDiscard]

theorem loop_done (last : Retraces tokens (round x) s s' m fun r => ∃ b, r = .done b ∧ P b) :
    Retraces tokens (loop round x) s s' m P := by
  refine last.through ?_
  rintro _ t _ ⟨b, rfl, holds⟩ run
  exact ⟨b, run_loop_done run, holds⟩

theorem loop_again (first : Retraces tokens (round x) s s' m fun r => ∃ y, r = .again y ∧ I y)
    (less : s'.rest.size < s.rest.size)
    (rest : ∀ y, I y → Retraces tokens (loop round y) s' s'' n P) :
    Retraces tokens (loop round x) s s'' (m || n) P := by
  refine sequel (.loop less) first ?_
  rintro _ ⟨y, rfl, holds⟩
  exact rest y holds

theorem many_none {round : Parser (Option (List α))}
    (last : Retraces tokens round s s' m (· = none)) :
    Retraces tokens (loop (manyRound round) found) s s' m fun _ => True := by
  refine loop_done (last.then_ ?_)
  rintro _ rfl
  exact pure ⟨_, rfl, trivial⟩

theorem many_some {round : Parser (Option (List α))}
    (first : Retraces tokens round s s' m fun r => ∃ more, r = some more)
    (less : s'.rest.size < s.rest.size)
    (rest : ∀ found, Retraces tokens (loop (manyRound round) found) s' s'' n fun _ => True) :
    Retraces tokens (loop (manyRound round) found) s s'' (m || n) fun _ => True := by
  refine loop_again (I := fun _ => True) (first.then_ ?_) less fun found _ => rest found
  rintro _ ⟨more, rfl⟩
  exact pure ⟨_, rfl, trivial⟩

theorem attemptPast (h : Retraces tokens p s s' m P) :
    Retraces tokens (attemptPast p) s s' m fun r => ∃ a, r = some a ∧ P a :=
  h.through fun {b _ _} holds run => ⟨_, by simp only [run_attemptPast, run], b, rfl, holds⟩

end Retraces

namespace Loses

theorem drops (h : Loses tokens p s items) (holds : V items) : Drops tokens p s V := by
  intro settled marked reports only
  obtain ⟨more, only', run⟩ := h settled marked reports only
  exact ⟨items, marked, more, holds, only', run⟩

theorem nested (shallow : s.nesting < maxNesting)
    (h : Loses tokens p (s.atNesting (s.nesting + 1)) items) :
    Loses tokens (nested p) s items := by
  intro settled marked reports only
  obtain ⟨more, only', run⟩ := h ⟨settled.unmarked, settled.within⟩ marked reports only
  refine ⟨more, only', ?_⟩
  have deep : ¬ maxNesting ≤ s.nesting := Nat.not_le.mpr shallow
  simp only [run_nested, State.nesting_gated, deep, if_false, State.atNesting_gated, run]
  rfl

theorem of_marked (h : Retraces tokens p (s.withDiscard false) s' true P) :
    Loses tokens (droppable p) s s'.rest.items := by
  intro settled marked reports only
  obtain ⟨b, more, only', run, _⟩ := (h ⟨rfl, settled.within⟩).2 false reports only
  refine ⟨more, only', ?_⟩
  have place := State.gated_onto_eq (n := marked) (q := more) (advances_of_run run) s'.rest.items
  rw [State.onto_items] at place
  simp only [run_droppable, State.withDiscard_gated, run]
  exact congrArg (Prod.mk none) place

theorem of_drops (h : Drops tokens p (s.withDiscard false) (· = items)) :
    Loses tokens (droppable p) s items := by
  intro settled marked reports only
  obtain ⟨_, marked', more, rfl, only', run⟩ := h ⟨rfl, settled.within⟩ false reports only
  refine ⟨more, only', ?_⟩
  simp only [run_droppable, State.withDiscard_gated, run, ite_self]
  rfl

theorem attemptPast (h : Loses tokens p s items) (less : items.length < s.rest.size)
    (suffix : items <:+ s.rest.items) :
    Retraces tokens (attemptPast p) s (s.onto items) false (· = none) := by
  refine fun settled => ⟨⟨settled.unmarked, suffix.trans settled.within.1, settled.within.2⟩,
    fun marked reports only => ?_⟩
  obtain ⟨more, only', run⟩ := h settled marked reports only
  refine ⟨none, more, only', ?_, rfl⟩
  have moved : ¬ ((s.onto items).gated marked more).rest.size = (s.gated marked reports).rest.size :=
    Nat.ne_of_lt less
  simp only [run_attemptPast, run, moved, if_false, Bool.or_false]

end Loses

namespace Drops

theorem mono {W : List Token → Prop} (h : Drops tokens p s V) (weaker : ∀ items, V items → W items) :
    Drops tokens p s W := by
  intro settled marked reports only
  obtain ⟨items, marked', more, holds, only', run⟩ := h settled marked reports only
  exact ⟨items, marked', more, weaker items holds, only', run⟩

theorem through (h : Drops tokens p s V)
    (fails : ∀ {t t'}, p.run t = (none, t') → q.run t = (none, t')) : Drops tokens q s V := by
  intro settled marked reports only
  obtain ⟨items, marked', more, holds, only', run⟩ := h settled marked reports only
  exact ⟨items, marked', more, holds, only', fails run⟩

theorem bind_left (h : Drops tokens p s V) : Drops tokens (p >>= f) s V :=
  h.through fun run => by rw [run_bind, run]

theorem sequel (next : Sequel p f q s s') (first : Retraces tokens p s s' m P)
    (second : ∀ b, P b → Drops tokens (f b) s' V) : Drops tokens q s V := by
  intro settled marked reports only
  obtain ⟨settled', head⟩ := first settled
  obtain ⟨b, between, only', run, holds⟩ := head marked reports only
  obtain ⟨items, marked', more, fallen, only'', run'⟩ :=
    second b holds settled' (marked || m) between only'
  refine ⟨items, marked', more, fallen, only'', ?_⟩
  rw [next.goesOn run rfl rfl, ← State.gated_onto_eq (advances_of_run run)]
  exact run'

theorem bind_right (first : Retraces tokens p s s' m P)
    (second : ∀ b, P b → Drops tokens (f b) s' V) : Drops tokens (p >>= f) s V :=
  sequel .bind first second

theorem spanned {p : Parser (Range → α)} (h : Drops tokens p s V) :
    Drops tokens (spanned first p) s V :=
  h.through fun run => by simp only [run_spanned, run]

end Drops

def pastLine (items : List Token) : List Token := items.dropWhile fun t => skipsInlineIf t.kind

theorem pastLine_pastLine (items : List Token) : pastLine (pastLine items) = pastLine items := by
  induction items with
  | nil => rfl
  | cons t rest ih => cases skips : skipsInlineIf t.kind <;> simp_all [pastLine]

theorem Drops.withCleanup (h : Drops tokens p s fun left => pastLine left = items) :
    Drops tokens (withCleanup p synchronizeInlineIf) s (· = items) := by
  intro settled marked reports only
  obtain ⟨left, marked', more, rfl, only', run⟩ := h settled marked reports only
  refine ⟨_, marked', more, rfl, only', ?_⟩
  simp only [run_withCleanup, run]
  exact congrArg (Prod.mk none) (State.skipWhile_eq_onto _ _)

/-- The tokens from `s` to `s'` that start at the position or later can all be skipped. -/
def Clear (position : Position) (s s' : State) : Prop :=
  ∀ taken, s.rest.items = taken ++ s'.rest.items →
    ∀ t ∈ taken, position ≤ t.range.start → skipsInlineIf t.kind = true

namespace Clear

variable {position : Position}

theorem left (h : Clear position s s'') (onward : s''.rest.items <:+ s'.rest.items) :
    Clear position s s' := by
  intro taken items t mem
  obtain ⟨rest, items'⟩ := onward
  refine h (taken ++ rest) ?_ t (List.mem_append_left _ mem)
  rw [items, ← items', List.append_assoc]

theorem right (h : Clear position s s'') (onward : s'.rest.items <:+ s.rest.items) :
    Clear position s' s'' := by
  intro taken items t mem
  obtain ⟨first, items'⟩ := onward
  refine h (first ++ taken) ?_ t (List.mem_append_right _ mem)
  rw [← items', items, List.append_assoc]

theorem pastLine_eq (h : Clear position s s') (onward : s'.rest.items <:+ s.rest.items)
    (after : s.After position) : pastLine s.rest.items = pastLine s'.rest.items := by
  obtain ⟨taken, items⟩ := onward
  have skipped : ∀ t ∈ taken, skipsInlineIf t.kind = true := fun t mem =>
    h taken items.symm t mem (after t (items ▸ List.mem_append_left _ mem))
  rw [← items, pastLine, List.dropWhile_append_of_pos skipped]
  rfl

end Clear

/-- What becomes of a part of a single-line `if`, from `s` to `s'`: it is read to its end, unless
one of its statements is lost at the position; then the rest of the line is where the part ended,
as long as all that is left of it can be skipped. -/
structure Branch (tokens : List Token) (p : Parser α) (s s' : State) (uses : Bool)
    (lostAt : Option Position) (P : α → Prop) : Prop where
  onward : s'.rest.items <:+ s.rest.items
  kept : lostAt = none → Retraces tokens p s s' uses P
  lost : ∀ position, lostAt = some position → s.Settled tokens → s'.After position ∧
    (Clear position s s' → Drops tokens p s fun items => pastLine items = pastLine s'.rest.items)

namespace Branch

variable {c next : Option Position}

theorem of_retraces (onward : s'.rest.items <:+ s.rest.items) (h : Retraces tokens p s s' m P) :
    Branch tokens p s s' m none P :=
  ⟨onward, fun _ => h, fun _ cut => nomatch cut⟩

theorem sequel (step : Sequel p f q s s') (first : Branch tokens p s s' m c P)
    (onward : s''.rest.items <:+ s'.rest.items)
    (second : ∀ b, P b → Branch tokens (f b) s' s'' n next Q) :
    Branch tokens q s s'' (m || n) (c.or next) Q := by
  refine ⟨onward.trans first.onward, fun none => ?_, fun position found settled => ?_⟩
  · obtain ⟨rfl, rfl⟩ := Option.or_eq_none_iff.mp none
    exact .sequel step (first.kept rfl) fun b holds => (second b holds).kept rfl
  · cases c with
    | some here =>
      obtain rfl : here = position := Option.some.inj found
      obtain ⟨after, drops⟩ := first.lost here rfl settled
      refine ⟨fun t mem => after t (onward.subset mem), fun clear => .through ?_ step.fails⟩
      refine (drops (clear.left onward)).mono fun items same => same.trans ?_
      exact (clear.right first.onward).pastLine_eq onward after
    | none =>
      obtain ⟨settled', run⟩ := first.kept rfl settled
      obtain ⟨b, _, _, _, holds⟩ := run false [] (by simp [Unsupported])
      refine ⟨((second b holds).lost position found settled').1, fun clear => ?_⟩
      refine .sequel step (first.kept rfl) fun b holds => ?_
      exact ((second b holds).lost position found settled').2 (clear.right first.onward)

theorem bind (first : Branch tokens p s s' m c P) (onward : s''.rest.items <:+ s'.rest.items)
    (second : ∀ b, P b → Branch tokens (f b) s' s'' n next Q) :
    Branch tokens (p >>= f) s s'' (m || n) (c.or next) Q := sequel .bind first onward second

theorem retraces_bind (onward : s'.rest.items <:+ s.rest.items) (onward' : s''.rest.items <:+ s'.rest.items)
    (first : Retraces tokens p s s' m P)
    (second : ∀ b, P b → Branch tokens (f b) s' s'' n next Q) :
    Branch tokens (p >>= f) s s'' (m || n) next Q :=
  (of_retraces onward first).bind onward' second

theorem neutral_bind (neutral : Neutral p) (run : Reads p s a s')
    (second : Branch tokens (f a) s' s'' n next Q) : Branch tokens (p >>= f) s s'' n next Q := by
  have first : Retraces tokens p s s' false (· = a) := .of_neutral neutral run
  have whole := retraces_bind run.advances.suffix second.onward first fun b (same : b = a) =>
    show Branch tokens (f b) s' s'' n next Q from same ▸ second
  rwa [Bool.false_or] at whole

theorem advance {f : Unit → Parser β} (second : Branch tokens (f ()) (s.drop 1) s'' n next Q) :
    Branch tokens (Parser.advance >>= f) s s'' n next Q :=
  neutral_bind .advance (a := ()) (reads_advance.mpr rfl) second

theorem past {f : Bool → Parser β}
    (second : ∀ found, Branch tokens (f found) (s.past k) s'' n next Q) :
    Branch tokens (accept k >>= f) s s'' n next Q :=
  (Reads.of_past k s).elim fun found run => neutral_bind .accept run (second found)

theorem then_ (first : Branch tokens p s s' m c P) (onward : s''.rest.items <:+ s'.rest.items)
    (second : ∀ b, P b → Retraces tokens (f b) s' s'' false Q) :
    Branch tokens (p >>= f) s s'' m c Q := by
  have whole := first.bind onward fun b holds => of_retraces onward (second b holds)
  rwa [Bool.or_false, Option.or_none] at whole

theorem cast {used : Bool} (h : Branch tokens p s s' m c P) (uses : m = used) (cuts : c = next) :
    Branch tokens p s s' used next P := uses ▸ cuts ▸ h

theorem spanned {p : Parser (Range → α)} (h : Branch tokens p s s' m c fun _ => True) :
    Branch tokens (spanned first p) s s' m c fun _ => True :=
  ⟨h.onward, fun none => .spanned ((h.kept none).mono fun _ _ _ => trivial),
    fun position found settled =>
      ⟨(h.lost position found settled).1, fun clear => ((h.lost position found settled).2 clear).spanned⟩⟩

theorem ranged {p : Parser (Range → α)} (h : Branch tokens p s s' m c fun _ => True) :
    Branch tokens (ranged p) s s' m c fun _ => True :=
  neutral_bind (.inspect fun _ _ _ => rfl) (reads_here.mpr ⟨rfl, rfl⟩) h.spanned

theorem loop_done (h : Branch tokens (round x) s s' m c fun r => ∃ b, r = .done b ∧ P b) :
    Branch tokens (loop round x) s s' m c P :=
  ⟨h.onward, fun none => .loop_done (h.kept none), fun position found settled =>
    ⟨(h.lost position found settled).1,
      fun clear => ((h.lost position found settled).2 clear).through run_loop_failed⟩⟩

theorem loop_again (first : Branch tokens (round x) s s' m c fun r => ∃ y, r = .again y ∧ I y)
    (less : s'.rest.size < s.rest.size) (onward : s''.rest.items <:+ s'.rest.items)
    (rest : ∀ y, I y → Branch tokens (loop round y) s' s'' n next P) :
    Branch tokens (loop round x) s s'' (m || n) (c.or next) P := by
  refine sequel (.loop less) first onward ?_
  rintro _ ⟨y, rfl, holds⟩
  exact rest y holds

theorem many_some {round : Parser (Option (List α))}
    (first : Branch tokens round s s' m c fun r => ∃ more, r = some more)
    (less : s'.rest.size < s.rest.size) (onward : s''.rest.items <:+ s'.rest.items)
    (rest : ∀ found, Branch tokens (loop (manyRound round) found) s' s'' n next fun _ => True) :
    Branch tokens (loop (manyRound round) found) s s'' (m || n) (c.or next) fun _ => True := by
  refine loop_again (I := fun _ => True) (first.then_ (List.suffix_refl _) ?_) less onward
    fun found _ => rest found
  rintro _ ⟨more, rfl⟩
  exact .pure ⟨_, rfl, trivial⟩

end Branch
end BrightScript.Parser
