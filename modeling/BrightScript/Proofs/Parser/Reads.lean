import BrightScript.Parser
import BrightScript.Proofs.Parser.Run
import BrightScript.Proofs.Tree.Bare

/-! Runs that report nothing.
`Reads p s a s'` says that `p` goes from `s` to `s'` with the result `a` and without a report.
Reports are never taken back, so such a run is made of runs that report nothing, and the rules
below take a parser apart into its parts, in both directions. -/
namespace BrightScript
namespace Parser

variable {α β σ : Type} {s s' : State} {a : α} {u : Unit} {k : Kind} {skips : Kind → Bool}
  {round : Parser (Option (List α))} {b : β} {all : List α} {problem : String → Problem}

namespace State

@[simp] theorem rest_atNesting (s : State) (n : Nat) : (s.atNesting n).rest = s.rest := rfl
@[simp] theorem mode_atNesting (s : State) (n : Nat) : (s.atNesting n).mode = s.mode := rfl
@[simp] theorem nesting_atNesting (s : State) (n : Nat) : (s.atNesting n).nesting = n := rfl
@[simp] theorem discard_atNesting (s : State) (n : Nat) :
    (s.atNesting n).discard = s.discard := rfl
@[simp] theorem token_atNesting (s : State) (n : Nat) : (s.atNesting n).token = s.token := rfl
@[simp] theorem kind_atNesting (s : State) (n : Nat) : (s.atNesting n).kind = s.kind := rfl

@[simp] theorem rest_atFunctions (s : State) (n : Nat) : (s.atFunctions n).rest = s.rest := rfl
@[simp] theorem mode_atFunctions (s : State) (n : Nat) : (s.atFunctions n).mode = s.mode := rfl
@[simp] theorem nesting_atFunctions (s : State) (n : Nat) :
    (s.atFunctions n).nesting = s.nesting := rfl
@[simp] theorem discard_atFunctions (s : State) (n : Nat) :
    (s.atFunctions n).discard = s.discard := rfl
@[simp] theorem kind_atFunctions (s : State) (n : Nat) : (s.atFunctions n).kind = s.kind := rfl

@[simp] theorem rest_withDiscard (s : State) (b : Bool) : (s.withDiscard b).rest = s.rest := rfl
@[simp] theorem mode_withDiscard (s : State) (b : Bool) : (s.withDiscard b).mode = s.mode := rfl
@[simp] theorem nesting_withDiscard (s : State) (b : Bool) :
    (s.withDiscard b).nesting = s.nesting := rfl
@[simp] theorem discard_withDiscard (s : State) (b : Bool) : (s.withDiscard b).discard = b := rfl
@[simp] theorem kind_withDiscard (s : State) (b : Bool) : (s.withDiscard b).kind = s.kind := rfl

@[simp] theorem rest_drop (s : State) (n : Nat) : (s.drop n).rest = s.rest.drop n := rfl
@[simp] theorem mode_drop (s : State) (n : Nat) : (s.drop n).mode = s.mode := rfl
@[simp] theorem nesting_drop (s : State) (n : Nat) : (s.drop n).nesting = s.nesting := rfl
@[simp] theorem discard_drop (s : State) (n : Nat) : (s.drop n).discard = s.discard := rfl

theorem items_eq (h : s.kind ≠ .endOfFile) : s.rest.items = s.token :: (s.drop 1).rest.items := by
  unfold kind token Input.head? at *
  cases items : s.rest.items with
  | nil =>
    rw [items] at h
    exact absurd rfl h
  | cons t rest => simp [items]

theorem token_mem (h : s.kind ≠ .endOfFile) : s.token ∈ s.rest.items := by
  rw [items_eq h]
  exact List.mem_cons_self

theorem kindAt_one (s : State) : s.kindAt 1 = (s.drop 1).kind := by
  unfold kindAt kind token Input.head?
  rcases items : s.rest.items with _ | ⟨t, _ | ⟨u, rest⟩⟩ <;> simp [items, Token.endOfFile]

theorem skipWhile_of_stop (stop : skips s.kind = false) : s.skipWhile skips = s := by
  cases items : s.rest.items with
  | nil => simp [skipWhile, items]
  | cons t rest =>
    have kind : s.kind = t.kind := by simp [kind, token, Input.head?, items]
    rw [kind] at stop
    simp [skipWhile, items, stop]

theorem skipWhile_of_skip (file : skips .endOfFile = false) (skip : skips s.kind = true) :
    s.skipWhile skips = (s.drop 1).skipWhile skips := by
  cases items : s.rest.items with
  | nil =>
    have kind : s.kind = .endOfFile := by simp [kind, token, Input.head?, items,
      Token.endOfFile]
    rw [kind, file] at skip
    cases skip
  | cons t rest =>
    have kind : s.kind = t.kind := by simp [kind, token, Input.head?, items]
    rw [kind] at skip
    simp [skipWhile, items, skip, drop_drop, Nat.add_comm]

namespace Advances

theorem suffix (h : s.Advances s') : s'.rest.items <:+ s.rest.items := by
  obtain ⟨n, rest⟩ := h.taken
  rw [rest]
  exact List.drop_suffix n _

theorem size_le (h : s.Advances s') : s'.rest.size ≤ s.rest.size := by
  rw [s'.rest.size_eq, s.rest.size_eq]
  exact h.suffix.length_le

end Advances
end State

/-- A run with a result and without a report. -/
def Reads (p : Parser α) (s : State) (a : α) (s' : State) : Prop :=
  p.run s = (some a, s') ∧ s'.diagnostics = s.diagnostics

namespace Reads

variable {p : Parser α}

theorem advances (h : Reads p s a s') : s.Advances s' := by
  have := p.advances s
  rwa [h.1] at this

theorem discard_eq (h : Reads p s a s') : s'.discard = s.discard := h.advances.discard_eq h.2

end Reads

theorem run_bind_eq_some {p : Parser α} {f : α → Parser β} {s'' : State} :
    (p >>= f).run s = (some b, s'') ↔
      ∃ a s', p.run s = (some a, s') ∧ (f a).run s' = (some b, s'') := by
  rw [run_bind]
  cases p.run s with
  | mk result s' =>
    cases result with
    | none => simp
    | some a =>
      constructor
      · exact fun tail => ⟨a, s', rfl, tail⟩
      · rintro ⟨_, _, ⟨⟩, tail⟩
        exact tail

@[simp] theorem reads_inspect {f : State → α} {framed impartial} :
    Reads (inspect f framed impartial) s a s' ↔ f s = a ∧ s = s' := by
  constructor
  · rintro ⟨h, _⟩
    simpa [run] using h
  · rintro ⟨rfl, rfl⟩
    exact ⟨rfl, rfl⟩

@[simp] theorem reads_pure {x : α} :
    Reads (pure x) s a s' ↔ x = a ∧ s = s' := reads_inspect

theorem reads_bind {p : Parser α} {f : α → Parser β} {s'' : State} :
    Reads (p >>= f) s b s'' ↔ ∃ a s', Reads p s a s' ∧ Reads (f a) s' b s'' := by
  constructor
  · rintro ⟨run, same⟩
    rw [run_bind] at run
    split at run
    · rename_i a s' first
      have before := p.advances s
      have after := (f a).advances s'
      rw [first] at before
      rw [run] at after
      have quiet : s'.diagnostics = s.diagnostics :=
        (before.diagnostics.eq_of_length_le (same ▸ after.diagnostics.length_le)).symm
      exact ⟨a, s', ⟨first, quiet⟩, run, by rw [same, quiet]⟩
    · simp at run
  · rintro ⟨a, s', first, second⟩
    refine ⟨?_, second.2.trans first.2⟩
    rw [run_bind, first.1]
    exact second.1

@[simp] theorem reads_map {p : Parser α} {f : α → β} :
    Reads (f <$> p) s b s' ↔ ∃ a, Reads p s a s' ∧ f a = b := by
  have unfolded : f <$> p = p >>= fun a => pure (f a) := rfl
  simp only [unfolded, reads_bind, reads_pure]
  constructor
  · rintro ⟨a, t, first, same, rfl⟩
    exact ⟨a, first, same⟩
  · rintro ⟨a, first, same⟩
    exact ⟨a, s', first, same, rfl⟩

@[simp] theorem reads_update {f : State → State} {advances framed impartial} :
    Reads (update f advances framed impartial) s u s' ↔
      f s = s' ∧ s'.diagnostics = s.diagnostics := by
  simp [Reads, run]

@[simp] theorem not_reads_giveUp {f : State → State} {advances framed loud impartial} :
    ¬ Reads (giveUp f advances framed loud impartial) s a s' := by
  simp [Reads, run]

@[simp] theorem not_reads_refuse {e} :
    ¬ Reads (refuse problem e) s a s' := not_reads_giveUp

@[simp] theorem not_reads_refuseAt {p : Problem} {range : Range} {e} :
    ¬ Reads (refuseAt p range e) s a s' := not_reads_giveUp

@[simp] theorem not_reads_refusePast {e} :
    ¬ Reads (refusePast problem e) s a s' := not_reads_giveUp

@[simp] theorem not_reads_tooDeep : ¬ Reads tooDeep s a s' :=
  not_reads_refuse

theorem State.report_ne (s : State) (p : Problem) (range : Range) :
    (s.report p range).diagnostics ≠ s.diagnostics := by
  simp [State.report]

@[simp] theorem not_reads_report {p : Problem} {range : Range} :
    ¬ Reads (report p range) s u s' := by
  rintro ⟨h, quiet⟩
  obtain rfl : s.report p range = s' := by simpa [report, run] using h
  exact s.report_ne p range quiet

@[simp] theorem not_reads_reportHere : ¬ Reads (reportHere problem) s u s' := by
  rintro ⟨h, quiet⟩
  obtain rfl : s.report (problem s.found) s.range = s' := by simpa [reportHere, run] using h
  exact s.report_ne _ _ quiet

@[simp] theorem reads_token {t : Token} :
    Reads token s t s' ↔ s.token = t ∧ s = s' := reads_inspect

@[simp] theorem reads_kind :
    Reads kind s k s' ↔ s.kind = k ∧ s = s' := reads_inspect

@[simp] theorem reads_here {r : Range} :
    Reads here s r s' ↔ s.range = r ∧ s = s' := reads_inspect

@[simp] theorem reads_isAt {b : Bool} :
    Reads (isAt k) s b s' ↔ decide (s.kind = k) = b ∧ s = s' := reads_inspect

@[simp] theorem reads_atName {word : String} {b : Bool} :
    Reads (atName word) s b s' ↔
      (decide (s.kind = .identifier) && Text.sameWord s.token.text word) = b ∧ s = s' :=
  reads_inspect

@[simp] theorem reads_take {n : Nat} : Reads (take n) s u s' ↔ s.drop n = s' :=
  reads_update.trans ⟨fun h => h.1, fun h => ⟨h, h ▸ rfl⟩⟩

@[simp] theorem reads_advance :
    Reads advance s u s' ↔ s.drop 1 = s' := reads_take

@[simp] theorem reads_skipWhile : Reads (skipWhile skips) s u s' ↔ s.skipWhile skips = s' :=
  reads_update.trans ⟨fun h => h.1, fun h => ⟨h, h ▸ rfl⟩⟩

namespace Reads

/-! What begins with one of these goes on from where it ends. -/

variable {p q : Parser β} {f : α → Parser β} {s'' : State}

theorem bind_iff {p : Parser α} (h : ∀ a' t, Reads p s a' t ↔ a = a' ∧ s' = t) :
    Reads (p >>= f) s b s'' ↔ Reads (f a) s' b s'' := by
  simp only [reads_bind, h]
  constructor
  · rintro ⟨_, _, ⟨rfl, rfl⟩, run⟩
    exact run
  · exact fun run => ⟨_, _, ⟨rfl, rfl⟩, run⟩

theorem inspect_bind {F : State → α} {framed impartial} :
    Reads (inspect F framed impartial >>= f) s b s' ↔ Reads (f (F s)) s b s' :=
  bind_iff fun _ _ => reads_inspect

theorem pure_bind : Reads (pure a >>= f) s b s' ↔ Reads (f a) s b s' := inspect_bind

theorem token_bind {f : Token → Parser β} :
    Reads (token >>= f) s b s' ↔ Reads (f s.token) s b s' := inspect_bind

theorem kind_bind {f : Kind → Parser β} :
    Reads (kind >>= f) s b s' ↔ Reads (f s.kind) s b s' := inspect_bind

theorem here_bind {f : Range → Parser β} :
    Reads (here >>= f) s b s' ↔ Reads (f s.range) s b s' := inspect_bind

theorem take_bind {n : Nat} {f : Unit → Parser β} :
    Reads (take n >>= f) s b s' ↔ Reads (f ()) (s.drop n) b s' :=
  bind_iff fun _ _ => by simp

theorem advance_bind {f : Unit → Parser β} :
    Reads (advance >>= f) s b s' ↔ Reads (f ()) (s.drop 1) b s' := take_bind

theorem skipWhile_bind {f : Unit → Parser β} :
    Reads (skipWhile skips >>= f) s b s' ↔ Reads (f ()) (s.skipWhile skips) b s' :=
  bind_iff fun _ _ => by simp

theorem isAt_ite : Reads (do if ← isAt k then p else q) s b s' ↔
    (s.kind = k ∧ Reads p s b s') ∨ (s.kind ≠ k ∧ Reads q s b s') := by
  refine inspect_bind.trans ?_
  by_cases at_k : s.kind = k <;> simp [at_k]

theorem accept_bind {f : Bool → Parser β} : Reads (accept k >>= f) s b s' ↔
    (s.kind = k ∧ Reads (f true) (s.drop 1) b s') ∨ (s.kind ≠ k ∧ Reads (f false) s b s') := by
  rw [reads_bind]
  simp only [accept, isAt_ite, advance_bind, reads_pure]
  constructor
  · rintro ⟨_, _, ⟨at_k, rfl, rfl⟩ | ⟨other, rfl, rfl⟩, run⟩
    · exact .inl ⟨at_k, run⟩
    · exact .inr ⟨other, run⟩
  · rintro (⟨at_k, run⟩ | ⟨other, run⟩)
    · exact ⟨_, _, .inl ⟨at_k, rfl, rfl⟩, run⟩
    · exact ⟨_, _, .inr ⟨other, rfl, rfl⟩, run⟩

theorem accept_ite : Reads (do if ← accept k then p else q) s b s' ↔
    (s.kind = k ∧ Reads p (s.drop 1) b s') ∨ (s.kind ≠ k ∧ Reads q s b s') := by
  simp [accept_bind]

end Reads

theorem reads_accept {b : Bool} :
    Reads (accept k) s b s' ↔
      (s.kind = k ∧ b = true ∧ s.drop 1 = s') ∨ (s.kind ≠ k ∧ b = false ∧ s = s') := by
  simp [accept, Reads.isAt_ite, Reads.advance_bind, eq_comm]

@[simp] theorem reads_expect : Reads (expect k) s u s' ↔ s.kind = k ∧ s.drop 1 = s' := by
  simp [expect, Reads.accept_bind]

theorem Reads.expect_bind {f : Unit → Parser β} :
    Reads (expect k >>= f) s b s' ↔ s.kind = k ∧ Reads (f ()) (s.drop 1) b s' := by
  simp only [reads_bind, reads_expect]
  constructor
  · rintro ⟨_, _, ⟨at_k, rfl⟩, run⟩
    exact ⟨at_k, run⟩
  · exact fun ⟨at_k, run⟩ => ⟨_, _, ⟨at_k, rfl⟩, run⟩

@[simp] theorem reads_takeIdent {x : Ident} :
    Reads takeIdent s x s' ↔ ⟨s.token.text, s.token.range⟩ = x ∧ s.drop 1 = s' := by
  simp [takeIdent, Reads.token_bind, Reads.advance_bind]

theorem Reads.takeIdent_bind {f : Ident → Parser β} :
    Reads (takeIdent >>= f) s b s' ↔ Reads (f ⟨s.token.text, s.token.range⟩) (s.drop 1) b s' :=
  bind_iff fun _ _ => reads_takeIdent

@[simp] theorem reads_member {t : Token} : Reads member s t s' ↔ s.token = t ∧ s.drop 1 = s' := by
  constructor
  · rintro ⟨h, _⟩
    simpa [run, State.advance] using h
  · rintro ⟨rfl, rfl⟩
    exact ⟨rfl, rfl⟩

theorem Reads.member_bind {f : Token → Parser β} :
    Reads (member >>= f) s b s' ↔ Reads (f s.token) (s.drop 1) b s' :=
  bind_iff fun _ _ => reads_member

@[simp] theorem reads_memberName {x : Ident} :
    Reads memberName s x s' ↔ ⟨s.token.text, s.token.range⟩ = x ∧ s.drop 1 = s' := by
  simp [memberName, Reads.member_bind]

/- Where there is a mark already, a parser may fail in silence, hence the hypothesis. -/
theorem reads_attemptPast {p : Parser α} {r : Option α} (unmarked : s.discard = false) :
    Reads (attemptPast p) s r s' ↔ ∃ a, r = some a ∧ Reads p s a s' := by
  constructor
  · rintro ⟨run, quiet⟩
    have loud := p.loud s
    have advances := p.advances s
    rw [run_attemptPast] at run
    split at run
    · rename_i a t h
      obtain ⟨rfl, rfl⟩ : some a = r ∧ t = s' := by simpa using run
      exact ⟨a, rfl, h, quiet⟩
    · rename_i t h
      rw [h] at loud advances
      have reported : s.ErrorSince t := by simpa [unmarked] using loud
      have last : t.diagnostics = s'.diagnostics := by
        obtain ⟨_, rfl⟩ : none = r ∧ _ = s' := by simpa using run
        split <;> rfl
      exact absurd (last.trans quiet) reported.ne
  · rintro ⟨a, rfl, run, quiet⟩
    exact ⟨by rw [run_attemptPast, run], quiet⟩

@[simp] theorem reads_withCleanup {p : Parser α} {cleanup : Parser Unit} :
    Reads (withCleanup p cleanup) s a s' ↔ Reads p s a s' := by
  rw [Reads, run_withCleanup, Reads]
  cases h : p.run s with
  | mk result t => cases result <;> simp

theorem reads_spanned {first : Range} {p : Parser (Range → α)} :
    Reads (spanned first p) s a s' ↔
      ∃ node range, Reads p s node s' ∧ a = node range ∧
        range = (s.lastTaken s').elim first fun last => first.union last.range := by
  rw [Reads, run_spanned]
  simp only [Reads]
  cases h : p.run s with
  | mk result t =>
    cases result with
    | none => simp
    | some node =>
      simp only [Prod.mk.injEq, Option.some.injEq]
      constructor
      · rintro ⟨⟨rfl, rfl⟩, quiet⟩
        exact ⟨node, _, ⟨⟨rfl, rfl⟩, quiet⟩, rfl, rfl⟩
      · rintro ⟨_, _, ⟨⟨rfl, rfl⟩, quiet⟩, rfl, rfl⟩
        exact ⟨⟨rfl, rfl⟩, quiet⟩

theorem reads_ranged {p : Parser (Range → α)} :
    Reads (ranged p) s a s' ↔
      ∃ node range, Reads p s node s' ∧ a = node range ∧
        range = (s.lastTaken s').elim s.range fun last => s.range.union last.range := by
  rw [ranged, Reads.here_bind, reads_spanned]

theorem reads_nested {p : Parser α} :
    Reads (nested p) s a s' ↔
      s.nesting < maxNesting ∧
        ∃ t, Reads p (s.atNesting (s.nesting + 1)) a t ∧ t.atNesting s.nesting = s' := by
  have inner := p.advances (s.atNesting (s.nesting + 1))
  rw [Reads, run_nested]
  by_cases deep : maxNesting ≤ s.nesting
  · rw [if_pos deep]
    exact ⟨fun h => absurd h not_reads_tooDeep, fun h => absurd h.1 (Nat.not_lt.mpr deep)⟩
  · rw [Nat.not_le] at deep
    cases h : p.run (s.atNesting (s.nesting + 1)) with
    | mk result t =>
      rw [h] at inner
      have level : t.nesting - 1 = s.nesting := Nat.sub_eq_of_eq_add inner.nesting
      simp only [Reads, Nat.not_le.mpr deep, if_false, h, level, Prod.mk.injEq]
      constructor
      · rintro ⟨⟨rfl, rfl⟩, quiet⟩
        exact ⟨deep, t, ⟨⟨rfl, rfl⟩, quiet⟩, rfl⟩
      · rintro ⟨_, _, ⟨⟨rfl, rfl⟩, quiet⟩, rfl⟩
        exact ⟨⟨rfl, rfl⟩, quiet⟩

theorem reads_inFunction {p : Parser α} :
    Reads (inFunction p) s a s' ↔
      ∃ t, Reads p (s.atFunctions (s.functions + 1)) a t ∧ t.atFunctions s.functions = s' := by
  have inner := p.advances (s.atFunctions (s.functions + 1))
  rw [Reads, run_inFunction]
  cases h : p.run (s.atFunctions (s.functions + 1)) with
  | mk result t =>
    rw [h] at inner
    have level : t.functions - 1 = s.functions := Nat.sub_eq_of_eq_add inner.functions
    simp only [Reads, h, level, Prod.mk.injEq]
    constructor
    · rintro ⟨⟨rfl, rfl⟩, quiet⟩
      exact ⟨t, ⟨⟨rfl, rfl⟩, quiet⟩, rfl⟩
    · rintro ⟨_, ⟨⟨rfl, rfl⟩, quiet⟩, rfl⟩
      exact ⟨⟨rfl, rfl⟩, quiet⟩

theorem reads_droppable {p : Parser α} :
    Reads (droppable p) s a s' ↔
      ∃ t, Reads p (s.withDiscard false) a t ∧ t.withDiscard s.discard = s' := by
  constructor
  · rintro ⟨run, quiet⟩
    have inner := p.advances (s.withDiscard false)
    simp only [run_droppable, Prod.mk.injEq] at run
    obtain ⟨result, rfl⟩ := run
    have unmarked : (p.run (s.withDiscard false)).2.discard = false := inner.discard_eq quiet
    rw [unmarked] at result
    exact ⟨_, ⟨Prod.ext (by simpa using result) rfl, quiet⟩, rfl⟩
  · rintro ⟨t, inner, rfl⟩
    have unmarked : t.discard = false := inner.discard_eq
    refine ⟨?_, inner.2⟩
    simp [run_droppable, inner.1, unmarked]

theorem reads_loop {round : σ → Parser (Round σ α)} {x : σ} :
    Reads (loop round x) s a s' ↔
      Reads (round x) s (.done a) s' ∨
        ∃ y t, Reads (round x) s (.again y) t ∧ t.rest.size < s.rest.size ∧
          Reads (loop round y) t a s' := by
  have unrolled := run_loop round x s
  have before := (round x).advances s
  cases h : (round x).run s with
  | mk result t =>
    rw [h] at unrolled before
    cases result with
    | none => simp [Reads, unrolled, h]
    | some r =>
      cases r with
      | done b => simp [Reads, unrolled, h]
      | again y =>
        by_cases less : t.rest.size < s.rest.size
        · replace unrolled : (loop round x).run s = (loop round y).run t :=
            unrolled.trans (if_pos less)
          constructor
          · rintro ⟨run, quiet⟩
            rw [unrolled] at run
            have after := (loop round y).advances t
            rw [run] at after
            have middle : t.diagnostics = s.diagnostics :=
              (before.diagnostics.eq_of_length_le (quiet ▸ after.diagnostics.length_le)).symm
            exact .inr ⟨y, t, ⟨h, middle⟩, less, run, quiet.trans middle.symm⟩
          · rintro (done | ⟨_, _, first, _, second⟩)
            · simp [Reads, h] at done
            · obtain ⟨rfl, rfl⟩ : y = _ ∧ t = _ := by simpa [h] using first.1
              exact ⟨unrolled.trans second.1, second.2.trans first.2⟩
        · replace unrolled : (loop round x).run s = tooDeep.run t := unrolled.trans (if_neg less)
          constructor
          · rintro ⟨run, quiet⟩
            rw [unrolled] at run
            cases run
          · rintro (done | ⟨_, _, first, less', _⟩)
            · simp [Reads, h] at done
            · obtain ⟨rfl, rfl⟩ : y = _ ∧ t = _ := by simpa [h] using first.1
              exact absurd less' less

/-- What a round carries on has the property `I`, and what it ends with has the property `P`. -/
def Round.Holds (I : σ → Prop) (P : α → Prop) : Round σ α → Prop
  | again next => I next
  | done result => P result

/-- Induction over the rounds of a loop, from the last one back. -/
theorem Reads.loop_induction {round : σ → Parser (Round σ α)} {motive : σ → State → Prop}
    (done : ∀ x s, Reads (round x) s (.done a) s' → motive x s)
    (again : ∀ x s y t, Reads (round x) s (.again y) t → t.rest.size < s.rest.size →
      Reads (loop round y) t a s' → motive y t → motive x s) {x : σ}
    (h : Reads (loop round x) s a s') :
    motive x s := by
  induction size : s.rest.size using Nat.strongRecOn generalizing x s with
  | ind n ih =>
    rcases reads_loop.mp h with last | ⟨y, t, first, less, rest⟩
    · exact done x s last
    · exact again x s y t first less rest (ih _ (size ▸ less) rest rfl)

theorem reads_loop_unroll {found : List α} :
    Reads (loop (manyRound round) found) s all s' ↔
      (Reads round s none s' ∧ all = found.reverse) ∨
        ∃ first t, Reads round s (some first) t ∧ t.rest.size < s.rest.size ∧
          Reads (loop (manyRound round) (first.reverse ++ found)) t all s' := by
  rw [reads_loop]
  simp only [manyRound, reads_bind]
  constructor
  · rintro (⟨r, t, first, h⟩ | ⟨y, t, ⟨r, t', first, h⟩, less, rest⟩)
    · cases r with
      | some more => simp at h
      | none =>
        obtain ⟨rfl, rfl⟩ : found.reverse = all ∧ t = s' := by simpa using h
        exact .inl ⟨first, rfl⟩
    · cases r with
      | none => simp at h
      | some more =>
        obtain ⟨rfl, rfl⟩ : more.reverse ++ found = y ∧ t' = t := by simpa using h
        exact .inr ⟨more, t', first, less, rest⟩
  · rintro (⟨last, rfl⟩ | ⟨first, t, head, less, rest⟩)
    · exact .inl ⟨none, s', last, by simp⟩
    · exact .inr ⟨_, t, ⟨some first, t, head, by simp⟩, less, rest⟩

/- What a loop has found so far only stands before what it finds from here on. -/
theorem reads_loop_manyRound {found : List α} :
    Reads (loop (manyRound round) found) s all s' ↔
      ∃ more, all = found.reverse ++ more ∧ Reads (many round) s more s' := by
  induction size : s.rest.size using Nat.strongRecOn generalizing found all s with
  | ind n ih =>
    unfold many
    rw [reads_loop_unroll]
    constructor
    · rintro (⟨last, rfl⟩ | ⟨first, t, head, less, rest⟩)
      · exact ⟨[], by simp, reads_loop_unroll.mpr (.inl ⟨last, rfl⟩)⟩
      · obtain ⟨more, rfl, tail⟩ := (ih _ (size ▸ less) rfl).mp rest
        refine ⟨first ++ more, by simp, reads_loop_unroll.mpr (.inr ⟨first, t, head, less, ?_⟩)⟩
        exact (ih _ (size ▸ less) rfl).mpr ⟨more, by simp, tail⟩
    · rintro ⟨more, rfl, h⟩
      rcases reads_loop_unroll.mp h with ⟨last, rfl⟩ | ⟨first, t, head, less, rest⟩
      · exact .inl ⟨last, by simp⟩
      · obtain ⟨more, rfl, tail⟩ := (ih _ (size ▸ less) rfl).mp rest
        refine .inr ⟨first, t, head, less, (ih _ (size ▸ less) rfl).mpr ⟨more, by simp, tail⟩⟩

theorem reads_many :
    Reads (many round) s all s' ↔
      (all = [] ∧ Reads round s none s') ∨
        ∃ first more t, all = first ++ more ∧ Reads round s (some first) t ∧
          t.rest.size < s.rest.size ∧ Reads (many round) t more s' := by
  refine reads_loop_unroll.trans (or_congr And.comm ?_)
  simp only [reads_loop_manyRound, List.append_nil, List.reverse_reverse]
  constructor
  · rintro ⟨first, t, head, less, more, rfl, tail⟩
    exact ⟨first, more, t, rfl, head, less, tail⟩
  · rintro ⟨first, more, t, rfl, head, less, tail⟩
    exact ⟨first, t, head, less, more, rfl, tail⟩

theorem Reads.many_induction {motive : List α → State → Prop}
    (none : ∀ s, Reads round s none s' → motive [] s)
    (some : ∀ s first t more, Reads round s (some first) t → t.rest.size < s.rest.size →
      Reads (many round) t more s' → motive more t → motive (first ++ more) s)
    (h : Reads (many round) s all s') :
    motive all s := by
  induction size : s.rest.size using Nat.strongRecOn generalizing all s with
  | ind n ih =>
    rcases reads_many.mp h with ⟨rfl, last⟩ | ⟨first, more, t, rfl, head, less, tail⟩
    · exact none s last
    · exact some s first t more head less tail (ih _ (size ▸ less) tail rfl)

theorem splitLines_joinComment {first : Comment} {more : List Token}
    (lines : ∀ t ∈ more, '\n' ∉ t.text.toList) :
    Emit.splitLines (more.foldl joinComment first).text.toList =
      Emit.splitLines first.text.toList ++ more.map fun t => t.text.toList := by
  induction more generalizing first with
  | nil => simp
  | cons t more ih =>
    rw [List.foldl_cons, ih fun u mem => lines u (List.mem_cons_of_mem _ mem)]
    have join : (joinComment first t).text.toList = first.text.toList ++ '\n' :: t.text.toList := by
      have feed : "\n".toList = ['\n'] := rfl
      simp [joinComment, feed]
    rw [join, Emit.splitLines_append_line _ (lines t List.mem_cons_self)]
    simp

theorem followingComments_items (range : Range) (items : List Token) :
    ∃ more : List (Token × Token), followingComments range items = more.map (·.2) ∧
      items = more.flatMap (fun p => [p.1, p.2]) ++ items.drop (2 * more.length) ∧
      ∀ p ∈ more, p.1.kind = .newline ∧ p.2.kind = .comment := by
  fun_induction followingComments range items with
  | case1 range n t rest take ih =>
    simp only [Bool.and_eq_true, decide_eq_true_eq] at take
    obtain ⟨more, found, items, kinds⟩ := ih
    refine ⟨(n, t) :: more, by rw [found]; rfl, ?_, ?_⟩
    · rw [List.flatMap_cons, List.length_cons, Nat.mul_add, Nat.mul_one]
      simpa using items
    · intro p mem
      rcases List.mem_cons.mp mem with rfl | mem
      · exact take.1
      · exact kinds p mem
  | case2 => exact ⟨[], rfl, by simp, by simp⟩
  | case3 => exact ⟨[], rfl, by simp, by simp⟩

end Parser

theorem parse_of_run {mode : Mode} {tokens : List Token} {all : List Stmt} {s : Parser.State}
    (run : (Parser.statements Parser.grammar []).run (.start mode tokens) = (some all, s)) :
    parse mode tokens = ⟨all, s.diagnostics⟩ := by
  unfold parse
  rw [run]
  rfl

/-- A parse that reports nothing is a run that reads the statements. -/
theorem reads_of_quiet {mode : Mode} {tokens : List Token}
    (quiet : (parse mode tokens).diagnostics = []) :
    ∃ s, Parser.Reads (Parser.statements Parser.grammar []) (.start mode tokens)
      (parse mode tokens).statements s := by
  cases run : (Parser.statements Parser.grammar []).run (.start mode tokens) with
  | mk result s =>
    have reports : s.diagnostics = [] := by simpa [parse, run] using quiet
    cases result with
    | some all =>
      rw [parse_of_run run]
      exact ⟨s, run, reports⟩
    | none =>
      have loud := (Parser.statements Parser.grammar []).loud (.start mode tokens)
      rw [run] at loud
      rcases loud rfl with marked | reported
      · cases marked
      · exact absurd reports reported.ne

end BrightScript
