import BrightScript.Parser.State

/-! What every run keeps.
A parser takes tokens from the front, adds reports at the end and leaves the levels as they were. It
goes the same way whatever has been reported before, does not fail in silence, and shows its mode
only in what it reports. Each of these holds of one step, and then of a whole run by induction on the
parser. -/
namespace BrightScript
namespace Parser

variable {α β σ : Type}

theorem run_nested (p : Parser α) (s : State) :
    (nested p).run s =
      if maxNesting ≤ s.nesting then tooDeep.run s
      else ((p.run (s.atNesting (s.nesting + 1))).1,
        (p.run (s.atNesting (s.nesting + 1))).2.atNesting
          ((p.run (s.atNesting (s.nesting + 1))).2.nesting - 1)) := rfl

theorem run_inFunction (p : Parser α) (s : State) :
    (inFunction p).run s = ((p.run (s.atFunctions (s.functions + 1))).1,
      (p.run (s.atFunctions (s.functions + 1))).2.atFunctions
        ((p.run (s.atFunctions (s.functions + 1))).2.functions - 1)) := rfl

theorem run_droppable (p : Parser α) (s : State) :
    (droppable p).run s =
      (if (p.run (s.withDiscard false)).2.discard then none else (p.run (s.withDiscard false)).1,
        (p.run (s.withDiscard false)).2.withDiscard s.discard) := rfl

section Loop

variable {round : σ → Parser (Round σ α)} {x y : σ} {s s' : State} {a : α}

theorem run_loop_again (h : (round x).run s = (some (.again y), s'))
    (less : s'.rest.size < s.rest.size) : (loop round x).run s = (loop round y).run s' := by
  rw [run_loop, h]
  exact if_pos less

theorem run_loop_stuck (h : (round x).run s = (some (.again y), s'))
    (stuck : ¬ s'.rest.size < s.rest.size) : (loop round x).run s = tooDeep.run s' := by
  rw [run_loop, h]
  exact if_neg stuck

theorem run_loop_done (h : (round x).run s = (some (.done a), s')) :
    (loop round x).run s = (some a, s') := by rw [run_loop, h]

theorem run_loop_failed (h : (round x).run s = (none, s')) :
    (loop round x).run s = (none, s') := by rw [run_loop, h]

theorem run_manyRound_some {round : Parser (Option (List α))} {found more : List α}
    (h : round.run s = (some (some more), s')) :
    (manyRound round found).run s = (some (.again (more.reverse ++ found)), s') := by
  rw [manyRound, run_bind, h]
  rfl

theorem run_manyRound_none {round : Parser (Option (List α))} {found : List α}
    (h : round.run s = (some none, s')) :
    (manyRound round found).run s = (some (.done found.reverse), s') := by
  rw [manyRound, run_bind, h]
  rfl

end Loop

/-- Induction on the rounds of a loop. -/
theorem loop_induction (round : σ → Parser (Round σ α)) {motive : σ → State → Prop}
    (again : ∀ x s y s', (round x).run s = (some (.again y), s') → s'.rest.size < s.rest.size →
      motive y s' → motive x s)
    (stuck : ∀ x s y s', (round x).run s = (some (.again y), s') → ¬ s'.rest.size < s.rest.size →
      motive x s)
    (done : ∀ x s a s', (round x).run s = (some (.done a), s') → motive x s)
    (failed : ∀ x s s', (round x).run s = (none, s') → motive x s) (x : σ) (s : State) :
    motive x s := by
  cases h : (round x).run s with
  | mk r s' =>
    rcases r with _ | ⟨y | a⟩
    · exact failed x s s' h
    · by_cases less : s'.rest.size < s.rest.size
      · exact again x s y s' h less (loop_induction round again stuck done failed y s')
      · exact stuck x s y s' h less
    · exact done x s a s' h
termination_by s.rest.size

theorem advances (p : Parser α) (s : State) : s.Advances (p.run s).2 := by
  induction p generalizing s with
  | inspect f => exact .refl s
  | update f advances => exact advances s
  | giveUp f advances => exact advances s
  | member => exact .drop 1 s
  | andThen p f first second =>
    have first := first s
    rw [run]
    cases h : p.run s with
    | mk r s' =>
      rw [h] at first
      cases r with
      | none => exact first
      | some a => exact first.trans (second a s')
  | attemptPast p inner =>
    have inner := inner s
    rw [run_attemptPast]
    cases h : p.run s with
    | mk r s' =>
      rw [h] at inner
      cases r with
      | none =>
        dsimp only
        split
        · exact inner.trans (.drop 1 s')
        · exact inner
      | some a => exact inner
  | withCleanup p cleanup inner second =>
    have inner := inner s
    rw [run_withCleanup]
    cases h : p.run s with
    | mk r s' =>
      rw [h] at inner
      cases r with
      | none => exact inner.trans (second s')
      | some a => exact inner
  | spanned first p inner =>
    have inner := inner s
    rw [run_spanned]
    cases h : p.run s with
    | mk r s' =>
      rw [h] at inner
      cases r <;> exact inner
  | loop round x each =>
    induction x, s using loop_induction round with
    | again x s y s' h less ih =>
      have first := each x s
      rw [h] at first
      rw [run_loop_again h less]
      exact first.trans ih
    | stuck x s y s' h stuck =>
      have first := each x s
      rw [h] at first
      rw [run_loop_stuck h stuck]
      exact first.trans (.report s' _ _)
    | done x s a s' h =>
      have first := each x s
      rw [h] at first
      rwa [run_loop_done h]
    | failed x s s' h =>
      have first := each x s
      rw [h] at first
      rwa [run_loop_failed h]
  | nested p inner =>
    rw [run_nested]
    split
    · exact .report s _ _
    · have inner := inner (s.atNesting (s.nesting + 1))
      exact ⟨inner.mode, inner.finish, Nat.sub_eq_of_eq_add inner.nesting, inner.functions,
        inner.diagnostics, inner.discard, inner.marked, inner.taken⟩
  | inFunction p inner =>
    have inner := inner (s.atFunctions (s.functions + 1))
    exact ⟨inner.mode, inner.finish, inner.nesting, Nat.sub_eq_of_eq_add inner.functions,
      inner.diagnostics, inner.discard, inner.marked, inner.taken⟩
  | droppable p inner =>
    have inner := inner (s.withDiscard false)
    exact ⟨inner.mode, inner.finish, inner.nesting, inner.functions, inner.diagnostics,
      .inl rfl, id, inner.taken⟩

theorem advances_of_run {p : Parser α} {s s' : State} {r : Option α} (h : p.run s = (r, s')) :
    s.Advances s' := by
  have advances := p.advances s
  rwa [h] at advances

theorem framed (p : Parser α) (earlier : List Diagnostic) (s : State) :
    p.run (s.behind earlier) = ((p.run s).1, (p.run s).2.behind earlier) := by
  induction p generalizing s with
  | inspect f framed => exact congrArg (fun a => (some a, s.behind earlier)) (framed earlier s)
  | update f _ framed => exact congrArg (Prod.mk _) (framed earlier s)
  | giveUp f _ framed => exact congrArg (Prod.mk _) (framed earlier s)
  | member => rfl
  | andThen p f first second =>
    rw [run, run, first]
    cases p.run s with
    | mk r s' =>
      cases r with
      | none => rfl
      | some a => exact second a s'
  | attemptPast p inner =>
    rw [run_attemptPast, run_attemptPast, inner]
    cases p.run s with
    | mk r s' =>
      cases r with
      | none =>
        by_cases same : s'.rest.size = s.rest.size <;>
          simp [State.behind, same, State.advance, State.drop]
      | some a => rfl
  | withCleanup p cleanup inner second =>
    rw [run_withCleanup, run_withCleanup, inner]
    cases p.run s with
    | mk r s' =>
      cases r with
      | none => exact congrArg (fun r => (none, r.2)) (second s')
      | some a => rfl
  | spanned first p inner =>
    rw [run_spanned, run_spanned, inner]
    cases p.run s with
    | mk r s' => cases r <;> rfl
  | loop round x each =>
    induction x, s using loop_induction round with
    | again x s y s' h less ih =>
      have first := each x s
      rw [h] at first
      rw [run_loop_again first less, run_loop_again h less, ih]
    | stuck x s y s' h stuck =>
      have first := each x s
      rw [h] at first
      rw [run_loop_stuck first stuck, run_loop_stuck h stuck]
      exact congrArg (Prod.mk none) (s'.report_behind earlier _ _)
    | done x s a s' h => rw [run_loop, each, run_loop, h]
    | failed x s s' h => rw [run_loop, each, run_loop, h]
  | nested p inner =>
    rw [run_nested, run_nested]
    by_cases deep : maxNesting ≤ s.nesting
    · have deep' : maxNesting ≤ (s.behind earlier).nesting := deep
      rw [if_pos deep, if_pos deep']
      exact congrArg (Prod.mk none) (s.report_behind earlier _ _)
    · have deep' : ¬ maxNesting ≤ (s.behind earlier).nesting := deep
      rw [if_neg deep, if_neg deep']
      exact congrArg (fun r => (r.1, r.2.atNesting (r.2.nesting - 1)))
        (inner (s.atNesting (s.nesting + 1)))
  | inFunction p inner =>
    exact congrArg (fun r => (r.1, r.2.atFunctions (r.2.functions - 1)))
      (inner (s.atFunctions (s.functions + 1)))
  | droppable p inner =>
    exact congrArg (fun r => (if r.2.discard then none else r.1, r.2.withDiscard s.discard))
      (inner (s.withDiscard false))

/- What a part has reported is still there at the end, so a sequence is loud if its parts are. -/
theorem State.Advances.loud_trans {a b c : State} (first : Advances a b) (second : Advances b c)
    (loud : b.discard = true ∨ b.ErrorSince c) : a.discard = true ∨ a.ErrorSince c := by
  rcases loud with marked | error
  · rcases first.discard with kept | error
    · exact .inl (kept ▸ marked)
    · exact .inr (error.append second.diagnostics)
  · exact .inr (error.prepend first.diagnostics)

/- Without an error the mark is as it was set. -/
theorem error_of_marked (p : Parser α) (s : State)
    (loud : (p.run (s.withDiscard false)).1 = none →
      (s.withDiscard false).discard = true ∨
        (s.withDiscard false).ErrorSince (p.run (s.withDiscard false)).2)
    (failed : (if (p.run (s.withDiscard false)).2.discard then none
      else (p.run (s.withDiscard false)).1) = none) :
    s.ErrorSince (p.run (s.withDiscard false)).2 := by
  rcases (p.advances (s.withDiscard false)).discard with unmarked | error
  · have unmarked : (p.run (s.withDiscard false)).2.discard = false := unmarked
    have dropped : (p.run (s.withDiscard false)).1 = none := by simpa [unmarked] using failed
    exact (loud dropped).resolve_left Bool.noConfusion
  · exact error

theorem loud (p : Parser α) (s : State) (failed : (p.run s).1 = none) :
    s.discard = true ∨ s.ErrorSince (p.run s).2 := by
  induction p generalizing s with
  | inspect | update | member => cases failed
  | giveUp f _ _ loud => exact loud s
  | andThen p f first second =>
    have first := first s
    rw [run] at failed ⊢
    cases h : p.run s with
    | mk r s' =>
      rw [h] at first failed
      cases r with
      | none => exact first rfl
      | some a => exact (advances_of_run h).loud_trans ((f a).advances s') (second a s' failed)
  | attemptPast p =>
    rw [run_attemptPast] at failed
    split at failed <;> cases failed
  | withCleanup p cleanup inner =>
    have inner := inner s
    rw [run_withCleanup] at failed ⊢
    cases h : p.run s with
    | mk r s' =>
      rw [h] at inner failed
      cases r with
      | none => exact (inner rfl).imp_right (·.append (cleanup.advances s').diagnostics)
      | some a => cases failed
  | spanned first p inner =>
    have inner := inner s
    rw [run_spanned] at failed ⊢
    cases h : p.run s with
    | mk r s' =>
      rw [h] at inner failed
      cases r with
      | none => exact inner rfl
      | some a => cases failed
  | loop round x each =>
    induction x, s using loop_induction round with
    | again x s y s' h less ih =>
      rw [run_loop_again h less] at failed ⊢
      exact (advances_of_run h).loud_trans ((loop round y).advances s') (ih failed)
    | stuck x s y s' h stuck =>
      rw [run_loop_stuck h stuck]
      exact (advances_of_run h).loud_trans (.report s' _ _) (.inr (.report s' _ rfl))
    | done x s a s' h =>
      rw [run_loop_done h] at failed
      cases failed
    | failed x s s' h =>
      have first := each x s
      rw [h] at first
      rw [run_loop_failed h]
      exact first rfl
  | nested p inner =>
    rw [run_nested] at failed ⊢
    split
    · exact .inr (.report s _ rfl)
    · rename_i shallow
      rw [if_neg shallow] at failed
      exact inner (s.atNesting (s.nesting + 1)) failed
  | inFunction p inner => exact inner (s.atFunctions (s.functions + 1)) failed
  | droppable p inner => exact .inr (p.error_of_marked s (inner (s.withDiscard false)) failed)

theorem error_of_dropped (p : Parser α) (s : State)
    (failed : (if (p.run (s.withDiscard false)).2.discard then none
      else (p.run (s.withDiscard false)).1) = none) :
    s.ErrorSince (p.run (s.withDiscard false)).2 :=
  p.error_of_marked s (p.loud (s.withDiscard false)) failed

/-- Without a report of what its mode does not allow, a run is the same in the other mode. -/
def Agrees (p : Parser α) (s : State) : Prop :=
  s.mode = .brightScript → s.discard = false → (p.run s).2.Supported →
    (p.run s).2.discard = false ∧
      p.run (s.inMode .brighterScript) = ((p.run s).1, (p.run s).2.inMode .brighterScript)

theorem Agrees.of_run {p : Parser α} {s s' : State} {r : Option α} (agrees : Agrees p s)
    (h : p.run s = (r, s')) (mode : s.mode = .brightScript) (unmarked : s.discard = false)
    (supported : s'.Supported) :
    s'.discard = false ∧ p.run (s.inMode .brighterScript) = (r, s'.inMode .brighterScript) := by
  have both := agrees mode unmarked
  rw [h] at both
  exact both supported

theorem agrees_andThen {p : Parser α} {f : α → Parser β} {s : State} (first : Agrees p s)
    (second : ∀ a s, Agrees (f a) s) : Agrees (p.andThen f) s := by
  intro mode unmarked supported
  rw [run] at supported
  rw [run, run]
  cases h : p.run s with
  | mk r s' =>
    rw [h] at supported
    cases r with
    | none =>
      obtain ⟨unmarked', same⟩ := first.of_run h mode unmarked supported
      rw [same]
      exact ⟨unmarked', rfl⟩
    | some a =>
      obtain ⟨unmarked', same⟩ :=
        first.of_run h mode unmarked (((f a).advances s').supported supported)
      rw [same]
      exact second a s' ((advances_of_run h).mode.trans mode) unmarked' supported

theorem agrees_attemptPast {p : Parser α} {s : State} (inner : Agrees p s) :
    Agrees (attemptPast p) s := by
  intro mode unmarked supported
  rw [run_attemptPast] at supported
  rw [run_attemptPast, run_attemptPast]
  cases h : p.run s with
  | mk r s' =>
    rw [h] at supported
    have kept : s'.Supported := by
      cases r with
      | none =>
        dsimp only at supported
        split at supported <;> exact supported
      | some a => exact supported
    obtain ⟨unmarked', same⟩ := inner.of_run h mode unmarked kept
    rw [same]
    cases r with
    | none =>
      by_cases stuck : s'.rest.size = s.rest.size
      · simp [State.inMode, stuck, State.advance, State.drop, unmarked']
      · simp [State.inMode, stuck, unmarked']
    | some a => exact ⟨unmarked', rfl⟩

theorem agrees_withCleanup {p : Parser α} {cleanup : Parser Unit} {s : State} (inner : Agrees p s)
    (second : ∀ s, Agrees cleanup s) : Agrees (withCleanup p cleanup) s := by
  intro mode unmarked supported
  rw [run_withCleanup] at supported
  rw [run_withCleanup, run_withCleanup]
  cases h : p.run s with
  | mk r s' =>
    rw [h] at supported
    cases r with
    | none =>
      obtain ⟨unmarked', same⟩ :=
        inner.of_run h mode unmarked ((cleanup.advances s').supported supported)
      obtain ⟨unmarked'', same'⟩ :=
        second s' ((advances_of_run h).mode.trans mode) unmarked' supported
      rw [same]
      exact ⟨unmarked'', congrArg (fun r => (none, r.2)) same'⟩
    | some a =>
      obtain ⟨unmarked', same⟩ := inner.of_run h mode unmarked supported
      rw [same]
      exact ⟨unmarked', rfl⟩

theorem agrees_loop {round : σ → Parser (Round σ α)} (each : ∀ y s, Agrees (round y) s) (x : σ)
    (s : State) : Agrees (loop round x) s := by
  induction x, s using loop_induction round with
  | again x s y s' h less ih =>
    intro mode unmarked supported
    rw [run_loop_again h less] at supported ⊢
    obtain ⟨unmarked', same⟩ := (each x s).of_run h mode unmarked
      (((loop round y).advances s').supported supported)
    rw [run_loop_again same less]
    exact ih ((advances_of_run h).mode.trans mode) unmarked' supported
  | stuck x s y s' h stuck =>
    intro mode unmarked supported
    rw [run_loop_stuck h stuck] at supported ⊢
    obtain ⟨unmarked', same⟩ := (each x s).of_run h mode unmarked
      ((tooDeep.advances s').supported supported)
    rw [run_loop_stuck same stuck]
    exact ⟨unmarked', rfl⟩
  | done x s a s' h =>
    intro mode unmarked supported
    rw [run_loop_done h] at supported ⊢
    obtain ⟨unmarked', same⟩ := (each x s).of_run h mode unmarked supported
    exact ⟨unmarked', run_loop_done same⟩
  | failed x s s' h =>
    intro mode unmarked supported
    rw [run_loop_failed h] at supported ⊢
    obtain ⟨unmarked', same⟩ := (each x s).of_run h mode unmarked supported
    exact ⟨unmarked', run_loop_failed same⟩

theorem impartial (p : Parser α) (s : State) : Agrees p s := by
  induction p generalizing s with
  | inspect f _ impartial =>
    exact fun _ unmarked _ => ⟨unmarked, congrArg (fun a => (some a, _)) (impartial _ s)⟩
  | update f _ _ impartial | giveUp f _ _ _ impartial =>
    exact fun mode unmarked supported =>
      (impartial s mode unmarked supported).imp_right (congrArg (Prod.mk _))
  | member => exact fun _ unmarked _ => ⟨unmarked, rfl⟩
  | andThen p f first second => exact agrees_andThen (first s) second
  | attemptPast p inner => exact agrees_attemptPast (inner s)
  | withCleanup p cleanup inner second => exact agrees_withCleanup (inner s) second
  | spanned first p inner =>
    intro mode unmarked supported
    rw [run_spanned] at supported
    rw [run_spanned, run_spanned]
    cases h : p.run s with
    | mk r s' =>
      rw [h] at supported
      cases r <;>
      · obtain ⟨unmarked', same⟩ := (inner s).of_run h mode unmarked supported
        rw [same]
        exact ⟨unmarked', rfl⟩
  | loop round x each => exact agrees_loop each x s
  | nested p inner =>
    intro mode unmarked supported
    rw [run_nested] at supported
    rw [run_nested, run_nested]
    by_cases deep : maxNesting ≤ s.nesting
    · have deep' : maxNesting ≤ (s.inMode .brighterScript).nesting := deep
      rw [if_pos deep, if_pos deep']
      exact ⟨unmarked, rfl⟩
    · have deep' : ¬ maxNesting ≤ (s.inMode .brighterScript).nesting := deep
      rw [if_neg deep] at supported ⊢
      rw [if_neg deep']
      obtain ⟨unmarked', same⟩ := inner (s.atNesting (s.nesting + 1)) mode unmarked supported
      exact ⟨unmarked', congrArg (fun r => (r.1, r.2.atNesting (r.2.nesting - 1))) same⟩
  | inFunction p inner =>
    intro mode unmarked supported
    obtain ⟨unmarked', same⟩ := inner (s.atFunctions (s.functions + 1)) mode unmarked supported
    exact ⟨unmarked', congrArg (fun r => (r.1, r.2.atFunctions (r.2.functions - 1))) same⟩
  | droppable p inner =>
    intro mode unmarked supported
    obtain ⟨-, same⟩ := inner (s.withDiscard false) mode rfl supported
    exact ⟨unmarked, congrArg
      (fun r => (if r.2.discard then none else r.1, r.2.withDiscard s.discard)) same⟩

end Parser
end BrightScript
