import BrightScript.Proofs.Parser.Reads
import BrightScript.Token.Scan

/-! The calls of a parse and what they leave behind.
A routine that fails has perhaps moved on and has reported, but the levels are again what they
were. A statement has a mark of its own, and is never dropped without an error. -/
namespace BrightScript
namespace Parser

/-- The calls made in parsing from a state on, each with the state it begins in. -/
inductive Called (start : State) : {α : Type} → Parser α → State → Prop where
  | whole : Called start (statements grammar []) start
  | first {α β} {p : Parser α} {f : α → Parser β} {s} :
      Called start (p >>= f) s → Called start p s
  | next {α β} {p : Parser α} {f : α → Parser β} {a s s'} :
      Called start (p >>= f) s → p.run s = (some a, s') → Called start (f a) s'
  | attempt {α} {p : Parser α} {s} : Called start (attemptPast p) s → Called start p s
  | guarded {α} {p : Parser α} {cleanup s} :
      Called start (withCleanup p cleanup) s → Called start p s
  | cleanup {α} {p : Parser α} {cleanup s s'} :
      Called start (withCleanup p cleanup) s → p.run s = (none, s') → Called start cleanup s'
  | spanned {α} {p : Parser (Range → α)} {range s} :
      Called start (spanned range p) s → Called start p s
  | round {α σ} {round : σ → Parser (Round σ α)} {x s} :
      Called start (loop round x) s → Called start (round x) s
  | again {α σ} {round : σ → Parser (Round σ α)} {x y s s'} :
      Called start (loop round x) s → (round x).run s = (some (.again y), s') →
        s'.rest.size < s.rest.size → Called start (loop round y) s'
  | nested {α} {p : Parser α} {s} : Called start (nested p) s → s.nesting < maxNesting →
      Called start p (s.atNesting (s.nesting + 1))
  | inFunction {α} {p : Parser α} {s} :
      Called start (inFunction p) s → Called start p (s.atFunctions (s.functions + 1))
  | droppable {α} {p : Parser α} {s} :
      Called start (droppable p) s → Called start p (s.withDiscard false)

theorem suffix_of_run {α : Type} {p : Parser α} {s s' : State} {r : Option α}
    (run : p.run s = (r, s')) : s'.rest.items <:+ s.rest.items := by
  obtain ⟨n, rest⟩ := (advances_of_run run).taken
  rw [rest]
  exact List.drop_suffix n _

theorem Called.suffix {start : State} {α : Type} {p : Parser α} {s : State}
    (call : Called start p s) : s.rest.items <:+ start.rest.items := by
  induction call with
  | whole => exact List.suffix_rfl
  | next _ run ih => exact (suffix_of_run run).trans ih
  | cleanup _ run ih => exact (suffix_of_run run).trans ih
  | again _ run _ ih => exact (suffix_of_run run).trans ih
  | first _ ih | attempt _ ih | guarded _ ih | spanned _ ih | round _ ih
  | nested _ _ ih | inFunction _ ih | droppable _ ih => exact ih

theorem discard_statement (g : Grammar) (s : State) :
    ((statement g).run s).2.discard = s.discard := by
  simp only [statement, run_nested]
  split <;> rfl

theorem error_of_statement (g : Grammar) (s : State) (failed : ((statement g).run s).1 = none) :
    s.ErrorSince ((statement g).run s).2 := by
  simp only [statement, run_nested] at failed ⊢
  split
  · exact .report s _ rfl
  · rename_i shallow
    rw [if_neg shallow] at failed
    exact error_of_dropped (statementBody g) (s.atNesting (s.nesting + 1)) failed

end Parser

open BrightScript.Parser in
/-- Every call in a parse keeps the books, whether it succeeds or fails, and no statement is dropped
in silence. -/
theorem calls_keep_books (mode : Mode) (tokens : List Token) :
    (∀ {α : Type} (p : Parser α) (s : State), Called (.start mode tokens) p s →
      let s' := (p.run s).2
      (∃ i j, i ≤ j ∧ s.rest.items = tokens.drop i ∧ s'.rest.items = tokens.drop j) ∧
        s'.nesting = s.nesting ∧ s'.functions = s.functions ∧
        ∃ new, s'.diagnostics = s.diagnostics ++ new) ∧
    ∀ (g : Grammar) (s : State), Called (.start mode tokens) (statement g) s →
      let s' := ((statement g).run s).2
      s'.discard = s.discard ∧ (((statement g).run s).1 = none →
        ∃ new, s'.diagnostics = s.diagnostics ++ new ∧ ∃ d ∈ new, d.isError = true) := by
  refine ⟨fun p s call => ?_, fun g s _ => ⟨discard_statement g s, error_of_statement g s⟩⟩
  have kept := p.advances s
  obtain ⟨n, rest⟩ := kept.taken
  obtain ⟨new, reports⟩ := kept.diagnostics
  obtain ⟨i, here⟩ : ∃ i, s.rest.items = tokens.drop i :=
    ⟨_, List.suffix_iff_eq_drop.mp call.suffix⟩
  refine ⟨⟨i, i + n, Nat.le_add_right i n, here, ?_⟩, kept.nesting, kept.functions, new,
    reports.symm⟩
  rw [rest, Input.items_drop, here, List.drop_drop]

open BrightScript.Parser in
/- A name by itself is no statement. -/
theorem calls_keep_books_name :
    let tokens : List Token := [⟨.identifier, "x", .empty .origin, none⟩]
    let s : State := .start .brightScript tokens
    Called s (statement (unroll maxNesting)) s ∧
      ((statement (unroll maxNesting)).run s).1 = none ∧
      (∃ i j, i ≤ j ∧ s.rest.items = tokens.drop i ∧
        ((statement (unroll maxNesting)).run s).2.rest.items = tokens.drop j) ∧
      ∃ new, ((statement (unroll maxNesting)).run s).2.diagnostics = [] ++ new ∧
        ∃ d ∈ new, d.isError = true := by
  intro tokens s
  have round : Called s (statementRound grammar []) s := .first (.round .whole)
  have code := Called.next round (show Parser.kind.run s = (some .identifier, s) from rfl)
  have attempt := Called.next code
    (show (inspect (State.closes · [])).run s = (some false, s) from rfl)
  have call : Called s (statement (unroll maxNesting)) s := .attempt (.first attempt)
  have failed : ((statement (unroll maxNesting)).run s).1 = none := by decide +kernel
  obtain ⟨every, statements⟩ := calls_keep_books .brightScript tokens
  exact ⟨call, failed, (every _ s call).1, (statements _ s call).2 failed⟩

end BrightScript
