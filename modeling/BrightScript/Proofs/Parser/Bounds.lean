import BrightScript.Proofs.Parser.Reads
import BrightScript.Token.Scan
import Mathlib.Order.Defs.LinearOrder

/-! Where tokens stand.
The tokens of a text stand in the order of their places. The place of a state is where its current
token starts, and what has been taken on the way to it stops before. -/
namespace BrightScript

namespace Position

theorem le_def {a b : Position} :
    a ≤ b ↔ a.line < b.line ∨ (a.line = b.line ∧ a.column ≤ b.column) := Iff.rfl

theorem lt_def {a b : Position} :
    a < b ↔ a.line < b.line ∨ (a.line = b.line ∧ a.column < b.column) := Iff.rfl

instance : LinearOrder Position where
  le_refl _ := .inr ⟨rfl, Nat.le_refl _⟩
  le_trans a b c := by
    simp only [le_def]
    omega
  le_antisymm := by
    rintro ⟨line, column⟩ ⟨line', column'⟩ first second
    simp only [le_def] at first second
    rw [mk.injEq]
    omega
  lt_iff_le_not_ge a b := by
    simp only [lt_def, le_def]
    omega
  le_total a b := by
    simp only [le_def]
    omega
  toDecidableLE := inferInstance

theorem later_le {a b c : Position} : a.later b ≤ c ↔ a ≤ c ∧ b ≤ c := by
  unfold later
  split
  · rename_i ordered
    exact ⟨fun h => ⟨le_trans ordered h, h⟩, And.right⟩
  · rename_i other
    have ordered : b ≤ a := (le_total a b).resolve_left other
    exact ⟨fun h => ⟨h, le_trans ordered h⟩, And.left⟩

theorem le_later_left (a b : Position) : a ≤ a.later b := (later_le.mp (le_refl _)).1

theorem le_later_right (a b : Position) : b ≤ a.later b := (later_le.mp (le_refl _)).2

theorem later_eq_right {a b : Position} (h : a ≤ b) : a.later b = b := if_pos h

end Position

theorem Range.union_eq {a b : Range} (starts : a.start ≤ b.start) (stops : a.stop ≤ b.stop) :
    a.union b = ⟨a.start, b.stop⟩ := by
  simp [union, Position.earlier, if_pos starts, Position.later_eq_right stops]

/-- Tokens one after the other. Only the end of the file takes up no text. -/
structure Ordered (tokens : List Token) : Prop where
  sorted : tokens.Pairwise fun t next => t.range.stop ≤ next.range.start
  proper : ∀ t ∈ tokens, t.range.start ≤ t.range.stop
  solid : ∀ t ∈ tokens, t.kind ≠ .endOfFile → t.range.start < t.range.stop

theorem Ordered.suffix {tokens tail : List Token} (h : Ordered tokens) (suffix : tail <:+ tokens) :
    Ordered tail :=
  ⟨h.sorted.sublist suffix.sublist, fun t mem => h.proper t (suffix.subset mem),
    fun t mem => h.solid t (suffix.subset mem)⟩

namespace Position

theorem lt_step (p : Position) (c : Char) : p < p.step c := by
  unfold step
  split
  · exact .inl (Nat.lt_succ_self _)
  · refine .inr ⟨rfl, Nat.lt_add_of_pos_right ?_⟩
    unfold units
    split <;> decide

theorem le_after (p : Position) (text : List Char) : p ≤ p.after text := by
  induction text generalizing p with
  | nil => exact le_refl p
  | cons c text ih => exact le_trans (le_of_lt (lt_step p c)) (ih (p.step c))

theorem lt_after_cons (p : Position) (c : Char) (text : List Char) : p < p.after (c :: text) :=
  lt_of_lt_of_le (lt_step p c) (le_after _ text)

end Position

namespace Scan

/-- Every token starts at the position or later. -/
def From (start : Position) (tokens : List Token) : Prop := ∀ t ∈ tokens, start ≤ t.range.start

/- A lexeme makes at most one token. -/
theorem ordered_tokensOf {reading : Reading} {text : String} {start stop : Position}
    {rest : List Token} (lt : start < stop) (ordered : Ordered rest) (later : From stop rest) :
    Ordered (tokensOf reading text ⟨start, stop⟩ ++ rest) ∧
      From start (tokensOf reading text ⟨start, stop⟩ ++ rest) := by
  have le := le_of_lt lt
  have one : ∀ t : Token, t.range = ⟨start, stop⟩ → Ordered (t :: rest) ∧ From start (t :: rest) := by
    intro t range
    refine ⟨⟨List.pairwise_cons.mpr ⟨fun next mem => ?_, ordered.sorted⟩, ?_, ?_⟩, ?_⟩
    · rw [range]
      exact later next mem
    · refine List.forall_mem_cons.mpr ⟨?_, ordered.proper⟩
      rw [range]
      exact le
    · refine List.forall_mem_cons.mpr ⟨fun _ => ?_, ordered.solid⟩
      rw [range]
      exact lt
    · refine List.forall_mem_cons.mpr ⟨?_, fun next mem => le_trans le (later next mem)⟩
      rw [range]
  unfold tokensOf
  split
  · exact one _ rfl
  · exact one _ rfl
  · exact ⟨ordered, fun next mem => le_trans le (later next mem)⟩
  · exact ⟨ordered, fun next mem => le_trans le (later next mem)⟩

theorem ordered_run (last : Option Kind) (start : Position) (text : List Char) :
    Ordered (run last start text).tokens ∧ From start (run last start text).tokens := by
  fun_induction run last start text with
  | case1 last start =>
    refine ⟨⟨List.pairwise_singleton _ _, ?_, ?_⟩, ?_⟩
    all_goals
      intro t mem
      rw [List.mem_singleton.mp mem]
    · exact le_refl start
    · exact fun other => absurd rfl other
    · exact le_refl start
  | case2 last start c cs lexeme taken stop here rest ih =>
    exact ordered_tokensOf (Position.lt_after_cons start c _) ih.1 ih.2

end Scan

theorem ordered_scan (source : String) : Ordered (scan source).tokens := (Scan.ordered_run _ _ _).1

namespace Parser
namespace State

variable {s s' s'' : State}

/-- Every token that is left starts at the position or later. -/
def After (s : State) (p : Position) : Prop := ∀ t ∈ s.rest.items, p ≤ t.range.start

/-- Where the current token starts. -/
def place (s : State) : Position := s.range.start

/-- The tokens stand in order, and in front of the end. -/
structure Sound (s : State) : Prop where
  ordered : Ordered s.rest.items
  inside : ∀ t ∈ s.rest.items, t.range.stop ≤ s.finish

/-- What of the way from one state to another tells where things stand. -/
structure Leads (s s' : State) : Prop where
  suffix : s'.rest.items <:+ s.rest.items
  finish : s'.finish = s.finish
  reports : s.diagnostics <+: s'.diagnostics

theorem Advances.leads (h : s.Advances s') : s.Leads s' := ⟨h.suffix, h.finish, h.diagnostics⟩

theorem Leads.trans (first : s.Leads s') (second : s'.Leads s'') : s.Leads s'' :=
  ⟨second.suffix.trans first.suffix, second.finish.trans first.finish,
    first.reports.trans second.reports⟩

/-- Where the last token stops that has been taken on the way to `s'`. -/
def reached (s s' : State) : Position := (s.lastTaken s').elim s.place (·.range.stop)

theorem lastTaken_of_items {taken : List Token} (items : s.rest.items = taken ++ s'.rest.items) :
    s.lastTaken s' = taken.getLast? := by
  unfold lastTaken
  rw [s.rest.size_eq, s'.rest.size_eq, items, List.length_append, Nat.add_sub_cancel,
    List.take_left]

theorem place_of_cons {t : Token} {rest : List Token} (items : s.rest.items = t :: rest) :
    s.place = t.range.start := by
  simp [place, range, token, Input.head?, items]

theorem place_of_nil (items : s.rest.items = []) : s.place = s.finish := by
  simp [place, range, token, Input.head?, items, Token.endOfFile, Range.empty]

namespace Sound

theorem advance (h : s.Sound) (onward : s.Leads s') : s'.Sound :=
  ⟨h.ordered.suffix onward.suffix, fun t mem => by
    rw [onward.finish]
    exact h.inside t (onward.suffix.subset mem)⟩

theorem after_place (h : s.Sound) : s.After s.place := by
  intro t mem
  cases items : s.rest.items with
  | nil => simp [items] at mem
  | cons first rest =>
    rw [place_of_cons items]
    rw [items] at mem
    have ordered := items ▸ h.ordered
    rcases List.mem_cons.mp mem with rfl | later
    · exact le_refl _
    · exact le_trans (ordered.proper _ List.mem_cons_self)
        (List.rel_of_pairwise_cons ordered.sorted later)

/- What has been taken lies between the two places. -/
theorem taken_between (h : s.Sound) (onward : s.Leads s') {taken : List Token}
    (items : s.rest.items = taken ++ s'.rest.items) {t : Token} (mem : t ∈ taken) :
    s.place ≤ t.range.start ∧ t.range.stop ≤ s.reached s' ∧ t.range.stop ≤ s'.place := by
  have mem' : t ∈ s.rest.items := items ▸ List.mem_append_left _ mem
  refine ⟨h.after_place t mem', ?_, ?_⟩
  · obtain ⟨front, last, rfl⟩ := (List.eq_nil_or_concat taken).resolve_left (List.ne_nil_of_mem mem)
    rw [List.concat_eq_append] at items mem
    have sorted := h.ordered.sorted
    rw [items] at sorted
    rw [reached, lastTaken_of_items items, List.getLast?_concat]
    rcases List.mem_append.mp mem with early | final
    · refine le_trans ((List.pairwise_append.mp (List.pairwise_append.mp sorted).1).2.2 t early last
        (by simp)) (h.ordered.proper last ?_)
      simp [items]
    · rw [List.mem_singleton.mp final]
      exact le_refl _
  · cases rest : s'.rest.items with
    | nil =>
      rw [place_of_nil rest, onward.finish]
      exact h.inside t mem'
    | cons u more =>
      rw [place_of_cons rest]
      have sorted := h.ordered.sorted
      rw [items] at sorted
      exact (List.pairwise_append.mp sorted).2.2 t mem u (by simp [rest])

/- Either nothing has been taken, or a last token has. -/
theorem reached_cases (onward : s.Leads s') :
    (s'.rest.items = s.rest.items ∧ s.reached s' = s.place ∧ s.place = s'.place) ∨
      ∃ taken last, s.rest.items = taken ++ [last] ++ s'.rest.items ∧
        s.lastTaken s' = some last ∧ s.reached s' = last.range.stop := by
  obtain ⟨taken, split⟩ := onward.suffix
  rcases List.eq_nil_or_concat taken with rfl | ⟨front, last, rfl⟩
  · refine .inl ⟨split, ?_, ?_⟩
    · rw [reached, lastTaken_of_items split.symm]
      rfl
    · have same : s.rest = s'.rest := Input.eq_of_items split.symm
      simp only [place, range, token, same, onward.finish]
  · rw [List.concat_eq_append] at split
    have last_eq : s.lastTaken s' = some last := by
      rw [lastTaken_of_items split.symm, List.getLast?_concat]
    exact .inr ⟨front, last, split.symm, last_eq, by rw [reached, last_eq]; rfl⟩

theorem place_le_reached (h : s.Sound) (onward : s.Leads s') : s.place ≤ s.reached s' := by
  rcases reached_cases onward with ⟨-, same, -⟩ | ⟨front, last, items, -, stop⟩
  · exact same ▸ le_refl _
  · have between := h.taken_between onward items (List.mem_append_right _ List.mem_cons_self)
    have proper := h.ordered.proper last (by simp [items])
    exact le_trans between.1 (le_trans proper between.2.1)

theorem token_le_reached (h : s.Sound) (onward : s.Leads s') (taken : s.place < s.reached s') :
    s.range.stop ≤ s.reached s' := by
  rcases reached_cases onward with ⟨-, same, -⟩ | ⟨front, last, items, -, -⟩
  · exact absurd (same ▸ taken) (lt_irrefl _)
  · refine (h.taken_between onward items ?_).2.1
    cases front with
    | nil => simp [token, Input.head?, items]
    | cons t front => simp [token, Input.head?, items]

theorem reached_le_place (h : s.Sound) (onward : s.Leads s') : s.reached s' ≤ s'.place := by
  rcases reached_cases onward with ⟨-, same, place⟩ | ⟨front, last, items, -, stop⟩
  · exact same ▸ place ▸ le_refl _
  · rw [stop]
    exact (h.taken_between onward items (List.mem_append_right _ List.mem_cons_self)).2.2

theorem place_le (h : s.Sound) (onward : s.Leads s') : s.place ≤ s'.place :=
  le_trans (h.place_le_reached onward) (h.reached_le_place onward)

/- What has been reached only moves on, and if anything more is taken, to where that stops. -/
theorem reached_trans (h : s.Sound) (first : s.Leads s') (second : s'.Leads s'') :
    s.reached s' ≤ s.reached s'' ∧
      (s'.reached s'' = s'.place ∨ s'.reached s'' = s.reached s'') := by
  obtain ⟨taken, split⟩ := first.suffix
  rcases reached_cases second with ⟨same, place, -⟩ | ⟨more, last, items, -, stop⟩
  · have rest : s''.rest = s'.rest := Input.eq_of_items same
    refine ⟨?_, .inl place⟩
    simp only [reached, lastTaken, rest]
    exact le_refl _
  · have whole : s.rest.items = (taken ++ more ++ [last]) ++ s''.rest.items := by
      rw [← split, items]
      simp
    have there : s.reached s'' = last.range.stop := by
      rw [reached, lastTaken_of_items whole, List.getLast?_concat]
      rfl
    have last_mem : last ∈ s'.rest.items := by simp [items]
    refine ⟨?_, .inr (stop.trans there.symm)⟩
    calc s.reached s' ≤ s'.place := h.reached_le_place first
      _ ≤ last.range.start := (h.advance first).after_place last last_mem
      _ ≤ s.reached s'' := there ▸ (h.advance first).ordered.proper last last_mem

end Sound
end State
end Parser
end BrightScript
