import BrightScript.Proofs.Parser.Inversion
import BrightScript.Proofs.Parser.Verge

/-! The end of a text against a line break.
A text that is read without a report is read the same if it goes on with another line. A parser
that has the end of the file before it sees a line break instead: mostly it stops at both, and
where it would go on past a line break it needs something that is not at the end of the file. -/
namespace BrightScript.Parser

variable {α β σ : Type} {k : Kind} {F : State → α}

/-- The end of a file, and a line break in its place with more tokens behind it. -/
structure Seam where
  file : Token
  line : Token
  more : List Token
  finish : Position
  finish' : Position
  file_kind : file.kind = .endOfFile
  line_kind : line.kind = .newline
  code : ∀ t, more.head? = some t → t.kind ≠ .comment

namespace Seam

variable (j : Seam) (s : State)

/-- The state with the tokens `u` left before the end of the file. -/
def before (u : List Token) : State := s.upTo u [j.file] j.finish

def across (u : List Token) : State := s.upTo u (j.line :: j.more) j.finish'

variable {u : List Token} {t : Token}

@[simp] theorem token_before : (j.before s (t :: u)).token = t := rfl
@[simp] theorem token_across : (j.across s (t :: u)).token = t := rfl
@[simp] theorem kind_before : (j.before s (t :: u)).kind = t.kind := rfl
@[simp] theorem kind_across : (j.across s (t :: u)).kind = t.kind := rfl
@[simp] theorem kind_before_nil : (j.before s []).kind = .endOfFile := j.file_kind
@[simp] theorem kind_across_nil : (j.across s []).kind = .newline := j.line_kind

theorem size_before (u : List Token) : (j.before s u).rest.size = u.length + 1 :=
  s.size_upTo u _ _

theorem size_across (u : List Token) :
    (j.across s u).rest.size = u.length + (j.more.length + 1) := s.size_upTo u _ _

end Seam

/-- A run of `p` without a report, with the tokens `u` left before the end of the file, does not
take the end of the file, and is the same before a line break. A `lost` one may be another there if
it takes all of the tokens. -/
def Mirrors (j : Seam) (lost : Bool) (p : Parser α) (u : List Token) : Prop :=
  ∀ s a s', s.discard = false → Reads p (j.before s u) a s' →
    ∃ u', u' <:+ u ∧ s' = j.before s' u' ∧
      ((lost = true ∧ u' = []) ∨ Reads p (j.across s u) a (j.across s' u'))

def Starved (j : Seam) (p : Parser α) : Prop := ∀ s a s', ¬ Reads p (j.before s []) a s'

namespace Starved

variable {j : Seam} {p : Parser α} {f : α → Parser β}

theorem bind (h : Starved j p) : Starved j (p >>= f) := by
  intro s b s' run
  obtain ⟨a, t, first, _⟩ := reads_bind.mp run
  exact h s a t first

theorem kind {f : Kind → Parser β} (h : Starved j (f .endOfFile)) : Starved j (kind >>= f) := by
  intro s b s' run
  replace run := Reads.kind_bind.mp run
  rw [j.kind_before_nil] at run
  exact h s b s' run

theorem token {f : Token → Parser β} (h : ∀ t, t.kind = .endOfFile → Starved j (f t)) :
    Starved j (token >>= f) :=
  fun s b s' run => h _ (j.kind_before_nil s) s b s' (Reads.token_bind.mp run)

theorem inspect {framed impartial}
    (h : ∀ s b s', ¬ Reads (f (F (j.before s []))) (j.before s []) b s') :
    Starved j (inspect F framed impartial >>= f) :=
  fun s b s' run => h s b s' (Reads.inspect_bind.mp run)

theorem isAt {f : Bool → Parser β} (other : k ≠ .endOfFile) (h : Starved j (f false)) :
    Starved j (isAt k >>= f) := by
  refine .inspect fun s => ?_
  rw [j.kind_before_nil, decide_eq_false other.symm]
  exact h s

theorem accept {f : Bool → Parser β} (other : k ≠ .endOfFile) (h : Starved j (f false)) :
    Starved j (accept k >>= f) := by
  intro s b s' run
  obtain ⟨here, _⟩ | ⟨_, rest⟩ := Reads.accept_bind.mp run
  · exact other (here.symm.trans (j.kind_before_nil s))
  · exact h s b s' rest

theorem never (h : ∀ s a s', ¬ Reads p s a s') : Starved j p := fun _ _ _ => h _ _ _

theorem loop {round : σ → Parser (Round σ α)} {x : σ} (h : Starved j (round x)) :
    Starved j (loop round x) := by
  intro s a s' run
  obtain last | ⟨y, t, first, _⟩ := reads_loop.mp run
  · exact h _ _ _ last
  · exact h _ _ _ first

theorem nested (h : Starved j p) : Starved j (nested p) := by
  intro s a s' run
  obtain ⟨_, t, inner, _⟩ := reads_nested.mp run
  exact h (s.atNesting (s.nesting + 1)) a t inner

theorem droppable (h : Starved j p) : Starved j (droppable p) := by
  intro s a s' run
  obtain ⟨t, inner, _⟩ := reads_droppable.mp run
  exact h (s.withDiscard false) a t inner

theorem spanned {first : Range} {p : Parser (Range → α)} (h : Starved j p) :
    Starved j (spanned first p) := by
  intro s a s' run
  obtain ⟨node, _, inner, _⟩ := reads_spanned.mp run
  exact h s node s' inner

theorem ranged {p : Parser (Range → α)} (h : Starved j p) : Starved j (ranged p) :=
  .inspect fun s => h.spanned s

theorem expect (other : k ≠ .endOfFile) : Starved j (expect k) :=
  .accept other (.never (by simp))

end Starved

namespace Mirrors

variable {j : Seam} {lost : Bool} {p : Parser α} {f : α → Parser β} {u : List Token}

theorem of_starved (h : Starved j p) : Mirrors j lost p [] :=
  fun s a s' _ run => absurd run (h s a s')

theorem never (h : ∀ s a s', ¬ Reads p s a s') : Mirrors j lost p u :=
  fun _ _ _ _ run => absurd run (h _ _ _)

theorem weaken (h : Mirrors j false p u) : Mirrors j lost p u := by
  intro s a s' unmarked run
  obtain ⟨u', suffix, same, ⟨⟨⟩, _⟩ | across⟩ := h s a s' unmarked run
  exact ⟨u', suffix, same, .inr across⟩

theorem inspect {framed impartial} (h : ∀ s, F (j.before s u) = F (j.across s u)) :
    Mirrors j lost (inspect F framed impartial) u := by
  intro s a s' _ run
  obtain ⟨rfl, rfl⟩ := reads_inspect.mp run
  exact ⟨u, List.suffix_refl u, rfl, .inr (reads_inspect.mpr ⟨(h s).symm, rfl⟩)⟩

theorem pure {a : α} : Mirrors j lost (Pure.pure a) u := .inspect fun _ => rfl

theorem bind (first : Mirrors j lost p u) (second : ∀ a u', u' <:+ u → Mirrors j lost (f a) u') :
    Mirrors j lost (p >>= f) u := by
  intro s b s'' unmarked run
  obtain ⟨a, s', head, tail⟩ := reads_bind.mp run
  obtain ⟨v, suffix, same, mirrored⟩ := first s a s' unmarked head
  rw [same] at tail
  obtain ⟨w, suffix', same', mirrored'⟩ :=
    second a v suffix s' b s'' (head.discard_eq.trans unmarked) tail
  refine ⟨w, suffix'.trans suffix, same', ?_⟩
  rcases mirrored with ⟨isLost, rfl⟩ | across
  · exact .inl ⟨isLost, List.suffix_nil.mp suffix'⟩
  · exact mirrored'.imp id fun across' => reads_bind.mpr ⟨a, _, across, across'⟩

theorem bind_starved (first : Mirrors j true p u)
    (second : ∀ a u', u' <:+ u → Mirrors j lost (f a) u') (starved : ∀ a, Starved j (f a)) :
    Mirrors j lost (p >>= f) u := by
  intro s b s'' unmarked run
  obtain ⟨a, s', head, tail⟩ := reads_bind.mp run
  obtain ⟨v, suffix, same, ⟨_, rfl⟩ | across⟩ := first s a s' unmarked head
  · rw [same] at tail
    exact absurd tail (starved a s' b s'')
  · rw [same] at tail
    obtain ⟨w, suffix', same', mirrored'⟩ :=
      second a v suffix s' b s'' (head.discard_eq.trans unmarked) tail
    exact ⟨w, suffix'.trans suffix, same',
      mirrored'.imp id fun across' => reads_bind.mpr ⟨a, _, across, across'⟩⟩

theorem map {g : α → β} (h : Mirrors j lost p u) : Mirrors j lost (g <$> p) u :=
  h.bind fun _ _ _ => .pure

theorem take {v w : List Token} : Mirrors j lost (take v.length) (v ++ w) := by
  intro s a s' _ run
  obtain rfl := reads_take.mp run
  refine ⟨w, List.suffix_append v w, ?_, .inr (reads_take.mpr ?_)⟩
  · simp only [Seam.before, State.drop_upTo]
    rfl
  · simp only [Seam.across, Seam.before, State.drop_upTo]
    rfl

theorem advance (open_ : u ≠ []) : Mirrors j lost advance u := by
  obtain ⟨t, w, rfl⟩ := List.exists_cons_of_ne_nil open_
  exact take (v := [t])

theorem member (open_ : u ≠ []) : Mirrors j lost member u := by
  obtain ⟨t', u', rfl⟩ := List.exists_cons_of_ne_nil open_
  intro s t s' unmarked run
  obtain ⟨same, taken⟩ := reads_member.mp run
  have step : Mirrors j lost Parser.advance (t' :: u') := advance open_
  obtain ⟨w, suffix, left, across⟩ := step s () s' unmarked (reads_advance.mpr taken)
  exact ⟨w, suffix, left, across.imp_right fun run' =>
    reads_member.mpr ⟨same, reads_advance.mp run'⟩⟩

theorem inspecting {framed impartial} (same : ∀ s, F (j.before s u) = F (j.across s u))
    (rest : ∀ s, Mirrors j lost (f (F (j.before s u))) u) :
    Mirrors j lost (Parser.inspect F framed impartial >>= f) u := by
  intro s b s' unmarked run
  obtain ⟨u', suffix, left, mirrored⟩ := rest s s b s' unmarked (Reads.inspect_bind.mp run)
  refine ⟨u', suffix, left, mirrored.imp id fun across => Reads.inspect_bind.mpr ?_⟩
  rwa [← same s]

theorem inspecting_nil {framed impartial} (rest : ∀ s, Mirrors j true (f (F (j.before s []))) []) :
    Mirrors j true (Parser.inspect F framed impartial >>= f) [] := by
  intro s b s' unmarked run
  obtain ⟨u', suffix, left, _⟩ := rest s s b s' unmarked (Reads.inspect_bind.mp run)
  exact ⟨u', suffix, left, .inl ⟨rfl, List.suffix_nil.mp suffix⟩⟩

theorem stepping {t : Token} (first : Mirrors j false p (t :: u))
    (one : ∀ s a s', Reads p s a s' → s' = s.drop 1) (rest : ∀ a, Mirrors j lost (f a) u) :
    Mirrors j lost (p >>= f) (t :: u) := by
  intro s b s'' unmarked run
  obtain ⟨a, s', head, tail⟩ := reads_bind.mp run
  obtain ⟨v, _, left, ⟨⟨⟩, _⟩ | across⟩ := first s a s' unmarked head
  have taken : (j.before s (t :: u)).drop 1 = j.before s u := s.drop_upTo [t] u _ _
  obtain rfl : v = u := by
    have items := congrArg (·.rest.items) (left.symm.trans ((one _ _ _ head).trans taken))
    exact List.append_cancel_right items
  rw [left] at tail
  obtain ⟨u', suffix, left', mirrored⟩ := rest a s' b s'' (head.discard_eq.trans unmarked) tail
  exact ⟨u', suffix.trans (List.suffix_cons t v), left', mirrored.imp id fun across' =>
    reads_bind.mpr ⟨a, _, across, across'⟩⟩

theorem advancing {f : Unit → Parser β} {t : Token} (rest : Mirrors j lost (f ()) u) :
    Mirrors j lost (Parser.advance >>= f) (t :: u) :=
  .stepping (.advance (List.cons_ne_nil t u)) (fun _ _ _ run => (reads_advance.mp run).symm)
    fun _ => rest

theorem looking {framed impartial} (open_ : u ≠ [])
    (same : ∀ t w s, F (j.before s (t :: w)) = F (j.across s (t :: w)))
    (rest : ∀ a, Mirrors j lost (f a) u) :
    Mirrors j lost (Parser.inspect F framed impartial >>= f) u := by
  obtain ⟨t, w, rfl⟩ := List.exists_cons_of_ne_nil open_
  exact .inspecting (same t w) fun _ => rest _

theorem taking {framed impartial} {f : α → Unit → Parser β} (open_ : u ≠ [])
    (same : ∀ t w s, F (j.before s (t :: w)) = F (j.across s (t :: w)))
    (rest : ∀ a w, Mirrors j lost (f a ()) w) :
    Mirrors j lost (Parser.inspect F framed impartial >>= fun a => Parser.advance >>= f a) u :=
  .looking open_ same fun a => .bind (.advance open_) fun _ w _ => rest a w

theorem kind {f : Kind → Parser β} (cons : ∀ k, u ≠ [] → Mirrors j lost (f k) u)
    (nil : (f .newline = f .endOfFile ∧ Mirrors j lost (f .endOfFile) []) ∨
      Starved j (f .endOfFile)) : Mirrors j lost (kind >>= f) u := by
  cases u with
  | cons t u => exact .inspecting (fun _ => rfl) fun _ => cons _ (List.cons_ne_nil _ _)
  | nil =>
    rcases nil with ⟨same, rest⟩ | starved
    · intro s b s' unmarked run
      replace run := Reads.kind_bind.mp run
      rw [j.kind_before_nil] at run
      obtain ⟨u', suffix, left, mirrored⟩ := rest s b s' unmarked run
      refine ⟨u', suffix, left, mirrored.imp id fun across => Reads.kind_bind.mpr ?_⟩
      rwa [j.kind_across_nil, same]
    · exact of_starved (.kind starved)

theorem token_nil {f : Token → Parser β} (same : f j.line = f j.file)
    (rest : Mirrors j lost (f j.file) []) : Mirrors j lost (token >>= f) [] := by
  intro s b s' unmarked run
  obtain ⟨u', suffix, left, mirrored⟩ := rest s b s' unmarked (Reads.token_bind.mp run)
  exact ⟨u', suffix, left, mirrored.imp id fun across => Reads.token_bind.mpr (same ▸ across)⟩

/-- A kind that stands neither at the end of a line nor of the file. -/
structure Inner (k : Kind) : Prop where
  line : k ≠ .newline
  file : k ≠ .endOfFile

theorem isAt_eq (inner : Inner k) (s : State) (u : List Token) :
    decide ((j.before s u).kind = k) = decide ((j.across s u).kind = k) := by
  cases u with
  | cons t u => rfl
  | nil =>
    rw [j.kind_before_nil, j.kind_across_nil, decide_eq_false inner.line.symm,
      decide_eq_false inner.file.symm]

theorem isAt {f : Bool → Parser β} (inner : Inner k) (yes : u ≠ [] → Mirrors j lost (f true) u)
    (no : Mirrors j lost (f false) u) : Mirrors j lost (isAt k >>= f) u := by
  refine .inspecting (fun s => isAt_eq inner s u) fun s => ?_
  by_cases here : (j.before s u).kind = k
  · rw [decide_eq_true here]
    refine yes ?_
    rintro rfl
    exact inner.file (here.symm.trans (j.kind_before_nil s))
  · rw [decide_eq_false here]
    exact no

theorem accept (inner : Inner k) : Mirrors j lost (accept k) u :=
  .isAt inner (fun open_ => .bind (.advance open_) fun _ _ _ => .pure) .pure

theorem expect (inner : Inner k) : Mirrors j lost (expect k) u :=
  .bind (.accept inner) fun found _ _ => by
    cases found with
    | true => exact .pure
    | false => exact .never (by simp)

theorem atName {word : String} {f : Bool → Parser β} (yes : u ≠ [] → Mirrors j lost (f true) u)
    (no : Mirrors j lost (f false) u) : Mirrors j lost (atName word >>= f) u := by
  cases u with
  | cons t u =>
    refine .inspecting (fun _ => rfl) fun s => ?_
    cases (j.before s (t :: u)).kind = .identifier &&
        Text.sameWord (j.before s (t :: u)).token.text word with
    | true => exact yes (List.cons_ne_nil _ _)
    | false => exact no
  | nil =>
    refine .inspecting (fun s => ?_) fun s => ?_
    · simp
    · simpa using no

theorem memberName (open_ : u ≠ []) : Mirrors j lost memberName u :=
  (member open_).bind fun _ _ _ => .pure

theorem takeIdent (open_ : u ≠ []) : Mirrors j lost takeIdent u :=
  .taking open_ (fun _ _ _ => rfl) fun _ _ => .pure

theorem skipWhile {skips : Kind → Bool} (file : skips .endOfFile = false) :
    Mirrors j true (skipWhile skips) u := by
  intro s a s' _ run
  obtain rfl := reads_skipWhile.mp run
  obtain ⟨v, w, rfl, skipped, stops⟩ := exists_skipped skips u
  have left : (j.before s (v ++ w)).skipWhile skips = j.before s w := by
    refine s.skipWhile_upTo _ _ skipped fun t head => ?_
    cases w with
    | nil =>
      obtain rfl : j.file = t := by simpa using head
      rw [j.file_kind]
      exact file
    | cons x w => exact stops t head
  rw [left]
  refine ⟨w, List.suffix_append v w, rfl, ?_⟩
  cases w with
  | nil => exact .inl ⟨rfl, rfl⟩
  | cons x w => exact .inr (reads_skipWhile.mpr (s.skipWhile_upTo _ _ skipped stops))

theorem spanned {first : Range} {p : Parser (Range → α)} (h : Mirrors j lost p u) :
    Mirrors j lost (spanned first p) u := by
  intro s a s' unmarked run
  obtain ⟨node, range, inner, rfl, rfl⟩ := reads_spanned.mp run
  obtain ⟨u', ⟨v, rfl⟩, left, mirrored⟩ := h s node s' unmarked inner
  refine ⟨u', List.suffix_append v u', left, mirrored.imp id fun across => ?_⟩
  refine reads_spanned.mpr ⟨node, _, across, ?_, rfl⟩
  rw [left]
  simp only [Seam.before, Seam.across, State.lastTaken_upTo]

theorem ranged {p : Parser (Range → α)} (open_ : u ≠ []) (h : Mirrors j lost p u) :
    Mirrors j lost (ranged p) u := .looking open_ (fun _ _ _ => rfl) fun _ => h.spanned

theorem nested (h : Mirrors j lost p u) : Mirrors j lost (nested p) u := by
  intro s a s' unmarked run
  obtain ⟨shallow, t, inner, rfl⟩ := reads_nested.mp run
  obtain ⟨u', suffix, left, mirrored⟩ := h (s.atNesting (s.nesting + 1)) a t unmarked inner
  refine ⟨u', suffix, congrArg (·.atNesting s.nesting) left, mirrored.imp id fun across => ?_⟩
  exact reads_nested.mpr ⟨shallow, _, across, rfl⟩

theorem inFunction (h : Mirrors j lost p u) : Mirrors j lost (inFunction p) u := by
  intro s a s' unmarked run
  obtain ⟨t, inner, rfl⟩ := reads_inFunction.mp run
  obtain ⟨u', suffix, left, mirrored⟩ := h (s.atFunctions (s.functions + 1)) a t unmarked inner
  refine ⟨u', suffix, congrArg (·.atFunctions s.functions) left, mirrored.imp id fun across => ?_⟩
  exact reads_inFunction.mpr ⟨_, across, rfl⟩

theorem droppable (h : Mirrors j lost p u) : Mirrors j lost (droppable p) u := by
  intro s a s' _ run
  obtain ⟨t, inner, rfl⟩ := reads_droppable.mp run
  obtain ⟨u', suffix, left, mirrored⟩ := h (s.withDiscard false) a t rfl inner
  refine ⟨u', suffix, congrArg (·.withDiscard s.discard) left, mirrored.imp id fun across => ?_⟩
  exact reads_droppable.mpr ⟨_, across, rfl⟩

theorem attempting {f : Option α → Parser β} (h : Mirrors j lost p u)
    (rest : ∀ a u', u' <:+ u → Mirrors j lost (f (some a)) u') :
    Mirrors j lost (Parser.attemptPast p >>= f) u := by
  intro s b s'' unmarked run
  obtain ⟨r, s', head, tail⟩ := reads_bind.mp run
  obtain ⟨a, rfl, inner⟩ := (reads_attemptPast (s := j.before s u) unmarked).mp head
  obtain ⟨v, suffix, same, mirrored⟩ := h s a s' unmarked inner
  rw [same] at tail
  obtain ⟨w, suffix', same', mirrored'⟩ :=
    rest a v suffix s' b s'' (inner.discard_eq.trans unmarked) tail
  refine ⟨w, suffix'.trans suffix, same', ?_⟩
  rcases mirrored with ⟨isLost, rfl⟩ | across
  · exact .inl ⟨isLost, List.suffix_nil.mp suffix'⟩
  · exact mirrored'.imp id fun across' =>
      reads_bind.mpr ⟨some a, _,
        (reads_attemptPast (s := j.across s u) unmarked).mpr ⟨a, rfl, across⟩, across'⟩

theorem withCleanup {cleanup : Parser Unit} (h : Mirrors j lost p u) :
    Mirrors j lost (withCleanup p cleanup) u := by
  intro s a s' unmarked run
  obtain ⟨u', suffix, left, mirrored⟩ := h s a s' unmarked (reads_withCleanup.mp run)
  exact ⟨u', suffix, left, mirrored.imp id reads_withCleanup.mpr⟩

section Loop

variable {round : σ → Parser (Round σ α)}

theorem loop (h : ∀ x u, Mirrors j lost (round x) u) (x : σ) (u : List Token) :
    Mirrors j lost (loop round x) u := by
  intro s a s' unmarked run
  refine Reads.loop_induction (motive := fun x t => ∀ s u, s.discard = false → t = j.before s u →
      ∃ u', u' <:+ u ∧ s' = j.before s' u' ∧
        ((lost = true ∧ u' = []) ∨ Reads (Parser.loop round x) (j.across s u) a (j.across s' u')))
    ?_ ?_ run s u unmarked rfl
  · rintro x _ last s u unmarked rfl
    obtain ⟨u', suffix, left, mirrored⟩ := h x u s _ s' unmarked last
    exact ⟨u', suffix, left, mirrored.imp id fun across => reads_loop.mpr (.inl across)⟩
  · rintro x _ y t first less _ ih s u unmarked rfl
    obtain ⟨v, suffix, left, mirrored⟩ := h x u s _ t unmarked first
    obtain ⟨u', suffix', left', mirrored'⟩ := ih t v (first.discard_eq.trans unmarked) left
    refine ⟨u', suffix'.trans suffix, left', ?_⟩
    rcases mirrored with ⟨isLost, rfl⟩ | across
    · exact .inl ⟨isLost, List.suffix_nil.mp suffix'⟩
    · refine mirrored'.imp id fun across' => reads_loop.mpr (.inr ⟨y, _, across, ?_, across'⟩)
      rw [left, j.size_before, j.size_before] at less
      rw [j.size_across, j.size_across]
      omega

theorem many {round : Parser (Option (List α))} (h : ∀ u, Mirrors j lost round u)
    (u : List Token) : Mirrors j lost (many round) u :=
  loop (fun _ u => (h u).bind fun more _ _ => by cases more <;> exact .pure) [] u

end Loop

end Mirrors
end BrightScript.Parser
