import BrightScript.Proofs.Parser.Reads

/-! What a parser makes of a list of words.
A word is a token without its place. `Yields p room ws w P` says that `p`, put before the words
`ws`, reads up to the words `w` without a report and with a result in `P`, if there is still room
for that many levels of nesting. The rules put such runs together. -/
namespace BrightScript

/- What of a token does not depend on where it stands. -/
structure Word where
  kind : Kind
  text : String
  value : Option Value := none
  deriving DecidableEq, Repr

def Token.word (t : Token) : Word := ⟨t.kind, t.text, t.value⟩

@[simp] theorem Token.kind_word (t : Token) : t.word.kind = t.kind := rfl
@[simp] theorem Token.text_word (t : Token) : t.word.text = t.text := rfl
@[simp] theorem Token.value_word (t : Token) : t.word.value = t.value := rfl

/-- The kind that comes next; past the end it is that of the end of the file. -/
def Word.next (ws : List Word) : Kind := (ws.head?.map (·.kind)).getD .endOfFile

@[simp] theorem Word.next_nil : Word.next [] = .endOfFile := rfl
@[simp] theorem Word.next_cons (x : Word) (ws : List Word) : Word.next (x :: ws) = x.kind := rfl

theorem Word.next_append {ws : List Word} (h : ws ≠ []) (w : List Word) :
    Word.next (ws ++ w) = Word.next ws := by
  cases ws with
  | nil => exact absurd rfl h
  | cons x ws => rfl

theorem Word.next_optional {ws : List Word} {k : Kind} (starts : ws = [] ∨ Word.next ws = k)
    (ne : k ≠ .endOfFile) (w : List Word) :
    Word.next (ws ++ w) = Word.next w ∨ Word.next (ws ++ w) = k := by
  rcases starts with rfl | opener
  · exact .inl rfl
  · have nonempty : ws ≠ [] := by
      rintro rfl
      exact ne opener.symm
    exact .inr ((Word.next_append nonempty w).trans opener)

namespace Parser

variable {α β σ : Type} {room : Nat} {ws v w : List Word} {x : Word}

def State.words (s : State) : List Word := s.rest.items.map Token.word

namespace State

theorem kind_eq_next (s : State) : s.kind = Word.next s.words := by
  unfold kind token words Input.head?
  cases s.rest.items <;> rfl

theorem kindAt_eq_next (s : State) (n : Nat) : s.kindAt n = Word.next (s.words.drop n) := by
  unfold kindAt words
  rw [← List.map_drop, Word.next, List.head?_map, List.head?_drop]
  cases s.rest.items[n]? <;> rfl

theorem token_word (s : State) {ws : List Word} (h : s.words = x :: ws) : s.token.word = x := by
  unfold words at h
  unfold token Input.head?
  cases items : s.rest.items with
  | nil => simp [items] at h
  | cons t rest =>
    rw [items] at h
    exact (List.cons.inj h).1

@[simp] theorem words_drop (s : State) (n : Nat) : (s.drop n).words = s.words.drop n := by
  simp [words]

@[simp] theorem words_atNesting (s : State) (n : Nat) : (s.atNesting n).words = s.words := rfl
@[simp] theorem words_atFunctions (s : State) (n : Nat) : (s.atFunctions n).words = s.words := rfl
@[simp] theorem words_withDiscard (s : State) (b : Bool) : (s.withDiscard b).words = s.words := rfl

theorem size_eq_length_words (s : State) : s.rest.size = s.words.length := by
  rw [words, List.length_map, s.rest.size_eq]

end State

def Yields (p : Parser α) (room : Nat) (ws w : List Word) (P : α → Prop) : Prop :=
  ∀ s : State, s.nesting + room ≤ maxNesting → s.words = ws →
    ∃ a s', Reads p s a s' ∧ s'.words = w ∧ P a

namespace Yields

variable {p : Parser α} {P Q : α → Prop} {R : β → Prop}

theorem mono (h : Yields p room ws w P) (weaker : ∀ a, P a → Q a) : Yields p room ws w Q := by
  intro s fits words
  obtain ⟨a, s', run, words', holds⟩ := h s fits words
  exact ⟨a, s', run, words', weaker a holds⟩

theorem and (h : Yields p room ws w P) (always : ∀ {s a s'}, Reads p s a s' → Q a) :
    Yields p room ws w fun a => P a ∧ Q a := by
  intro s fits words
  obtain ⟨a, s', run, words', holds⟩ := h s fits words
  exact ⟨a, s', run, words', holds, always run⟩

theorem bind {f : α → Parser β} (first : Yields p room ws v P)
    (second : ∀ a, P a → Yields (f a) room v w R) : Yields (p >>= f) room ws w R := by
  intro s fits words
  obtain ⟨a, t, run, words', holds⟩ := first s fits words
  obtain ⟨b, s', run', words'', holds'⟩ :=
    second a holds t (by rwa [run.advances.nesting]) words'
  exact ⟨b, s', reads_bind.mpr ⟨a, t, run, run'⟩, words'', holds'⟩

theorem map {f : α → β} (h : Yields p room ws w P) (image : ∀ a, P a → R (f a)) :
    Yields (f <$> p) room ws w R := by
  intro s fits words
  obtain ⟨a, s', run, words', holds⟩ := h s fits words
  exact ⟨f a, s', reads_map.mpr ⟨a, run, rfl⟩, words', image a holds⟩

theorem inspect {f : State → α} {framed impartial} (h : ∀ s : State, s.words = ws → P (f s)) :
    Yields (Parser.inspect f framed impartial) room ws ws P :=
  fun s _ words => ⟨f s, s, reads_inspect.mpr ⟨rfl, rfl⟩, words, h s words⟩

theorem pure {a : α} (h : P a) : Yields (pure a) room ws ws P := inspect fun _ _ => h

theorem token : Yields token room (x :: ws) (x :: ws) fun t => t.word = x :=
  inspect fun s words => s.token_word words

theorem kind : Yields kind room ws ws (· = Word.next ws) :=
  inspect fun s words => words ▸ s.kind_eq_next

theorem here : Yields here room ws ws fun _ => True := inspect fun _ _ => trivial

theorem isAt {k : Kind} : Yields (isAt k) room ws ws (· = decide (Word.next ws = k)) :=
  inspect fun s words => by rw [s.kind_eq_next, words]

theorem take {n : Nat} : Yields (take n) room ws (ws.drop n) fun _ => True :=
  fun s _ words => ⟨(), s.drop n, reads_take.mpr rfl, by simp [words], trivial⟩

theorem advance : Yields advance room (x :: ws) ws fun _ => True := take

theorem skipWhile {skips : Kind → Bool} (h : skips (Word.next ws) = false) :
    Yields (skipWhile skips) room ws ws fun _ => True := by
  intro s _ words
  have none : s.rest.items.takeWhile (fun t => skips t.kind) = [] := by
    rw [← words, State.words] at h
    cases items : s.rest.items with
    | nil => rfl
    | cons t rest =>
      have : skips t.kind = false := by simpa [items, Word.next] using h
      simp [this]
  exact ⟨(), s, reads_skipWhile.mpr (by simp [State.skipWhile, none]), words, trivial⟩

theorem skipWhile_cons {skips : Kind → Bool} (skip : skips x.kind = true)
    (h : skips (Word.next ws) = false) :
    Yields (Parser.skipWhile skips) room (x :: ws) ws fun _ => True := by
  intro s _ words
  have one : (s.rest.items.takeWhile fun t => skips t.kind).length = 1 := by
    unfold State.words at words
    cases items : s.rest.items with
    | nil => simp [items] at words
    | cons t rest =>
      rw [items, List.map_cons, List.cons.injEq] at words
      obtain ⟨rfl, rfl⟩ := words
      have skip' : skips t.kind = true := skip
      cases rest with
      | nil => simp [skip']
      | cons u rest =>
        have : skips u.kind = false := h
        simp [skip', this]
  refine ⟨(), s.drop 1, reads_skipWhile.mpr (by rw [State.skipWhile, one]), ?_, trivial⟩
  rw [State.words_drop, words]
  rfl

theorem skipNewlines (h : Word.next ws ≠ .newline) :
    Yields skipNewlines room ws ws fun _ => True := skipWhile (by simpa using h)

theorem accept_of_eq {k : Kind} (h : x.kind = k) :
    Yields (accept k) room (x :: ws) ws (· = true) := by
  refine isAt.bind fun b hb => ?_
  obtain rfl : b = true := by simp [hb, h]
  exact advance.bind fun _ _ => pure rfl

theorem accept_of_ne {k : Kind} (h : Word.next ws ≠ k) :
    Yields (accept k) room ws ws (· = false) := by
  refine isAt.bind fun b hb => ?_
  obtain rfl : b = false := by simp [hb, h]
  exact pure rfl

theorem expect {k : Kind} (h : x.kind = k) : Yields (expect k) room (x :: ws) ws fun _ => True := by
  refine (accept_of_eq h).bind fun b hb => ?_
  subst hb
  exact pure trivial

theorem member : Yields member room (x :: ws) ws fun t => t.word = x := by
  intro s fits words
  obtain ⟨t, _, ⟨taken, quiet⟩, left, -⟩ := advance s fits words
  cases taken
  exact ⟨s.token, s.drop 1, ⟨rfl, quiet⟩, left, s.token_word words⟩

theorem memberName : Yields memberName room (x :: ws) ws (·.name = x.text) :=
  member.bind fun _ same => pure (same ▸ rfl)

theorem takeIdent : Yields takeIdent room (x :: ws) ws (·.name = x.text) := by
  refine token.bind fun t ht => advance.bind fun _ _ => pure ?_
  rw [← ht]
  rfl

theorem atName {word : String} :
    Yields (atName word) room ws ws
      (· = ws.head?.any fun x => x.kind = .identifier && Text.sameWord x.text word) := by
  refine inspect fun s words => ?_
  cases ws with
  | nil =>
    have kind : s.kind = .endOfFile := by rw [s.kind_eq_next, words]; rfl
    simp [kind]
  | cons x rest =>
    rw [← s.token_word words]
    rfl

theorem spanned {first : Range} {p : Parser (Range → α)}
    (h : Yields p room ws w fun node => ∀ range, P (node range)) :
    Yields (spanned first p) room ws w P := by
  intro s fits words
  obtain ⟨node, s', run, words', holds⟩ := h s fits words
  exact ⟨_, s', reads_spanned.mpr ⟨node, _, run, rfl, rfl⟩, words', holds _⟩

theorem ranged {p : Parser (Range → α)}
    (h : Yields p room ws w fun node => ∀ range, P (node range)) :
    Yields (ranged p) room ws w P :=
  here.bind fun _ _ => spanned h

theorem nested (h : Yields p room ws w P) : Yields (nested p) (room + 1) ws w P := by
  intro s fits words
  obtain ⟨a, t, run, words', holds⟩ :=
    h (s.atNesting (s.nesting + 1)) (by simp only [State.nesting_atNesting]; omega) words
  exact ⟨a, _, reads_nested.mpr ⟨by omega, t, run, rfl⟩, words', holds⟩

theorem inFunction (h : Yields p room ws w P) : Yields (inFunction p) room ws w P := by
  intro s fits words
  obtain ⟨a, t, run, words', holds⟩ := h (s.atFunctions (s.functions + 1)) fits words
  exact ⟨a, _, reads_inFunction.mpr ⟨t, run, rfl⟩, words', holds⟩

theorem droppable (h : Yields p room ws w P) : Yields (droppable p) room ws w P := by
  intro s fits words
  obtain ⟨a, t, run, words', holds⟩ := h (s.withDiscard false) fits words
  exact ⟨a, _, reads_droppable.mpr ⟨t, run, rfl⟩, words', holds⟩

theorem withCleanup {cleanup : Parser Unit} (h : Yields p room ws w P) :
    Yields (withCleanup p cleanup) room ws w P := by
  intro s fits words
  obtain ⟨a, t, run, words', holds⟩ := h s fits words
  exact ⟨a, t, reads_withCleanup.mpr run, words', holds⟩

theorem attemptPast (h : Yields p room ws w P) :
    Yields (attemptPast p) room ws w fun r => ∃ a, r = some a ∧ P a := by
  intro s fits words
  obtain ⟨a, t, run, words', holds⟩ := h s fits words
  exact ⟨some a, t, ⟨by simp [run_attemptPast, run.1], run.2⟩, words', a, rfl, holds⟩

theorem loop_done {round : σ → Parser (Round σ α)} {x : σ}
    (h : Yields (round x) room ws w fun r => ∃ a, r = .done a ∧ P a) :
    Yields (loop round x) room ws w P := by
  intro s fits words
  obtain ⟨_, t, run, words', a, rfl, holds⟩ := h s fits words
  exact ⟨a, t, reads_loop.mpr (.inl run), words', holds⟩

theorem loop_again {round : σ → Parser (Round σ α)} {x : σ} {Q : σ → Prop}
    (first : Yields (round x) room ws v fun r => ∃ y, r = .again y ∧ Q y)
    (less : v.length < ws.length)
    (rest : ∀ y, Q y → Yields (loop round y) room v w P) :
    Yields (loop round x) room ws w P := by
  intro s fits words
  obtain ⟨_, t, run, words', y, rfl, holds⟩ := first s fits words
  obtain ⟨a, s', run', words'', holds'⟩ :=
    rest y holds t (by rwa [run.advances.nesting]) words'
  have fewer : t.rest.size < s.rest.size := by
    rwa [t.size_eq_length_words, s.size_eq_length_words, words, words']
  exact ⟨a, s', reads_loop.mpr (.inr ⟨y, t, run, fewer, run'⟩), words'', holds'⟩

theorem many_nil {round : Parser (Option (List α))} {P : List α → Prop} (holds : P [])
    (h : Yields round room ws w (· = none)) : Yields (many round) room ws w P := by
  intro s fits words
  obtain ⟨_, t, run, words', rfl⟩ := h s fits words
  exact ⟨[], t, reads_many.mpr (.inl ⟨rfl, run⟩), words', holds⟩

theorem many_cons {round : Parser (Option (List α))} {P Q R : List α → Prop}
    (first : Yields round room ws v fun r => ∃ found, r = some found ∧ Q found)
    (less : v.length < ws.length) (rest : Yields (many round) room v w R)
    (holds : ∀ found more, Q found → R more → P (found ++ more)) :
    Yields (many round) room ws w P := by
  intro s fits words
  obtain ⟨_, t, run, words', found, rfl, head⟩ := first s fits words
  obtain ⟨more, s', run', words'', tail⟩ :=
    rest t (by rwa [run.advances.nesting]) words'
  have fewer : t.rest.size < s.rest.size := by
    rwa [t.size_eq_length_words, s.size_eq_length_words, words, words']
  exact ⟨found ++ more, s', reads_many.mpr (.inr ⟨found, more, t, rfl, run, fewer, run'⟩), words'',
    holds found more head tail⟩

end Yields
end Parser
end BrightScript
