import BrightScript.Parser
import BrightScript.Proofs.Parser.Run
import BrightScript.Proofs.Parser.Reads
import BrightScript.Proofs.Tree.Rewrite

/-! Parsing token lists that look alike.
A parser goes by the kinds of its tokens, by the folded spelling of a few words and by whether
comments stand below each other. Token lists that agree in this much are read to trees that look
alike in whatever the tokens look alike, and so do the reports. -/
namespace BrightScript

/-- A way to look at two texts at once. What is seen of a spelling tells it up to the case of its
letters, and what is seen of parts tells what is seen of what the parser makes of them. -/
structure Likeness (δ : Type) where
  text : String → String
  range : Range → Range
  range' : Range → Range
  report : Diagnostic → δ
  report' : Diagnostic → δ
  folded : ∀ {a b}, text a = text b → a.toLower = b.toLower
  joined : ∀ {a a' b b'}, text a = text a' → text b = text b' →
    text (a ++ "\n" ++ b) = text (a' ++ "\n" ++ b')
  trimmed : ∀ {a b}, text a = text b → text (Parser.trimQuotes a) = text (Parser.trimQuotes b)
  union : ∀ {a a' b b'}, range a = range' a' → range b = range' b' →
    range (a.union b) = range' (a'.union b')
  empty : ∀ {a a'}, range a = range' a' → range (.empty a.start) = range' (.empty a'.start)
  reported : ∀ {p p' : Problem} {r r'}, p.notice = p'.notice →
    p.arguments.map text = p'.arguments.map text → range r = range' r' →
      report (.of p r) = report' (.of p' r')

namespace Likeness

/-! What the parser makes of texts and of ranges that are seen as they are. -/

theorem folded_id {a b : String} (same : id a = id b) : a.toLower = b.toLower :=
  congrArg String.toLower same

theorem joined_id {a a' b b' : String} (same : id a = id a') (same' : id b = id b') :
    id (a ++ "\n" ++ b) = id (a' ++ "\n" ++ b') := by
  cases same
  cases same'
  rfl

theorem trimmed_id {a b : String} (same : id a = id b) :
    id (Parser.trimQuotes a) = id (Parser.trimQuotes b) :=
  congrArg Parser.trimQuotes same

theorem union_id {a a' b b' : Range} (same : id a = id a') (same' : id b = id b') :
    id (a.union b) = id (a'.union b') := by
  cases same
  cases same'
  rfl

theorem empty_id {a a' : Range} (same : id a = id a') :
    id (Range.empty a.start) = id (.empty a'.start) := by
  cases same
  rfl

variable {δ : Type} (v : Likeness δ)

def left : Rewriting := { text := v.text, range := v.range }

def right : Rewriting := { text := v.text, range := v.range' }

@[simp] theorem left_text (s : String) : v.left.text s = v.text s := rfl
@[simp] theorem right_text (s : String) : v.right.text s = v.text s := rfl
@[simp] theorem left_range (r : Range) : v.left.range r = v.range r := rfl
@[simp] theorem right_range (r : Range) : v.right.range r = v.range' r := rfl

@[simp] theorem left_conditional (a b c a' b' c' : Expr) (r : Range) :
    v.left.conditional a b c a' b' c' r = .conditional a' b' c' r := rfl

@[simp] theorem right_conditional (a b c a' b' c' : Expr) (r : Range) :
    v.right.conditional a b c a' b' c' r = .conditional a' b' c' r := rfl

theorem placed_left : v.left.Placed := fun _ _ _ _ _ _ _ => rfl

theorem placed_right : v.right.Placed := fun _ _ _ _ _ _ _ => rfl

def Seen {α β γ : Type} (f : α → γ) (g : β → γ) (a : α) (b : β) : Prop := f a = g b

theorem Seen.eq {α β γ : Type} {f : α → γ} {g : β → γ} {a : α} {b : β} (h : Seen f g a b) :
    f a = g b := h

abbrev Exprs := Seen (Expr.rewrite v.left) (Expr.rewrite v.right)
abbrev Stmts := Seen (Stmt.rewrite v.left) (Stmt.rewrite v.right)
abbrev Idents := Seen (Ident.rewrite v.left) (Ident.rewrite v.right)
abbrev Comments := Seen (Comment.rewrite v.left) (Comment.rewrite v.right)
abbrev Tokens := Seen (Token.rewrite v.left) (Token.rewrite v.right)
abbrev Blocks := Seen (blockRewrite v.left) (blockRewrite v.right)
abbrev Ranges := Seen v.range v.range'
abbrev Texts := Seen v.text v.text

abbrev Lists {α β γ : Type} (f : α → γ) (g : β → γ) := Seen (List.map f) (List.map g)

/- What is rewritten, lists of it, and what a round finds of it. -/
abbrev Both {α : Type} (f : Rewriting → α → α) := Seen (f v.left) (f v.right)
abbrev Parts {α : Type} (f : Rewriting → α → α) := Lists (f v.left) (f v.right)
abbrev Found {α : Type} (f : Rewriting → α → α) :=
  Seen (Option.map (List.map (f v.left))) (Option.map (List.map (f v.right)))

variable {v}

theorem Tokens.kind {t t' : Token} (h : v.Tokens t t') : t.kind = t'.kind := by
  have same : (t.rewrite v.left).kind = (t'.rewrite v.right).kind := congrArg Token.kind h
  exact same

theorem Tokens.text {t t' : Token} (h : v.Tokens t t') : v.Texts t.text t'.text :=
  congrArg Token.text h

theorem Tokens.range {t t' : Token} (h : v.Tokens t t') : v.Ranges t.range t'.range :=
  congrArg Token.range h

theorem Idents.mk {a b : String} {r r' : Range} (text : v.Texts a b) (range : v.Ranges r r') :
    v.Idents ⟨a, r⟩ ⟨b, r'⟩ := by
  simp [Seen, Ident.rewrite, text.eq, range.eq]

theorem Comments.mk {a b : String} {r r' : Range} (text : v.Texts a b) (range : v.Ranges r r') :
    v.Comments ⟨a, r⟩ ⟨b, r'⟩ := by
  simp [Seen, Comment.rewrite, text.eq, range.eq]

theorem Idents.name {x x' : Ident} (h : v.Idents x x') : v.Texts x.name x'.name :=
  congrArg Ident.name h

theorem Idents.range {x x' : Ident} (h : v.Idents x x') : v.Ranges x.range x'.range :=
  congrArg Ident.range h

theorem Comments.range {c c' : Comment} (h : v.Comments c c') : v.Ranges c.range c'.range :=
  congrArg Comment.range h

theorem Exprs.range {e e' : Expr} (h : v.Exprs e e') : v.Ranges e.range e'.range := by
  have same := congrArg Expr.range h
  rwa [Expr.range_rewrite v.placed_left, Expr.range_rewrite v.placed_right] at same

theorem Stmts.range {s s' : Stmt} (h : v.Stmts s s') : v.Ranges s.range s'.range := by
  have same := congrArg Stmt.range h
  rwa [Stmt.range_rewrite v.placed_left, Stmt.range_rewrite v.placed_right] at same

section

variable {α β γ : Type} {f : α → γ} {g : β → γ} {as as' : List α} {bs bs' : List β}

theorem Lists.append (first : Lists f g as bs) (last : Lists f g as' bs') :
    Lists f g (as ++ as') (bs ++ bs') := by
  change (as ++ as').map f = (bs ++ bs').map g
  rw [List.map_append, List.map_append, first.eq, last.eq]

theorem Lists.concat {a : α} {b : β} (first : Lists f g as bs) (last : Seen f g a b) :
    Lists f g (as ++ [a]) (bs ++ [b]) :=
  first.append (congrArg ([·]) last)

end

def Quotes (v : Likeness δ) (problem : String → Problem) : Prop :=
  ∀ a b, v.Texts a b → (problem a).notice = (problem b).notice ∧
    (problem a).arguments.map v.text = (problem b).arguments.map v.text

theorem quotes_const (p : Problem) : v.Quotes fun _ => p := fun _ _ _ => ⟨rfl, rfl⟩

end Likeness

namespace Parser

open Likeness

variable {α β γ ε σ τ δ : Type} {v : Likeness δ}

/-- How many comments go on right below each comment in a list. -/
def commentRuns : List Token → List Nat
  | [] => []
  | t :: rest =>
    (if t.kind = .comment then (followingComments t.range rest).length else 0) :: commentRuns rest

theorem commentRuns_drop (n : Nat) (ts : List Token) :
    commentRuns (ts.drop n) = (commentRuns ts).drop n := by
  induction ts generalizing n with
  | nil => simp [commentRuns]
  | cons t rest ih =>
    cases n with
    | zero => rfl
    | succ n => simpa [commentRuns] using ih n

/-- States that are seen as one, with at least `m` levels open. -/
structure State.Alike (v : Likeness δ) (m : Nat) (s s' : State) : Prop where
  mode : s.mode = s'.mode
  finish : v.Ranges (.empty s.finish) (.empty s'.finish)
  tokens : v.Parts Token.rewrite s.rest.items s'.rest.items
  runs : commentRuns s.rest.items = commentRuns s'.rest.items
  diagnostics : s.diagnostics.map v.report = s'.diagnostics.map v.report'
  nesting : s.nesting = s'.nesting
  functions : s.functions = s'.functions
  discard : s.discard = s'.discard
  above : m ≤ s.nesting
  within : s.nesting ≤ maxNesting

namespace State.Alike

variable {m : Nat} {s s' : State}

theorem token (h : s.Alike v m s') : v.Tokens s.token s'.token := by
  have heads : (s.rest.items.map (Token.rewrite v.left)).head? =
      (s'.rest.items.map (Token.rewrite v.right)).head? := congrArg List.head? h.tokens
  rw [List.head?_map, List.head?_map] at heads
  unfold State.token Input.head?
  cases first : s.rest.items.head? <;> cases second : s'.rest.items.head? <;>
    rw [first, second] at heads
  · have last : v.range (.empty s.finish) = v.range' (.empty s'.finish) := h.finish
    simp [Seen, Token.rewrite, Token.endOfFile, last]
  · contradiction
  · contradiction
  · exact Option.some.inj heads

theorem kind (h : s.Alike v m s') : s.kind = s'.kind := h.token.kind

theorem range (h : s.Alike v m s') : v.Ranges s.range s'.range := h.token.range

theorem kindAt (h : s.Alike v m s') (n : Nat) : s.kindAt n = s'.kindAt n := by
  have items : (s.rest.items.map (Token.rewrite v.left))[n]? =
      (s'.rest.items.map (Token.rewrite v.right))[n]? := congrArg (·[n]?) h.tokens
  rw [List.getElem?_map, List.getElem?_map] at items
  unfold State.kindAt
  cases first : s.rest.items[n]? with
  | none =>
    cases second : s'.rest.items[n]? with
    | none => rfl
    | some t' => simp [first, second] at items
  | some t =>
    cases second : s'.rest.items[n]? with
    | none => simp [first, second] at items
    | some t' =>
      rw [first, second] at items
      exact Tokens.kind (Option.some.inj items)

theorem found (h : s.Alike v m s') : v.Texts s.found s'.found := by
  have text := h.token.text
  unfold State.found
  rw [← h.kind]
  split
  · rfl
  · rfl
  · exact text

theorem size (h : s.Alike v m s') : s.rest.size = s'.rest.size := by
  have lengths := congrArg List.length h.tokens
  rw [List.length_map, List.length_map] at lengths
  rw [s.rest.size_eq, s'.rest.size_eq, lengths]

theorem drop (h : s.Alike v m s') (n : Nat) : (s.drop n).Alike v m (s'.drop n) where
  mode := h.mode
  finish := h.finish
  tokens := by
    have items := congrArg (List.drop n) h.tokens
    rwa [← List.map_drop, ← List.map_drop] at items
  runs := by
    have runs := congrArg (List.drop n) h.runs
    rwa [← commentRuns_drop, ← commentRuns_drop] at runs
  diagnostics := h.diagnostics
  nesting := h.nesting
  functions := h.functions
  discard := h.discard
  above := h.above
  within := h.within

theorem takeWhile_length {ts ts' : List Token} (skips : Kind → Bool)
    (h : v.Parts Token.rewrite ts ts') :
    (ts.takeWhile fun t => skips t.kind).length = (ts'.takeWhile fun t => skips t.kind).length := by
  have taken := congrArg (fun l : List Token => (l.takeWhile fun t => skips t.kind).length) h
  simp only [List.takeWhile_map, List.length_map] at taken
  exact taken

theorem skipWhile (h : s.Alike v m s') (skips : Kind → Bool) :
    (s.skipWhile skips).Alike v m (s'.skipWhile skips) := by
  unfold State.skipWhile
  rw [takeWhile_length skips h.tokens]
  exact h.drop _

theorem report (h : s.Alike v m s') {p p' : Problem} {r r' : Range} (notice : p.notice = p'.notice)
    (args : p.arguments.map v.text = p'.arguments.map v.text) (range : v.Ranges r r') :
    (s.report p r).Alike v m (s'.report p' r') where
  mode := h.mode
  finish := h.finish
  tokens := h.tokens
  runs := h.runs
  diagnostics := by
    simp only [State.report, List.map_append, h.diagnostics, List.map_cons, List.map_nil,
      v.reported notice args range]
  nesting := h.nesting
  functions := h.functions
  discard := h.discard
  above := h.above
  within := h.within

theorem withDiscard (h : s.Alike v m s') (b : Bool) : (s.withDiscard b).Alike v m (s'.withDiscard b) :=
  { h with discard := rfl }

theorem enter (h : s.Alike v m s') (shallow : ¬ maxNesting ≤ s.nesting) :
    (s.atNesting (s.nesting + 1)).Alike v (m + 1) (s'.atNesting (s'.nesting + 1)) :=
  { h with
    nesting := congrArg (· + 1) h.nesting
    above := Nat.succ_le_succ h.above
    within := Nat.lt_of_not_le shallow }

theorem leave (h : s.Alike v (m + 1) s') :
    (s.atNesting (s.nesting - 1)).Alike v m (s'.atNesting (s'.nesting - 1)) :=
  { h with
    nesting := congrArg (· - 1) h.nesting
    above := Nat.le_sub_one_of_lt h.above
    within := Nat.le_trans (Nat.sub_le _ _) h.within }

theorem atFunctions (h : s.Alike v m s') {n n' : Nat} (same : n = n') :
    (s.atFunctions n).Alike v m (s'.atFunctions n') :=
  { h with functions := same }

theorem lastTaken (h : s.Alike v m s') {t t' : State} (h' : t.Alike v m t') :
    Seen (Option.map (Token.rewrite v.left)) (Option.map (Token.rewrite v.right)) (s.lastTaken t)
      (s'.lastTaken t') := by
  have taken := congrArg (fun l => (l.take (s.rest.size - t.rest.size)).getLast?) h.tokens
  simp only [← List.map_take, List.getLast?_map] at taken
  unfold State.lastTaken
  rw [← h.size, ← h'.size]
  exact taken

end State.Alike

/-- From states that are seen as one, both parsers fail or give related results, and come to states
that are seen as one. -/
def Parallel (v : Likeness δ) (m : Nat) (R : α → β → Prop) (p : Parser α) (q : Parser β) : Prop :=
  ∀ s s' : State, s.Alike v m s' →
    (∃ t t', t.Alike v m t' ∧ p.run s = (none, t) ∧ q.run s' = (none, t')) ∨
    ∃ a b t t', R a b ∧ t.Alike v m t' ∧ p.run s = (some a, t) ∧ q.run s' = (some b, t')

namespace Parallel

variable {m : Nat} {R : α → β → Prop} {p : Parser α} {q : Parser β} {S : γ → ε → Prop}

theorem inspect {f : State → α} {g : State → β} {framed impartial framed' impartial'}
    (h : ∀ s s', s.Alike v m s' → R (f s) (g s')) :
    Parallel v m R (inspect f framed impartial) (inspect g framed' impartial') :=
  fun s s' like => .inr ⟨_, _, s, s', h s s' like, like, rfl, rfl⟩

theorem pure {a : α} {b : β} (h : R a b) : Parallel v m R (Pure.pure a) (Pure.pure b) :=
  .inspect fun _ _ _ => h

theorem update {f g : State → State} {advances framed impartial advances' framed' impartial'}
    (h : ∀ s s', s.Alike v m s' → (f s).Alike v m (g s')) :
    Parallel v m (· = ·) (update f advances framed impartial) (update g advances' framed' impartial') :=
  fun s s' like => .inr ⟨(), (), f s, g s', rfl, h s s' like, rfl, rfl⟩

theorem giveUp {f g : State → State}
    {advances framed loud impartial advances' framed' loud' impartial'}
    (h : ∀ s s', s.Alike v m s' → (f s).Alike v m (g s')) :
    Parallel v m R (giveUp f advances framed loud impartial)
      (giveUp g advances' framed' loud' impartial') :=
  fun s s' like => .inl ⟨f s, g s', h s s' like, rfl, rfl⟩

theorem refuse {problem : String → Problem} {e} (quotes : v.Quotes problem) :
    Parallel v m R (refuse problem e) (refuse problem e) :=
  .giveUp fun _ _ like =>
    like.report (quotes _ _ like.found).1 (quotes _ _ like.found).2 like.range

theorem tooDeep : Parallel v m R tooDeep tooDeep := refuse (quotes_const _)

theorem bind {f : α → Parser γ} {g : β → Parser ε} (first : Parallel v m R p q)
    (second : ∀ a b, R a b → Parallel v m S (f a) (g b)) : Parallel v m S (p >>= f) (q >>= g) := by
  intro s s' like
  rw [run_bind, run_bind]
  obtain ⟨t, t', like, hp, hq⟩ | ⟨a, b, t, t', related, like, hp, hq⟩ := first s s' like
  · rw [hp, hq]
    exact .inl ⟨t, t', like, rfl, rfl⟩
  · rw [hp, hq]
    exact second a b related t t' like

theorem same {q : Parser α} {f : α → Parser γ} {g : α → Parser ε} (first : Parallel v m (· = ·) p q)
    (second : ∀ a, Parallel v m S (f a) (g a)) : Parallel v m S (p >>= f) (q >>= g) :=
  first.bind fun a _ h => h ▸ second a

theorem atKind {f : Kind → Parser α} {g : Kind → Parser β} (special : Kind)
    (here : ∀ s s' : State, s.Alike v m s' → s.kind = special → ∃ a b t t', R a b ∧
      t.Alike v m t' ∧ (f special).run s = (some a, t) ∧ (g special).run s' = (some b, t'))
    (other : ∀ k, k ≠ special → Parallel v m R (f k) (g k)) :
    Parallel v m R (Parser.kind >>= f) (Parser.kind >>= g) := by
  intro s s' like
  have left : (Parser.kind >>= f).run s = (f s.kind).run s := rfl
  have right : (Parser.kind >>= g).run s' = (g s.kind).run s' := by
    rw [like.kind]
    rfl
  rw [left, right]
  by_cases same : s.kind = special
  · rw [same]
    exact .inr (here s s' like same)
  · exact other _ same s s' like

theorem map {f : α → γ} {g : β → ε} (h : Parallel v m R p q)
    (related : ∀ a b, R a b → S (f a) (g b)) : Parallel v m S (f <$> p) (g <$> q) :=
  h.bind fun a b r => .pure (related a b r)

theorem ite {c : Prop} [Decidable c] {p' : Parser α} {q' : Parser β}
    (yes : c → Parallel v m R p q) (no : ¬ c → Parallel v m R p' q') :
    Parallel v m R (if c then p else p') (if c then q else q') := by
  by_cases h : c
  · rw [if_pos h, if_pos h]
    exact yes h
  · rw [if_neg h, if_neg h]
    exact no h

theorem choice {f : α → Parser γ} {g : β → Parser ε} {c : Prop} [Decidable c] {p' : Parser α}
    {q' : Parser β} (yes : Parallel v m R p q) (no : Parallel v m R p' q')
    (rest : ∀ a b, R a b → Parallel v m S (f a) (g b)) :
    Parallel v m S (if c then p >>= f else p' >>= f) (if c then q >>= g else q' >>= g) :=
  .ite (fun _ => yes.bind rest) fun _ => no.bind rest

theorem attemptPast (h : Parallel v m R p q) :
    Parallel v m (Option.Rel R) (attemptPast p) (attemptPast q) := by
  intro s s' like
  simp only [run_attemptPast]
  obtain ⟨t, t', like', hp, hq⟩ | ⟨a, b, t, t', related, like', hp, hq⟩ := h s s' like
  · rw [hp, hq]
    refine .inr ⟨none, none, _, _, .none, ?_, rfl, rfl⟩
    rw [← like.size, ← like'.size]
    split
    · exact like'.drop 1
    · exact like'
  · rw [hp, hq]
    exact .inr ⟨some a, some b, t, t', .some related, like', rfl, rfl⟩

theorem withCleanup {cleanup cleanup' : Parser Unit} (h : Parallel v m R p q)
    (cleans : Parallel v m (· = ·) cleanup cleanup') :
    Parallel v m R (withCleanup p cleanup) (withCleanup q cleanup') := by
  intro s s' like
  simp only [run_withCleanup]
  obtain ⟨t, t', like, hp, hq⟩ | ⟨a, b, t, t', related, like, hp, hq⟩ := h s s' like
  · rw [hp, hq]
    obtain ⟨u, u', like, hp, hq⟩ | ⟨_, _, u, u', _, like, hp, hq⟩ := cleans t t' like
    all_goals
      exact .inl ⟨u, u', like, congrArg (fun r => (none, r.2)) hp,
        congrArg (fun r => (none, r.2)) hq⟩
  · rw [hp, hq]
    exact .inr ⟨a, b, t, t', related, like, rfl, rfl⟩

def Nodes (v : Likeness δ) (f : α → γ) (g : β → γ) (k : Range → α) (k' : Range → β) : Prop :=
  ∀ r r', v.Ranges r r' → f (k r) = g (k' r')

theorem spanned {f : α → γ} {g : β → γ} {p : Parser (Range → α)} {q : Parser (Range → β)}
    {first first' : Range} (h : Parallel v m (Nodes v f g) p q) (start : v.Ranges first first') :
    Parallel v m (Seen f g) (spanned first p) (spanned first' q) := by
  intro s s' like
  simp only [run_spanned]
  obtain ⟨t, t', like', hp, hq⟩ | ⟨k, k', t, t', related, like', hp, hq⟩ := h s s' like
  · rw [hp, hq]
    exact .inl ⟨t, t', like', rfl, rfl⟩
  · rw [hp, hq]
    refine .inr ⟨_, _, t, t', related _ _ ?_, like', rfl, rfl⟩
    have last := like.lastTaken like'
    cases one : s.lastTaken t <;> cases other : s'.lastTaken t' <;> rw [Seen, one, other] at last
    · exact start
    · contradiction
    · contradiction
    · exact v.union start (Tokens.range (Option.some.inj last))

theorem here : Parallel v m v.Ranges here here := .inspect fun _ _ like => like.range

theorem ranged {f : α → γ} {g : β → γ} {p : Parser (Range → α)} {q : Parser (Range → β)}
    (h : Parallel v m (Nodes v f g) p q) : Parallel v m (Seen f g) (ranged p) (ranged q) :=
  here.bind fun _ _ start => h.spanned start

/-- The one place where levels are opened. -/
theorem nested (h : Parallel v (m + 1) R p q) : Parallel v m R (nested p) (nested q) := by
  intro s s' like
  by_cases deep : maxNesting ≤ s.nesting
  · have deep' : maxNesting ≤ s'.nesting := like.nesting ▸ deep
    simp only [run_nested, if_pos deep, if_pos deep']
    exact tooDeep s s' like
  · have deep' : ¬ maxNesting ≤ s'.nesting := like.nesting ▸ deep
    have leave {α : Type} {r r' : Option α × State} (same : r = r') :=
      congrArg (fun r => (r.1, r.2.atNesting (r.2.nesting - 1))) same
    obtain ⟨t, t', like, hp, hq⟩ | ⟨a, b, t, t', related, like, hp, hq⟩ := h _ _ (like.enter deep)
    · exact .inl ⟨_, _, like.leave, (if_neg deep).trans (leave hp), (if_neg deep').trans (leave hq)⟩
    · exact .inr ⟨a, b, _, _, related, like.leave, (if_neg deep).trans (leave hp),
        (if_neg deep').trans (leave hq)⟩

theorem inFunction (h : Parallel v m R p q) : Parallel v m R (inFunction p) (inFunction q) := by
  intro s s' like
  have leave {α : Type} {r r' : Option α × State} (same : r = r') :=
    congrArg (fun r => (r.1, r.2.atFunctions (r.2.functions - 1))) same
  obtain ⟨t, t', like, hp, hq⟩ | ⟨a, b, t, t', related, like, hp, hq⟩ :=
    h _ _ (like.atFunctions (congrArg (· + 1) like.functions))
  · exact .inl ⟨_, _, like.atFunctions (congrArg (· - 1) like.functions), leave hp, leave hq⟩
  · exact .inr ⟨a, b, _, _, related, like.atFunctions (congrArg (· - 1) like.functions), leave hp,
      leave hq⟩

theorem droppable (h : Parallel v m R p q) : Parallel v m R (droppable p) (droppable q) := by
  intro s s' like
  have leave {α : Type} {r r' : Option α × State} {b : Bool} (same : r = r') :=
    congrArg (fun r => (if r.2.discard then none else r.1, r.2.withDiscard b)) same
  have back : s.discard = s'.discard := like.discard
  obtain ⟨t, t', like, hp, hq⟩ | ⟨a, b, t, t', related, like, hp, hq⟩ :=
    h _ _ (like.withDiscard false)
  · refine .inl ⟨t.withDiscard s.discard, t'.withDiscard s'.discard, back ▸ like.withDiscard _,
      (leave hp).trans (by simp), (leave hq).trans (by simp)⟩
  · have mark : t.discard = t'.discard := like.discard
    cases marked : t'.discard with
    | true =>
      exact .inl ⟨t.withDiscard s.discard, t'.withDiscard s'.discard, back ▸ like.withDiscard _,
        (leave hp).trans (by simp [mark, marked]), (leave hq).trans (by simp [marked])⟩
    | false =>
      exact .inr ⟨a, b, t.withDiscard s.discard, t'.withDiscard s'.discard, related,
        back ▸ like.withDiscard _, (leave hp).trans (by simp [mark, marked]),
        (leave hq).trans (by simp [marked])⟩

/-- Rounds that come to the same on both sides. -/
inductive Rounds (X : σ → τ → Prop) (R : α → β → Prop) : Round σ α → Round τ β → Prop
  | again {x : σ} {y : τ} (h : X x y) : Rounds X R (.again x) (.again y)
  | done {a : α} {b : β} (h : R a b) : Rounds X R (.done a) (.done b)

theorem loop {X : σ → τ → Prop} {round : σ → Parser (Round σ α)} {round' : τ → Parser (Round τ β)}
    (h : ∀ x y, X x y → Parallel v m (Rounds X R) (round x) (round' y)) {x : σ} {y : τ} (start : X x y) :
    Parallel v m R (loop round x) (loop round' y) := by
  intro s s' like
  -- both loops go on for as many rounds, since both take as many tokens in each
  induction size : s.rest.size using Nat.strongRecOn generalizing x y s s' with
  | ind n ih =>
    obtain ⟨t, t', like', hp, hq⟩ | ⟨a, b, t, t', related, like', hp, hq⟩ := h x y start s s' like
    · exact .inl ⟨t, t', like', run_loop_failed hp, run_loop_failed hq⟩
    · cases related with
      | again next =>
        by_cases less : t.rest.size < s.rest.size
        · rw [run_loop_again hp less, run_loop_again hq (like.size ▸ like'.size ▸ less)]
          exact ih _ (size ▸ less) next t t' like' rfl
        · rw [run_loop_stuck hp less, run_loop_stuck hq (like.size ▸ like'.size ▸ less)]
          exact tooDeep t t' like'
      | done r => exact .inr ⟨_, _, t, t', r, like', run_loop_done hp, run_loop_done hq⟩

theorem many {f : α → γ} {g : β → γ} {round : Parser (Option (List α))}
    {round' : Parser (Option (List β))}
    (h : Parallel v m (Seen (Option.map (List.map f)) (Option.map (List.map g))) round round') :
    Parallel v m (Lists f g) (many round) (many round') := by
  refine loop (X := Lists f g) (fun found found' sofar => ?_) rfl
  refine h.bind fun more more' new => ?_
  cases more <;> cases more'
  · refine .pure (.done ?_)
    have all := congrArg List.reverse sofar
    rwa [← List.map_reverse, ← List.map_reverse] at all
  · contradiction
  · contradiction
  · refine .pure (.again ?_)
    have new := congrArg List.reverse (Option.some.inj new)
    rw [← List.map_reverse, ← List.map_reverse] at new
    rw [Likeness.Lists, Seen, List.map_append, List.map_append, new, sofar]

end Parallel
end Parser
end BrightScript
