import BrightScript.Proofs.Parser.Reads

/-! Runs in front of a verge.
A verge is what a parser sees once the tokens in front of it are used up: the end of the file, a
line break, or the end of a function with the line break after it. A parser that starts in front of
it may stay there, without a look at what is behind. `Confined` says so with what holds of the
tokens that are left before and after a run, and its rules follow the combinators. -/
namespace BrightScript.Parser

variable {α β σ : Type} {k : Kind} {a : α} {F : State → State} {cleanup : Parser Unit}

namespace State

/-- The state with the tokens `u` in front of it and the tokens `after` behind them. -/
def upTo (s : State) (u after : List Token) (finish : Position) : State :=
  { s with rest := .ofList (u ++ after), finish }

theorem drop_upTo (s : State) (u v after : List Token) (finish : Position) :
    (s.upTo (u ++ v) after finish).drop u.length = s.upTo v after finish := by
  have rest : (Input.ofList (u ++ v ++ after)).drop u.length = .ofList (v ++ after) :=
    Input.eq_of_items (by simp)
  simp only [upTo, drop, rest]

theorem size_upTo (s : State) (u after : List Token) (finish : Position) :
    (s.upTo u after finish).rest.size = u.length + after.length := by
  simp [upTo, Input.ofList]

theorem lastTaken_upTo (s s' : State) (u v after : List Token) (finish : Position) :
    (s.upTo (u ++ v) after finish).lastTaken (s'.upTo v after finish) = u.getLast? := by
  have length : u.length + v.length + after.length - (v.length + after.length) = u.length := by
    omega
  simp only [lastTaken, size_upTo, List.length_append, length]
  simp [upTo]

theorem skipWhile_upTo {skips : Kind → Bool} (s : State) {v w : List Token} (after : List Token)
    (finish : Position) (skipped : ∀ t ∈ v, skips t.kind = true)
    (stops : ∀ t, (w ++ after).head? = some t → skips t.kind = false) :
    (s.upTo (v ++ w) after finish).skipWhile skips = s.upTo w after finish := by
  have stop : (w ++ after).takeWhile (fun t => skips t.kind) = [] := by
    cases items : w ++ after with
    | nil => rfl
    | cons t rest => rw [List.takeWhile_cons_of_neg (by simp [stops t (by rw [items]; rfl)])]
  have taken : (v ++ w ++ after).takeWhile (fun t => skips t.kind) = v := by
    rw [List.append_assoc, List.takeWhile_append_of_pos skipped, stop, List.append_nil]
  change (s.upTo (v ++ w) after finish).drop
    ((v ++ w ++ after).takeWhile fun t => skips t.kind).length = _
  rw [taken, s.drop_upTo]

end State

theorem exists_skipped (skips : Kind → Bool) (u : List Token) :
    ∃ v w, u = v ++ w ∧ (∀ t ∈ v, skips t.kind = true) ∧
      ∀ t, w.head? = some t → skips t.kind = false := by
  refine ⟨u.takeWhile fun t => skips t.kind, u.dropWhile fun t => skips t.kind,
    List.takeWhile_append_dropWhile.symm, List.all_eq_true.mp List.all_takeWhile, fun t head => ?_⟩
  have stop := List.head?_dropWhile_not (fun t : Token => skips t.kind) u
  rw [head] at stop
  exact stop

/-- The run of `p` with the tokens `u` in front of it, and behind them what `B` allows: it leaves
the tokens `u'` of them, and neither that nor its result depends on what is behind. -/
def Blind (B : List Token → Position → Prop) (p : Parser α) (s : State) (u : List Token)
    (r : Option α) (s' : State) (u' : List Token) : Prop :=
  u' <:+ u ∧ ∀ after finish, B after finish →
    p.run (s.upTo u after finish) = (r, s'.upTo u' after finish)

namespace Blind

variable {B : List Token → Position → Prop} {p : Parser α} {s t s' : State}
  {u v u' : List Token} {r : Option α}

theorem inspect {F : State → α} {framed impartial}
    (h : ∀ after finish, B after finish → F (s.upTo u after finish) = a) :
    Blind B (inspect F framed impartial) s u (some a) s u :=
  ⟨List.suffix_refl u, fun after finish behind => by simp [Parser.run, h _ _ behind]⟩

theorem pure : Blind B (pure a) s u (some a) s u := inspect fun _ _ _ => rfl

theorem update {advances framed impartial} (suffix : u' <:+ u)
    (h : ∀ after finish, B after finish → F (s.upTo u after finish) = s'.upTo u' after finish) :
    Blind B (update F advances framed impartial) s u (some ()) s' u' :=
  ⟨suffix, fun after finish behind => by simp [Parser.run, h _ _ behind]⟩

theorem giveUp {advances framed loud impartial} (suffix : u' <:+ u)
    (h : ∀ after finish, B after finish → F (s.upTo u after finish) = s'.upTo u' after finish) :
    Blind B (giveUp F advances framed loud impartial : Parser α) s u none s' u' :=
  ⟨suffix, fun after finish behind => by simp [Parser.run, h _ _ behind]⟩

theorem bind {f : α → Parser β} {r : Option β} (first : Blind B p s u (some a) t v)
    (second : Blind B (f a) t v r s' u') : Blind B (p >>= f) s u r s' u' :=
  ⟨second.1.trans first.1, fun after finish behind => by
    rw [run_bind, first.2 _ _ behind, ← second.2 _ _ behind]⟩

theorem bind_none {f : α → Parser β} (first : Blind B p s u none t v) :
    Blind B (p >>= f) s u none t v :=
  ⟨first.1, fun after finish behind => by rw [run_bind, first.2 _ _ behind]⟩

theorem advance {t : Token} : Blind B advance s (t :: u) (some ()) s u :=
  ⟨List.suffix_cons t u, fun after finish _ =>
    congrArg (some (), ·) (s.drop_upTo [t] u after finish)⟩

theorem member {t : Token} : Blind B member s (t :: u) (some t) s u :=
  ⟨List.suffix_cons t u, fun after finish _ =>
    congrArg (some t, ·) (s.drop_upTo [t] u after finish)⟩

theorem spanned_some {p : Parser (Range → α)} {k : Range → α} (h : Blind B p s u (some k) s' u')
    (first : Range) : ∃ range, Blind B (spanned first p) s u (some (k range)) s' u' := by
  obtain ⟨⟨v, rfl⟩, run⟩ := h
  refine ⟨v.getLast?.elim first fun last => first.union last.range,
    List.suffix_append v u', fun after finish behind => ?_⟩
  simp only [run_spanned, run _ _ behind, State.lastTaken_upTo]

theorem nested (shallow : s.nesting < maxNesting)
    (h : Blind B p (s.atNesting (s.nesting + 1)) u r s' u') :
    Blind B (nested p) s u r (s'.atNesting (s'.nesting - 1)) u' := by
  refine ⟨h.1, fun after finish behind => (if_neg (Nat.not_le.mpr shallow)).trans ?_⟩
  exact congrArg (fun r => (r.1, r.2.atNesting (r.2.nesting - 1))) (h.2 after finish behind)

theorem inFunction (h : Blind B p (s.atFunctions (s.functions + 1)) u r s' u') :
    Blind B (inFunction p) s u r (s'.atFunctions (s'.functions - 1)) u' :=
  ⟨h.1, fun after finish behind =>
    congrArg (fun r => (r.1, r.2.atFunctions (r.2.functions - 1))) (h.2 after finish behind)⟩

theorem droppable (h : Blind B p (s.withDiscard false) u r s' u') :
    Blind B (droppable p) s u (if s'.discard then none else r) (s'.withDiscard s.discard) u' :=
  ⟨h.1, fun after finish behind =>
    congrArg (fun r => (if r.2.discard then none else r.1, r.2.withDiscard s.discard))
      (h.2 after finish behind)⟩

theorem attemptPast_some (h : Blind B p s u (some a) s' u') :
    Blind B (attemptPast p) s u (some (some a)) s' u' :=
  ⟨h.1, fun after finish behind => by simp [run_attemptPast, h.2 _ _ behind]⟩

theorem attemptPast_none (h : Blind B p s u none s' u') (moved : u'.length ≠ u.length) :
    Blind B (attemptPast p) s u (some none) s' u' := by
  refine ⟨h.1, fun after finish behind => ?_⟩
  simp only [run_attemptPast, h.2 _ _ behind, State.size_upTo]
  rw [if_neg (by omega)]

theorem attemptPast_stuck {t : Token} (h : Blind B p s (t :: u) none s' (t :: u)) :
    Blind B (attemptPast p) s (t :: u) (some none) s' u := by
  refine ⟨List.suffix_cons t u, fun after finish behind => ?_⟩
  simp only [run_attemptPast, h.2 _ _ behind, State.size_upTo, if_true]
  exact congrArg (some none, ·) (s'.drop_upTo [t] u after finish)

theorem withCleanup_some (h : Blind B p s u (some a) s' u') :
    Blind B (withCleanup p cleanup) s u (some a) s' u' :=
  ⟨h.1, fun after finish behind => by simp [run_withCleanup, h.2 _ _ behind]⟩

theorem withCleanup_none {r : Option Unit} (h : Blind B p s u none t v)
    (cleans : Blind B cleanup t v r s' u') : Blind B (withCleanup p cleanup) s u none s' u' :=
  ⟨cleans.1.trans h.1, fun after finish behind => by
    simp [run_withCleanup, h.2 _ _ behind, cleans.2 _ _ behind]⟩

section Loop

variable {round : σ → Parser (Round σ α)} {x y : σ}

theorem loop_none (h : Blind B (round x) s u none s' u') : Blind B (loop round x) s u none s' u' :=
  ⟨h.1, fun _ _ behind => run_loop_failed (h.2 _ _ behind)⟩

theorem loop_done (h : Blind B (round x) s u (some (.done a)) s' u') :
    Blind B (loop round x) s u (some a) s' u' :=
  ⟨h.1, fun _ _ behind => run_loop_done (h.2 _ _ behind)⟩

theorem run_loop (h : Blind B (round x) s u (some (.again y)) t v) (less : v.length < u.length)
    {after : List Token} {finish : Position} (behind : B after finish) :
    (loop round x).run (s.upTo u after finish) = (loop round y).run (t.upTo v after finish) :=
  run_loop_again (h.2 _ _ behind) (by simp only [State.size_upTo]; omega)

theorem loop_again (h : Blind B (round x) s u (some (.again y)) t v) (less : v.length < u.length)
    (rest : Blind B (loop round y) t v r s' u') : Blind B (loop round x) s u r s' u' :=
  ⟨rest.1.trans h.1, fun after finish behind => by
    rw [h.run_loop less behind, rest.2 _ _ behind]⟩

theorem loop_stuck (h : Blind B (round x) s u (some (.again y)) t v)
    (stuck : ¬ v.length < u.length) (refuses : Blind B tooDeep t v r s' u') :
    Blind B (loop round x) s u r s' u' :=
  ⟨refuses.1.trans h.1, fun after finish behind => by
    rw [← refuses.2 _ _ behind]
    exact run_loop_stuck (h.2 _ _ behind) (by simp only [State.size_upTo]; omega)⟩

end Loop
end Blind

/-- The token that is seen behind some others. Of a line break and of the end of the file only the
kind and the range count. -/
structure Verge where
  token : Token
  sort : token.kind = .newline ∨ token.kind = .endOfFile ∨ token.kind = .endSub

namespace Verge

variable {f : Kind → Bool}

/-- The end of the file, with this range. -/
def file (range : Range) : Verge := ⟨⟨.endOfFile, "", range, none⟩, .inr (.inl rfl)⟩

/-- A line break, with this range. -/
def line (range : Range) : Verge := ⟨⟨.newline, "", range, none⟩, .inl rfl⟩

/-- What stands behind the tokens is seen as this verge. The end of a function also ends its line,
and no comment on the next line goes on with one in front of a line break. -/
structure Meets (v : Verge) (after : List Token) (finish : Position) : Prop where
  kind : (after.head?.getD (.endOfFile finish)).kind = v.token.kind
  range : (after.head?.getD (.endOfFile finish)).range = v.token.range
  closer : v.token.kind = .endSub → ∃ line more, after = v.token :: line :: more ∧
    line.kind = .newline
  code : v.token.kind = .newline → ∀ t, after.tail.head? = some t → t.kind ≠ .comment

variable {v : Verge} {u w after : List Token} {finish : Position}

theorem meets_self (v : Verge) :
    v.Meets [v.token, ⟨.newline, "", v.token.range, none⟩] .origin := by
  refine ⟨rfl, rfl, fun _ => ⟨_, [], rfl, rfl⟩, fun _ t head => ?_⟩
  obtain rfl := Option.some.inj head
  exact Kind.noConfusion

/-- The kind that is seen with the tokens `u` in front of the verge. -/
def kind (v : Verge) (u : List Token) : Kind := (u.headD v.token).kind

theorem Meets.kind_upTo (h : v.Meets after finish) (s : State) (u : List Token) :
    (s.upTo u after finish).kind = v.kind u := by
  cases u with
  | nil => exact h.kind
  | cons t u => rfl

theorem Meets.range_upTo (h : v.Meets after finish) (s : State) (u : List Token) :
    (s.upTo u after finish).range = (u.headD v.token).range := by
  cases u with
  | nil => exact h.range
  | cons t u => rfl

theorem Meets.found_upTo (h : v.Meets after finish) (s : State) (u : List Token) :
    (s.upTo u after finish).found = (s.upTo [u.headD v.token] [] .origin).found := by
  cases u with
  | cons t u => rfl
  | nil =>
    have here : (s.upTo [] after finish).kind = v.token.kind := h.kind
    have there : (s.upTo [v.token] [] .origin).kind = v.token.kind := rfl
    rw [List.headD_nil, State.found, State.found, here, there]
    rcases v.sort with sort | sort | sort
    · rw [sort]
    · rw [sort]
    · obtain ⟨line, more, rfl, -⟩ := h.closer sort
      rfl

theorem Meets.kindAt (h : v.Meets after finish) (s : State) (w u : List Token) :
    (s.upTo (w ++ u) after finish).kindAt w.length = v.kind u := by
  have items : (s.upTo (w ++ u) after finish).rest.items = w ++ (u ++ after) := by
    simp [State.upTo]
  rw [State.kindAt, items, List.getElem?_append_right (Nat.le_refl _), Nat.sub_self]
  cases u with
  | cons n u => rfl
  | nil =>
    have seen := h.kind
    cases after with
    | nil => exact seen
    | cons n after => exact seen

theorem code_of (h : f (v.kind u) = true) (line : f .newline = false) (file : f .endOfFile = false)
    (sub : f .endSub = false) : u ≠ [] ∧ v.kind u ≠ .newline := by
  constructor
  · rintro rfl
    rw [kind, List.headD_nil] at h
    rcases v.sort with sort | sort | sort <;> rw [sort] at h
    · rw [line] at h
      cases h
    · rw [file] at h
      cases h
    · rw [sub] at h
      cases h
  · intro same
    rw [same, line] at h
    cases h

/-- The kinds of verges. -/
def ends : Kind → Bool
  | .newline | .endOfFile | .endSub => true
  | _ => false

theorem code_at (at_ : k = v.kind u) (inner : ends k = false) : u ≠ [] ∧ v.kind u ≠ .newline :=
  v.code_of (f := fun k => !ends k) (by rw [← at_, inner]; rfl) rfl rfl rfl

def Open (v : Verge) (u : List Token) : Prop := v.token.kind = .endSub → u ≠ []

theorem Open.code (h : v.Open u) (at_ : f (v.kind u) = true) (line : f .newline = false)
    (file : f .endOfFile = false) : u ≠ [] ∧ v.kind u ≠ .newline := by
  constructor
  · rintro rfl
    rw [kind, List.headD_nil] at at_
    rcases v.sort with sort | sort | sort
    · rw [sort, line] at at_
      cases at_
    · rw [sort, file] at at_
      cases at_
    · exact h sort rfl
  · intro same
    rw [same, line] at at_
    cases at_

theorem stops (many : v.token.kind ≠ .newline) (file : f .endOfFile = false)
    (sub : f .endSub = false) : f v.token.kind = false := by
  rcases v.sort with sort | sort | sort
  · exact absurd sort many
  · rw [sort, file]
  · rw [sort, sub]

end Verge

def Kind.staysOnLine : Kind → Bool
  | .newline | .endOfFile | .leftParen | .leftSquare | .leftCurly | .if_ | .while_ | .for_
  | .function | .sub => false
  | _ => true

/-- Kinds that the body of a function may hold: none that opens or closes a function, that ends
the file, or after which any word may stand on a line of its own. -/
def Kind.isLocal : Kind → Bool
  | .function | .sub | .endFunction | .endSub | .leftCurly | .endOfFile => false
  | _ => true

/-- The rest of a body, which is empty or ends with a line break. -/
structure Local (u : List Token) : Prop where
  kinds : ∀ t ∈ u, Kind.isLocal t.kind = true
  line : ∀ t, u.getLast? = some t → t.kind = .newline

theorem Local.suffix {u v : List Token} (h : Local u) (suffix : v <:+ u) : Local v := by
  obtain ⟨w, rfl⟩ := suffix
  refine ⟨fun t mem => h.kinds t (List.mem_append_right w mem), fun t last => h.line t ?_⟩
  rw [List.getLast?_append, last]
  rfl

/-- In front of a line break only such tokens are looked at that stay on their line, in front of
the end of a function only such that stay in its body. -/
structure Verge.Spans (v : Verge) (u : List Token) : Prop where
  line : v.token.kind = .newline → ∀ t ∈ u, Kind.staysOnLine t.kind = true
  body : v.token.kind = .endSub → Local u

namespace Verge.Spans

variable {v : Verge} {u w : List Token}

theorem file (range : Range) (u : List Token) : (Verge.file range).Spans u :=
  ⟨nofun, nofun⟩

theorem suffix (h : v.Spans u) (suffix : w <:+ u) : v.Spans w :=
  ⟨fun line t mem => h.line line t (suffix.subset mem), fun sub => (h.body sub).suffix suffix⟩

theorem many (h : v.Spans u) (at_ : k = v.kind u) (inner : Verge.ends k = false)
    (off : Kind.staysOnLine k = false) : v.token.kind ≠ .newline := by
  intro line
  obtain ⟨t, w, rfl⟩ := List.exists_cons_of_ne_nil (v.code_at at_ inner).1
  rw [at_, Verge.kind, List.headD_cons, h.line line t List.mem_cons_self] at off
  cases off

theorem whole (h : v.Spans u) (at_ : k = v.kind u) (inner : Verge.ends k = false)
    (off : Kind.staysOnLine k = false) (outer : Kind.isLocal k = false) :
    v.token.kind = .endOfFile := by
  rcases v.sort with line | file | sub
  · exact absurd line (h.many at_ inner off)
  · exact file
  · obtain ⟨t, w, rfl⟩ := List.exists_cons_of_ne_nil (v.code_at at_ inner).1
    rw [at_, Verge.kind, List.headD_cons, (h.body sub).kinds t List.mem_cons_self] at outer
    cases outer

theorem open_tail (h : v.Spans u) (open_ : u ≠ []) (code : v.kind u ≠ .newline) :
    v.Open u.tail := by
  obtain ⟨t, u, rfl⟩ := List.exists_cons_of_ne_nil open_
  rintro sub rfl
  exact code ((h.body sub).line t rfl)

theorem kind_cases (h : v.Spans u) (sub : v.token.kind = .endSub) :
    Kind.isLocal (v.kind u) = true ∨ u = [] := by
  cases u with
  | nil => exact .inr rfl
  | cons t u => exact .inl ((h.body sub).kinds t List.mem_cons_self)

end Verge.Spans

def Verge.Inside (v : Verge) (s : State) : Prop := v.token.kind = .endSub → 0 < s.functions

theorem Blind.inside {v : Verge} {p : Parser α} {s s' : State} {u u' : List Token} {r : Option α}
    (h : Blind v.Meets p s u r s' u') (inside : v.Inside s) : v.Inside s' := by
  have same : s'.functions = s.functions := (advances_of_run (h.2 _ _ v.meets_self)).functions
  intro sub
  rw [same]
  exact inside sub

/-- In front of the verge, with tokens in `pre` left, the parser `p` stays in front of it and does
not look beyond. With a result it leaves tokens in `post`. -/
def Confined (v : Verge) (pre : List Token → Prop) (p : Parser α)
    (post : α → List Token → Prop) : Prop :=
  ∀ (s : State) (u : List Token), v.Inside s → v.Spans u → pre u →
    ∃ r s' u', Blind v.Meets p s u r s' u' ∧ ∀ a, r = some a → post a u'

namespace Confined

variable {v : Verge} {pre pre' : List Token → Prop} {p : Parser α}
  {post post' : α → List Token → Prop} {problem : String → Problem}

theorem mono (h : Confined v pre p post) (stronger : ∀ u, v.Spans u → pre' u → pre u)
    (weaker : ∀ a u, post a u → post' a u) : Confined v pre' p post' := by
  intro s u inside spans holds
  obtain ⟨r, s', u', blind, result⟩ := h s u inside spans (stronger u spans holds)
  exact ⟨r, s', u', blind, fun a same => weaker a u' (result a same)⟩

theorem from_ (h : Confined v pre p post) (stronger : ∀ u, v.Spans u → pre' u → pre u) :
    Confined v pre' p post :=
  h.mono stronger fun _ _ => id

theorem anywhere (h : Confined v (fun _ => True) p post) : Confined v pre p post :=
  h.from_ fun _ _ _ => trivial

theorem any (h : Confined v pre p post) : Confined v pre p fun _ _ => True :=
  h.mono (fun _ _ => id) fun _ _ _ => trivial

theorem given {P : Prop} (known : ∀ u, v.Spans u → pre u → P) (h : P → Confined v pre p post) :
    Confined v pre p post :=
  fun s u inside spans holds => h (known u spans holds) s u inside spans holds

theorem bind {g : α → Parser β} {post : β → List Token → Prop} {mid : α → List Token → Prop}
    (first : Confined v pre p mid) (second : ∀ a, Confined v (mid a) (g a) post) :
    Confined v pre (p >>= g) post := by
  intro s u inside spans holds
  obtain ⟨r, t, w, blind, result⟩ := first s u inside spans holds
  cases r with
  | none => exact ⟨none, t, w, blind.bind_none, by simp⟩
  | some a =>
    obtain ⟨r, s', u', blind', result'⟩ :=
      second a t w (blind.inside inside) (spans.suffix blind.1) (result a rfl)
    exact ⟨r, s', u', blind.bind blind', result'⟩

theorem inspect {F : State → α} {framed impartial}
    (h : ∀ (s : State) (u : List Token), v.Inside s → v.Spans u → pre u →
      ∃ a, post a u ∧ ∀ after finish, v.Meets after finish → F (s.upTo u after finish) = a) :
    Confined v pre (inspect F framed impartial) post := by
  intro s u inside spans holds
  obtain ⟨a, result, same⟩ := h s u inside spans holds
  refine ⟨some a, s, u, .inspect same, ?_⟩
  rintro _ ⟨⟩
  exact result

theorem pure (h : ∀ u, pre u → post a u) : Confined v pre (pure a) post :=
  .inspect fun _ u _ _ holds => ⟨a, h u holds, fun _ _ _ => rfl⟩

theorem done : Confined v pre (Pure.pure a) fun _ _ => True := pure fun _ _ => trivial

theorem map {g : α → β} {post : β → List Token → Prop}
    (h : Confined v pre p fun a u => post (g a) u) : Confined v pre (g <$> p) post :=
  h.bind fun _ => .pure fun _ => id

theorem kind : Confined v pre kind fun k u => pre u ∧ k = v.kind u :=
  .inspect fun s u _ _ holds => ⟨_, ⟨holds, rfl⟩, fun _ _ meets => meets.kind_upTo s u⟩

theorem here : Confined v pre here fun _ => pre :=
  .inspect fun s u _ _ holds => ⟨_, holds, fun _ _ meets => meets.range_upTo s u⟩

theorem isAt : Confined v pre (isAt k) fun b u => pre u ∧ (b = true ↔ v.kind u = k) :=
  .inspect fun s u _ _ holds => ⟨decide (v.kind u = k), ⟨holds, by simp⟩, fun _ _ meets => by
    rw [meets.kind_upTo]⟩

theorem atName {word : String} : Confined v pre (atName word) fun b u =>
    pre u ∧ (b = true → u ≠ []) := by
  refine .inspect fun s u _ _ holds => ?_
  refine ⟨decide (v.kind u = .identifier) && Text.sameWord (u.headD v.token).text word,
    ⟨holds, fun named => ?_⟩, fun after finish meets => ?_⟩
  · simp only [Bool.and_eq_true, decide_eq_true_eq] at named
    exact (v.code_at named.1.symm rfl).1
  · rw [meets.kind_upTo]
    by_cases name : v.kind u = .identifier
    · obtain ⟨t, w, rfl⟩ := List.exists_cons_of_ne_nil (v.code_at name.symm rfl).1
      rfl
    · simp [name]

theorem seeing {f : Token → Parser β} {post : β → List Token → Prop}
    (same : pre [] → ∀ t, t.kind = v.token.kind → f t = f v.token)
    (h : ∀ t, Confined v (fun u => pre u ∧ t = u.headD v.token) (f t) post) :
    Confined v pre (Parser.token >>= f) post := by
  intro s u inside spans holds
  obtain ⟨r, s', u', blind, result⟩ := h _ s u inside spans ⟨holds, rfl⟩
  refine ⟨r, s', u', ⟨blind.1, fun after finish meets => ?_⟩, result⟩
  rw [run_bind, ← blind.2 after finish meets]
  cases u with
  | cons t w => rfl
  | nil =>
    have here : f (s.upTo [] after finish).token = f v.token := same holds _ (meets.kind_upTo s [])
    exact congrArg (fun p : Parser β => p.run (s.upTo [] after finish)) here

theorem token {f : Token → Parser β} {post : β → List Token → Prop} (open_ : ∀ u, pre u → u ≠ [])
    (h : ∀ t, Confined v (fun u => pre u ∧ t = u.headD v.token) (f t) post) :
    Confined v pre (Parser.token >>= f) post :=
  seeing (fun holds => absurd rfl (open_ [] holds)) h

theorem advance {P : List Token → Prop} :
    Confined v (fun u => u ≠ [] ∧ P u.tail) advance fun _ => P := by
  intro s u _ _ ⟨open_, rest⟩
  obtain ⟨t, w, rfl⟩ := List.exists_cons_of_ne_nil open_
  exact ⟨some (), s, w, .advance, fun _ _ => rest⟩

theorem member {P : List Token → Prop} :
    Confined v (fun u => u ≠ [] ∧ P u.tail) member fun _ => P := by
  intro s u _ _ ⟨open_, rest⟩
  obtain ⟨t, w, rfl⟩ := List.exists_cons_of_ne_nil open_
  exact ⟨some t, s, w, .member, fun _ _ => rest⟩

theorem advance_any : Confined v (· ≠ []) Parser.advance fun _ _ => True :=
  advance.from_ fun _ _ open_ => ⟨open_, trivial⟩

theorem advance_code :
    Confined v (fun u => u ≠ [] ∧ v.kind u ≠ .newline) Parser.advance fun _ => v.Open :=
  advance.from_ fun _ spans code => ⟨code.1, spans.open_tail code.1 code.2⟩

theorem advance_at (inner : Verge.ends k = false) :
    Confined v (k = v.kind ·) Parser.advance fun _ => v.Open :=
  advance_code.from_ fun _ _ at_ => v.code_at at_ inner

theorem update {advances framed impartial} {post : Unit → List Token → Prop}
    (h : ∀ (s : State) (u : List Token), pre u → ∃ (s' : State) (u' : List Token), u' <:+ u ∧
      post () u' ∧ ∀ after finish, v.Meets after finish →
        F (s.upTo u after finish) = s'.upTo u' after finish) :
    Confined v pre (update F advances framed impartial) post := by
  intro s u _ _ holds
  obtain ⟨s', u', suffix, result, same⟩ := h s u holds
  exact ⟨some (), s', u', .update suffix same, fun _ _ => result⟩

theorem giveUp {advances framed loud impartial}
    (h : ∀ (s : State) (u : List Token), pre u → ∃ (s' : State) (u' : List Token), u' <:+ u ∧
      ∀ after finish, v.Meets after finish →
        F (s.upTo u after finish) = s'.upTo u' after finish) :
    Confined v pre (giveUp F advances framed loud impartial) post := by
  intro s u _ _ holds
  obtain ⟨s', u', suffix, same⟩ := h s u holds
  exact ⟨none, s', u', .giveUp suffix same, by simp⟩

theorem report_upTo (problem : String → Problem) (s : State) (u : List Token)
    {after : List Token} {finish : Position} (meets : v.Meets after finish) :
    (s.upTo u after finish).report (problem (s.upTo u after finish).found)
        (s.upTo u after finish).range =
      (s.report (problem (s.upTo [u.headD v.token] [] .origin).found)
        (u.headD v.token).range).upTo u after finish := by
  rw [meets.range_upTo, meets.found_upTo]
  rfl

theorem reportHere : Confined v pre (reportHere problem) fun _ => pre :=
  .update fun s u holds => ⟨_, u, List.suffix_refl u, holds, fun _ _ => report_upTo problem s u⟩

theorem report {p : Problem} {range : Range} : Confined v pre (report p range) fun _ => pre :=
  .update fun s u holds => ⟨s.report p range, u, List.suffix_refl u, holds, fun _ _ _ => rfl⟩

theorem refuse {e} : Confined v pre (refuse problem e) post :=
  .giveUp fun s u _ => ⟨_, u, List.suffix_refl u, fun _ _ => report_upTo problem s u⟩

theorem tooDeep : Confined v pre tooDeep post := refuse

theorem refuseAt {p : Problem} {range : Range} {e} :
    Confined v pre (refuseAt p range e) post :=
  .giveUp fun s u _ => ⟨s.report p range, u, List.suffix_refl u, fun _ _ _ => rfl⟩

theorem refusePast {e} (open_ : ∀ u, pre u → u ≠ []) :
    Confined v pre (refusePast problem e) post := by
  refine .giveUp fun s u holds => ?_
  obtain ⟨t, w, rfl⟩ := List.exists_cons_of_ne_nil (open_ u holds)
  refine ⟨s.report (problem (s.upTo [t] [] .origin).found) t.range, w, List.suffix_cons t w,
    fun after finish meets => ?_⟩
  rw [report_upTo problem s (t :: w) meets]
  exact State.drop_upTo _ [t] w after finish

theorem skipWhile {skips : Kind → Bool} (stops : skips v.token.kind = false) :
    Confined v pre (skipWhile skips) fun _ _ => True := by
  refine .update fun s u _ => ?_
  obtain ⟨w, u, rfl, skipped, stop⟩ := exists_skipped skips u
  refine ⟨s, u, List.suffix_append w u, trivial, fun after finish meets => ?_⟩
  refine s.skipWhile_upTo after finish skipped fun t head => ?_
  cases u with
  | cons n u => exact stop t head
  | nil =>
    have seen := meets.kind
    rw [show after.head? = some t from head] at seen
    rw [show t.kind = v.token.kind from seen, stops]

theorem skipNewlines (many : v.token.kind ≠ .newline) :
    Confined v pre skipNewlines fun _ _ => True := skipWhile (decide_eq_false many)

theorem spanned {first : Range} {p : Parser (Range → α)}
    (h : Confined v pre p fun node u => ∀ range, post (node range) u) :
    Confined v pre (spanned first p) post := by
  intro s u inside spans holds
  obtain ⟨r, s', u', blind, result⟩ := h s u inside spans holds
  cases r with
  | none =>
    refine ⟨none, s', u', ⟨blind.1, fun after finish meets => ?_⟩, by simp⟩
    simp only [run_spanned, blind.2 _ _ meets]
  | some node =>
    obtain ⟨range, blind'⟩ := blind.spanned_some first
    refine ⟨_, s', u', blind', ?_⟩
    rintro _ ⟨⟩
    exact result node rfl range

theorem ranged {p : Parser (Range → α)}
    (h : Confined v pre p fun node u => ∀ range, post (node range) u) :
    Confined v pre (ranged p) post :=
  here.bind fun _ => .spanned h

theorem nested (h : Confined v pre p post) : Confined v pre (nested p) post := by
  intro s u inside spans holds
  rcases Nat.lt_or_ge s.nesting maxNesting with shallow | deep
  · obtain ⟨r, s', u', blind, result⟩ := h (s.atNesting (s.nesting + 1)) u inside spans holds
    exact ⟨r, _, u', blind.nested shallow, result⟩
  · obtain ⟨r, s', u', blind, result⟩ :=
      (tooDeep : Confined v pre Parser.tooDeep post) s u inside spans holds
    exact ⟨r, s', u', ⟨blind.1, fun after finish meets =>
      (if_pos deep).trans (blind.2 after finish meets)⟩, result⟩

theorem inFunction (h : Confined v pre p post) : Confined v pre (inFunction p) post := by
  intro s u inside spans holds
  obtain ⟨r, s', u', blind, result⟩ :=
    h (s.atFunctions (s.functions + 1)) u (fun _ => Nat.succ_pos _) spans holds
  exact ⟨r, _, u', blind.inFunction, result⟩

theorem droppable (h : Confined v pre p post) : Confined v pre (droppable p) post := by
  intro s u inside spans holds
  obtain ⟨r, s', u', blind, result⟩ := h (s.withDiscard false) u inside spans holds
  refine ⟨_, _, u', blind.droppable, fun a same => ?_⟩
  split at same
  · cases same
  · exact result a same

theorem attemptPast (h : Confined v pre p post) (open_ : ∀ u, pre u → u ≠ []) :
    Confined v pre (attemptPast p) fun _ _ => True := by
  intro s u inside spans holds
  obtain ⟨r, s', u', blind, result⟩ := h s u inside spans holds
  cases r with
  | some a => exact ⟨_, s', u', blind.attemptPast_some, fun _ _ => trivial⟩
  | none =>
    by_cases stuck : u'.length = u.length
    · obtain ⟨t, w, rfl⟩ := List.exists_cons_of_ne_nil (open_ u holds)
      obtain rfl : u' = t :: w := blind.1.eq_of_length stuck
      exact ⟨_, s', w, blind.attemptPast_stuck, fun _ _ => trivial⟩
    · exact ⟨_, s', u', blind.attemptPast_none stuck, fun _ _ => trivial⟩

theorem withCleanup (h : Confined v pre p post)
    (cleans : Confined v (fun _ => True) cleanup fun _ _ => True) :
    Confined v pre (withCleanup p cleanup) post := by
  intro s u inside spans holds
  obtain ⟨r, t, w, blind, result⟩ := h s u inside spans holds
  cases r with
  | some a => exact ⟨_, t, w, blind.withCleanup_some, result⟩
  | none =>
    obtain ⟨_, s', u', blind', _⟩ :=
      cleans t w (blind.inside inside) (spans.suffix blind.1) trivial
    exact ⟨none, s', u', blind.withCleanup_none blind', by simp⟩

/- Induction on the tokens in front of the verge. -/
theorem loop {round : σ → Parser (Round σ α)} {I : σ → List Token → Prop}
    (h : ∀ x, Confined v (I x) (round x) fun r u => r.Holds (I · u) (post · u)) (x : σ) :
    Confined v (I x) (loop round x) post := by
  intro s u inside spans holds
  induction size : u.length using Nat.strongRecOn generalizing x s u with
  | ind n ih =>
    obtain ⟨r, t, w, blind, result⟩ := h x s u inside spans holds
    have inside' := blind.inside inside
    have spans' := spans.suffix blind.1
    cases r with
    | none => exact ⟨none, t, w, blind.loop_none, by simp⟩
    | some r =>
      cases r with
      | done a =>
        refine ⟨some a, t, w, blind.loop_done, ?_⟩
        rintro _ ⟨⟩
        exact result _ rfl
      | again y =>
        by_cases less : w.length < u.length
        · obtain ⟨r, s', u', rest, result'⟩ :=
            ih w.length (size ▸ less) y t w inside' spans' (result _ rfl) rfl
          exact ⟨r, s', u', blind.loop_again less rest, result'⟩
        · obtain ⟨r, s', u', refuses, result'⟩ :=
            (tooDeep : Confined v (fun _ => True) Parser.tooDeep post) t w inside' spans' trivial
          exact ⟨r, s', u', blind.loop_stuck less refuses, result'⟩

theorem many {round : Parser (Option (List α))} {I last : List Token → Prop}
    (h : Confined v I round fun r u => if r = none then last u else I u) :
    Confined v I (many round) fun _ => last := by
  refine loop (I := fun _ => I) (fun found => h.bind fun r => ?_) []
  cases r with
  | none => exact .pure fun _ => id
  | some more => exact .pure fun _ => id

theorem accept (inner : Verge.ends k = false) :
    Confined v pre (accept k) fun b u => bif b then v.Open u else pre u := by
  refine isAt.bind fun b => ?_
  cases b with
  | true =>
    exact ((advance_at inner).from_ fun u _ holds => (holds.2.mp rfl).symm).bind fun _ =>
      .pure fun _ => id
  | false => exact .pure fun _ holds => holds.1

theorem expect (inner : Verge.ends k = false) : Confined v pre (expect k) fun _ => v.Open := by
  refine (accept inner).bind fun b => ?_
  cases b with
  | true => exact .pure fun _ => id
  | false => exact .refuse (e := fun _ => Severity.eq_error rfl)

theorem takeIdent {P : List Token → Prop} :
    Confined v (fun u => u ≠ [] ∧ P u.tail) takeIdent fun _ => P :=
  .token (fun _ => And.left) fun _ =>
    (advance.from_ fun _ _ holds => holds.1).bind fun _ => .pure fun _ => id

theorem memberName {P : List Token → Prop} :
    Confined v (fun u => u ≠ [] ∧ P u.tail) memberName fun _ => P :=
  member.bind fun _ => .pure fun _ => id

theorem past_line (inner : Verge.ends k = false) (off : Kind.staysOnLine k = false)
    (h : v.token.kind ≠ .newline → Confined v (k = v.kind ·) p post) :
    Confined v (k = v.kind ·) p post :=
  given (fun _ spans at_ => spans.many at_ inner off) h

theorem in_file (inner : Verge.ends k = false) (off : Kind.staysOnLine k = false)
    (outer : Kind.isLocal k = false)
    (h : v.token.kind = .endOfFile → Confined v (k = v.kind ·) p post) :
    Confined v (k = v.kind ·) p post :=
  given (fun _ spans at_ => spans.whole at_ inner off outer) h

end Confined
end BrightScript.Parser
