import BrightScript.Proofs.Parser.Laid

/-! The order of reports.
A parser reports at its current token or at one it takes, so its reports lie between the place where
it starts and the place where it stops, and those of a sequence come one after the other. Two kinds
of report are late: they are made only when a whole expression or parameter has been read, at its
start. Each report quotes the token that it is at. -/
namespace BrightScript

/-- A token as a message shows it. -/
def Token.quoted (t : Token) : String :=
  match t.kind with
  | .newline | .endOfFile => t.kind.label
  | _ => t.text

theorem Token.quoted_of_word {t : Token} (word : t.kind.isWord = true) : t.quoted = t.text := by
  unfold quoted
  split <;> simp_all [Kind.isWord, Kind.isKeyword, Kind.keywordText]

def Problem.Quotes (t : Token) : Problem → Prop
  | unexpectedToken x | expectedExpression x | expectedIdentifier x => x = t.quoted
  | expectedToken wanted x => (wanted = "in" ∨ ∃ k : Kind, wanted = k.label) ∧ x = t.quoted
  | unknownType x | reservedWord x | requiredAfterOptional x => x = t.text
  | unclosed closer _ => ∃ k : Kind, closer = k.label
  | unsupportedFeature x => x = "ternary operator"
  | notConvertible x y =>
    x = (Literal.type ⟨t.kind, t.text, t.range⟩).display ∧ ∃ type : Ty, y = type.display
  | _ => False

def Diagnostic.Late (d : Diagnostic) : Prop := d.code = 1025 ∨ d.code = 1063

def Diagnostic.InTurn (d d' : Diagnostic) : Prop :=
  (d.range.start ≤ d'.range.start ∨ d'.Late) ∧
    (d.code = 1060 → d'.code = 1060 → d.range.stop ≤ d'.range.start)

namespace Parser

variable {α β σ : Type}

namespace State

variable {a b c : State} {M N : Token → Prop} {d : Diagnostic} {p : Problem} {r : Range}

/-- A token ahead, or the end that is taken to stand behind the last one. -/
def Ahead (a : State) (t : Token) : Prop := t ∈ a.rest.items ∨ t = .endOfFile a.finish

def Tells (a : State) (d : Diagnostic) : Prop :=
  ∃ p, d = .of p d.range ∧
    (p.arguments = [] ∨ ∃ t, a.Ahead t ∧ t.range = d.range ∧ p.Quotes t)

theorem tells_here (h : p.arguments = [] ∨ p.Quotes a.token) : a.Tells (.of p a.range) := by
  refine ⟨p, rfl, h.imp_right fun quotes => ⟨a.token, ?_, rfl, quotes⟩⟩
  unfold Ahead token Input.head?
  cases a.rest.items <;> simp

theorem Tells.of_leads (leads : a.Leads b) (h : b.Tells d) : a.Tells d := by
  obtain ⟨p, same, quotes⟩ := h
  refine ⟨p, same, quotes.imp_right ?_⟩
  rintro ⟨t, ahead, rest⟩
  exact ⟨t, ahead.imp (leads.suffix.subset ·) (leads.finish ▸ ·), rest⟩

/-- A token between two places. -/
def Spans (a b : State) (t : Token) : Prop :=
  a.place ≤ t.range.start ∧ t.range.start < t.range.stop ∧ t.range.stop ≤ b.place

/-- Where a report may be. A reserved word is told of at a token that is no member. -/
def Reports (a : State) (M : Token → Prop) (b : State) (d : Diagnostic) : Prop :=
  (d.Late ∨ a.place ≤ d.range.start) ∧ d.range.start ≤ b.place ∧
    (d.code = 1060 → ∃ t ∈ a.rest.items, d.range = t.range ∧ isReserved t.text = true ∧
      a.Spans b t ∧ ¬ M t)

/-- What has been reported from `a` to `b` comes in turn, between their places, and so do the tokens
that have been read as members. It tells of what was ahead. -/
def Follows (a : State) (M : Token → Prop) (b : State) : Prop :=
  (∃ new, b.diagnostics = a.diagnostics ++ new ∧ new.Pairwise Diagnostic.InTurn ∧
    ∀ d ∈ new, a.Reports M b d) ∧ (∀ t, M t → a.Spans b t) ∧
    ∀ d ∈ b.diagnostics, d ∈ a.diagnostics ∨ a.Tells d

theorem Sound.spans_token (sound : a.Sound) (open_ : a.kind ≠ .endOfFile) :
    a.Spans (a.drop 1) a.token := by
  have items : a.rest.items = [a.token] ++ (a.drop 1).rest.items := items_eq open_
  have between := sound.taken_between (Advances.drop 1 a).leads items List.mem_cons_self
  exact ⟨between.1, sound.ordered.solid _ (token_mem open_) open_, between.2.2⟩

theorem Sound.reports_here (sound : a.Sound) (leads : a.Leads b)
    (other : (p.notice.code == 1060) = false) : a.Reports M b (.of p a.range) := by
  refine ⟨.inr (le_refl _), sound.place_le leads, fun code => ?_⟩
  rw [show p.notice.code = 1060 from code] at other
  cases other

namespace Follows

theorem mono (h : a.Follows M b) (le : ∀ t, N t → M t) : a.Follows N b := by
  obtain ⟨⟨new, added, turn, places⟩, spans, tells⟩ := h
  refine ⟨⟨new, added, turn, fun d mem => ?_⟩, fun t holds => spans t (le t holds), tells⟩
  obtain ⟨low, high, reserved⟩ := places d mem
  refine ⟨low, high, fun code => ?_⟩
  obtain ⟨t, mem, range, word, between, other⟩ := reserved code
  exact ⟨t, mem, range, word, between, fun holds => other (le t holds)⟩

theorem quiet (spans : ∀ t, M t → a.Spans b t) (same : b.diagnostics = a.diagnostics) :
    a.Follows M b :=
  ⟨⟨[], by simpa using same, by simp, by simp⟩, spans, fun _ mem => .inl (same ▸ mem)⟩

theorem one (spans : ∀ t, M t → a.Spans b t) (added : b.diagnostics = a.diagnostics ++ [d])
    (report : a.Reports M b d) (tells : a.Tells d) : a.Follows M b :=
  ⟨⟨[d], added, by simp, by simpa using report⟩, spans, by simp +contextual [added, or_imp, tells]⟩

/-- A late report, at a start that has been passed. -/
theorem late (h : a.Follows M b) (late : (Diagnostic.of p r).Late) (passed : r.start ≤ b.place)
    (tells : a.Tells (.of p r)) : a.Follows M (b.report p r) := by
  obtain ⟨⟨new, added, turn, places⟩, spans, told⟩ := h
  have other : (Diagnostic.of p r).code ≠ 1060 := by
    rcases late with code | code <;> simp [code]
  refine ⟨⟨new ++ [.of p r], ?_, ?_, ?_⟩, spans, fun d mem => ?_⟩
  · rw [State.report, added, List.append_assoc]
  · refine List.pairwise_append.mpr ⟨turn, List.pairwise_singleton _ _, fun d _ d' mem => ?_⟩
    rw [List.mem_singleton.mp mem]
    exact ⟨.inr late, fun _ code => absurd code other⟩
  · refine List.forall_mem_append.mpr ⟨places, List.forall_mem_singleton.mpr ?_⟩
    exact ⟨.inl late, passed, fun code => absurd code other⟩
  · rcases List.mem_append.mp mem with mem | mem
    · exact told d mem
    · exact .inr (List.mem_singleton.mp mem ▸ tells)

theorem trans (first : a.Follows M b) (second : b.Follows N c) (sound : a.Sound)
    (ab : a.Leads b) (bc : b.Leads c) : a.Follows (fun t => M t ∨ N t) c := by
  have le := sound.place_le ab
  have le' := (sound.advance ab).place_le bc
  obtain ⟨⟨new, added, turn, places⟩, spans, tells⟩ := first
  obtain ⟨⟨new', added', turn', places'⟩, spans', tells'⟩ := second
  have widen (t : Token) (between : a.Spans b t) : a.Spans c t :=
    ⟨between.1, between.2.1, le_trans between.2.2 le'⟩
  have widen' (t : Token) (between : b.Spans c t) : a.Spans c t :=
    ⟨le_trans le between.1, between.2⟩
  -- a token cannot be on both sides of a place
  have apart (t : Token) (early : a.Spans b t) (late : b.Spans c t) : False :=
    not_le_of_gt (lt_of_lt_of_le early.2.1 early.2.2) late.1
  refine ⟨⟨new ++ new', by rw [added', added, List.append_assoc], ?_, fun d mem => ?_⟩, ?_,
    fun d mem => ?_⟩
  · refine List.pairwise_append.mpr ⟨turn, turn', fun d mem d' mem' => ?_⟩
    obtain ⟨-, high, reserved⟩ := places d mem
    obtain ⟨low', -, reserved'⟩ := places' d' mem'
    refine ⟨low'.symm.imp_left (le_trans high), fun code code' => ?_⟩
    obtain ⟨t, -, range, -, between, -⟩ := reserved code
    obtain ⟨t', -, range', -, between', -⟩ := reserved' code'
    rw [range, range']
    exact le_trans between.2.2 between'.1
  · rcases List.mem_append.mp mem with mem | mem
    · obtain ⟨low, high, reserved⟩ := places d mem
      refine ⟨low, le_trans high le', fun code => ?_⟩
      obtain ⟨t, mem, range, word, between, other⟩ := reserved code
      refine ⟨t, mem, range, word, widen t between, fun member => ?_⟩
      exact member.elim other fun later => apart t between (spans' t later)
    · obtain ⟨low, high, reserved⟩ := places' d mem
      refine ⟨low.imp_right (le_trans le), high, fun code => ?_⟩
      obtain ⟨t, mem, range, word, between, other⟩ := reserved code
      refine ⟨t, ab.suffix.subset mem, range, word, widen' t between, fun member => ?_⟩
      exact member.elim (fun early => apart t (spans t early) between) other
  · exact fun t member => member.elim (fun early => widen t (spans t early)) fun late =>
      widen' t (spans' t late)
  · exact (tells' d mem).elim (tells d) fun late => .inr (late.of_leads ab)

end Follows
end State

/-- What the rounds of a loop do, from a state on. -/
inductive LoopMembers (round : σ → State → Option (Round σ α) × State)
    (members : σ → State → Token → Prop) : σ → State → Token → Prop where
  | now {x : σ} {s : State} {t : Token} : members x s t → LoopMembers round members x s t
  | later {x y : σ} {s s' : State} {t : Token} : round x s = (some (.again y), s') →
      s'.rest.size < s.rest.size → LoopMembers round members y s' t →
      LoopMembers round members x s t

/- The tokens that are taken as the name of a member or as a key, from a state on. Those of a
statement that is dropped are among them, though no tree tells of them. -/
def members : {α : Type} → Parser α → State → Token → Prop
  | _, .member, s, t => t = s.token
  | _, .andThen p f, s, t =>
    p.members s t ∨ ∃ a s', p.run s = (some a, s') ∧ (f a).members s' t
  | _, .attemptPast p, s, t => p.members s t
  | _, .withCleanup p cleanup, s, t =>
    p.members s t ∨ (p.run s).1 = none ∧ cleanup.members (p.run s).2 t
  | _, .spanned _ p, s, t => p.members s t
  | _, .loop round x, s, t =>
    LoopMembers (fun y => (round y).run) (fun y => (round y).members) x s t
  | _, .nested p, s, t => s.nesting < maxNesting ∧ p.members (s.atNesting (s.nesting + 1)) t
  | _, .inFunction p, s, t => p.members (s.atFunctions (s.functions + 1)) t
  | _, .droppable p, s, t => p.members (s.withDiscard false) t
  | _, _, _, _ => False

def Memberless (p : Parser α) : Prop := ∀ s t, ¬ p.members s t

theorem Memberless.bind {p : Parser α} {f : α → Parser β} (first : Memberless p)
    (second : ∀ a, Memberless (f a)) : Memberless (p >>= f) := by
  rintro s t (member | ⟨a, s', -, member⟩)
  · exact first s t member
  · exact second a s' t member

theorem members_of_bind {p : Parser α} {f : α → Parser β} (rest : ∀ a, Memberless (f a)) {s : State}
    {t : Token} (member : (p >>= f).members s t) : p.members s t := by
  obtain early | ⟨a, s', -, late⟩ := member
  · exact early
  · exact absurd late (rest a s' t)

/-- From `s` on, what `p` reports comes in turn, and a result of `p` is in `post` with the state
that `p` stops in. -/
def Orderly (s : State) (p : Parser α) (post : α → State → Prop) : Prop :=
  s.Sound → s.Follows (p.members s) (p.run s).2 ∧ ∀ a s', p.run s = (some a, s') → post a s'

namespace Orderly

variable {s : State} {p : Parser α} {f : α → Parser β} {post post' : α → State → Prop}
  {last : β → State → Prop}

theorem weaken (h : Orderly s p post) (le : ∀ a s', post a s' → post' a s') : Orderly s p post' :=
  fun sound => (h sound).imp_right fun result a s' run => le a s' (result a s' run)

theorem any (h : Orderly s p post) : Orderly s p fun _ _ => True := h.weaken fun _ _ _ => trivial

theorem start (h : Laid s [] s → Orderly s p post) : Orderly s p post :=
  fun sound => h (.nil sound (State.Advances.refl s).leads) sound

theorem of_quiet (none : ∀ t, ¬ p.members s t) (quiet : (p.run s).2.diagnostics = s.diagnostics)
    (result : ∀ a s', p.run s = (some a, s') → post a s') : Orderly s p post :=
  fun _ => ⟨.quiet (fun t member => absurd member (none t)) quiet, result⟩

theorem of_one (none : ∀ t, ¬ p.members s t)
    (reports : s.Sound → (p.run s).2.diagnostics = s.diagnostics ∨ ∃ q : Problem,
      s.Reports (fun _ => False) (p.run s).2 (.of q s.range) ∧
        (q.arguments = [] ∨ q.Quotes s.token) ∧
        (p.run s).2.diagnostics = s.diagnostics ++ [.of q s.range])
    (result : ∀ a s', p.run s = (some a, s') → post a s') : Orderly s p post := by
  refine fun sound => ⟨State.Follows.mono (M := fun _ => False) ?_ none, result⟩
  rcases reports sound with quiet | ⟨q, report, quotes, one⟩
  · exact .quiet (fun _ => False.elim) quiet
  · exact .one (fun _ => False.elim) one report (State.tells_here quotes)

theorem of_here {q : Problem} (none : ∀ t, ¬ p.members s t)
    (quotes : q.arguments = [] ∨ q.Quotes s.token) (other : (q.notice.code == 1060) = false)
    (one : (p.run s).2.diagnostics = s.diagnostics ++ [.of q s.range])
    (result : ∀ a s', p.run s = (some a, s') → post a s') : Orderly s p post :=
  .of_one none (fun sound =>
    .inr ⟨q, sound.reports_here (p.advances s).leads other, quotes, one⟩) result

theorem pure {a : α} (h : post a s) : Orderly s (pure a) post :=
  .of_quiet (fun _ => id) rfl fun a' s' run => by
    cases run
    exact h

theorem done {a : α} : Orderly s (Pure.pure a) fun _ _ => True := .pure trivial

/- What comes after `p` may still look back to where it has started. -/
theorem bind_after (first : Orderly s p post)
    (second : ∀ a s', s.Sound → s.Leads s' → post a s' → s.Follows (p.members s) s' →
      s.Follows (fun t => p.members s t ∨ (f a).members s' t) ((f a).run s').2 ∧
        ∀ b s'', (f a).run s' = (some b, s'') → last b s'') : Orderly s (p >>= f) last := by
  intro sound
  have leads := (p.advances s).leads
  obtain ⟨follows, result⟩ := first sound
  have members (t : Token) (member : (p >>= f).members s t) : p.members s t ∨
      ∃ a s', p.run s = (some a, s') ∧ (f a).members s' t := member
  rw [run_bind]
  cases eq : p.run s with
  | mk r s' =>
    rw [eq] at leads follows
    cases r with
    | none =>
      refine ⟨follows.mono fun t member => (members t member).resolve_right ?_, by simp⟩
      rintro ⟨a, s', run, -⟩
      simp [eq] at run
    | some a =>
      obtain ⟨follows', result'⟩ := second a s' sound leads (result a s' eq) follows
      refine ⟨follows'.mono fun t member => (members t member).imp_right ?_, result'⟩
      rintro ⟨a', s'', run, member⟩
      obtain ⟨rfl, rfl⟩ : a = a' ∧ s' = s'' := by simpa [eq] using run
      exact member

theorem bind (first : Orderly s p post)
    (second : ∀ a s', s.Leads s' → post a s' → Orderly s' (f a) last) :
    Orderly s (p >>= f) last :=
  first.bind_after fun a s' sound leads at_ follows =>
    (second a s' leads at_ (sound.advance leads)).imp_left fun follows' =>
      follows.trans follows' sound leads ((f a).advances s').leads

theorem then_ (first : Orderly s p post) (second : ∀ a s', Orderly s' (f a) last) :
    Orderly s (p >>= f) last :=
  first.bind fun a s' _ _ => second a s'

theorem map {g : α → β} (h : Orderly s p fun a s' => last (g a) s') : Orderly s (g <$> p) last :=
  h.bind fun _ _ _ result => .pure result

theorem map_bind {γ : Type} {g : γ → α} {q : Parser γ}
    (h : Orderly s (q >>= fun c => f (g c)) last) : Orderly s (g <$> q >>= f) last := by
  intro sound
  have same : (g <$> q >>= f).run s = (q >>= fun c => f (g c)).run s := by
    change ((q >>= fun c => Pure.pure (g c)) >>= f).run s = _
    rw [run_bind, run_bind, run_bind]
    cases q.run s with
    | mk r s' => cases r <;> rfl
  rw [same]
  refine (h sound).imp_left fun follows => follows.mono ?_
  rintro t ((early | ⟨c, s', -, ⟨⟩⟩) | ⟨a, s'', run, late⟩)
  · exact .inl early
  · obtain ⟨c, s', head, tail⟩ := run_bind_eq_some.mp run
    cases tail
    exact .inr ⟨c, _, head, late⟩

theorem inspecting {F : State → α} {framed impartial} (h : Orderly s (f (F s)) last) :
    Orderly s (inspect F framed impartial >>= f) last := by
  refine fun sound => (h sound).imp_left fun follows => follows.mono ?_
  rintro t (⟨⟨⟩⟩ | ⟨a, s', run, member⟩)
  cases run
  exact member

theorem pure_bind {a : α} (h : Orderly s (f a) last) : Orderly s (Pure.pure a >>= f) last :=
  inspecting h

theorem take {n : Nat} : Orderly s (take n) fun _ s' => s' = s.drop n :=
  .of_quiet (fun _ => id) rfl fun _ _ run => by
    cases run
    rfl

theorem advance : Orderly s advance fun _ _ => True := take.any

theorem advancing {f : Unit → Parser β} (rest : Orderly (s.drop 1) (f ()) last) :
    Orderly s (Parser.advance >>= f) last :=
  take.bind fun _ _ _ at_ => at_ ▸ rest

/- The next token may be looked at before or after the current one is taken. -/
theorem advancing_kind {f : Kind → Parser β}
    (h : Orderly s (Parser.advance >>= fun _ => f (s.drop 1).kind) last) :
    Orderly s (Parser.advance >>= fun _ => Parser.kind >>= f) last := by
  refine fun sound => (h sound).imp_left fun follows => follows.mono ?_
  rintro t (⟨⟨⟩⟩ | ⟨a, s', run, (⟨⟨⟩⟩ | ⟨k, s'', run', member⟩)⟩)
  cases run
  cases run'
  exact .inr ⟨(), _, rfl, member⟩

theorem skipWhile {skips : Kind → Bool} : Orderly s (skipWhile skips) fun _ _ => True :=
  .of_quiet (fun _ => id) rfl fun _ _ _ => trivial

theorem bind_late {q : α → Problem} {r : α → Range} {tells : α → Bool} (first : Orderly s p post)
    (late : ∀ a, (Diagnostic.of (q a) (r a)).Late)
    (told : ∀ a s', post a s' → (r a).start ≤ s'.place ∧ s.Tells (.of (q a) (r a)))
    (second : ∀ a s' s'', post a s' → s'.Leads s'' → Orderly s'' (f a) last) :
    Orderly s (p >>= fun a => if tells a then Parser.report (q a) (r a) >>= fun _ => f a else f a)
      last := by
  refine first.bind_after fun a s' sound leads at_ follows => ?_
  have rest {s'' : State} (onward : s'.Leads s'') (follows : s.Follows (p.members s) s'') :=
    (second a s' s'' at_ onward (sound.advance (leads.trans onward))).imp_left fun follows' =>
      follows.trans follows' sound (leads.trans onward) ((f a).advances s'').leads
  split
  · have told := told a s' at_
    have onward := (State.Advances.report s' (q a) (r a)).leads
    refine (rest onward (follows.late (late a) told.1 told.2)).imp_left fun follows =>
      follows.mono fun t member => member.imp_right ?_
    rintro (⟨⟨⟩⟩ | ⟨_, _, run, member⟩)
    cases run
    exact member
  · exact rest (State.Advances.refl s').leads follows

theorem member (open_ : s.kind ≠ .endOfFile) :
    Orderly s member fun t s' => t = s.token ∧ Laid s [.word s.range] s' := by
  refine fun sound => ⟨.quiet (fun t at_ => ?_) rfl, fun t s' run => ?_⟩
  · obtain rfl : t = s.token := at_
    exact sound.spans_token open_
  · cases run
    exact ⟨rfl, .word sound (State.Advances.drop 1 s).leads open_ rfl⟩

section

variable {problem : String → Problem} {e : ∀ found, (problem found).notice.severity = .error}
  (quotes : (problem s.found).arguments = [] ∨ (problem s.found).Quotes s.token)
  (other : ((problem s.found).notice.code == 1060) = false)
include quotes other

theorem reportHere : Orderly s (reportHere problem) fun _ _ => True :=
  .of_here (fun _ => id) quotes other rfl fun _ _ _ => trivial

theorem refuse : Orderly s (refuse problem e : Parser α) post :=
  .of_here (fun _ => id) quotes other rfl fun _ _ run => by cases run

theorem refusePast : Orderly s (refusePast problem e : Parser α) post :=
  .of_here (fun _ => id) quotes other rfl fun _ _ run => by cases run

end

theorem accept {k : Kind} : Orderly s (accept k) fun _ _ => True := by
  refine .inspecting ?_
  split
  · exact .advancing .done
  · exact .done

theorem expect {k : Kind} (other : k ≠ .endOfFile) :
    Orderly s (expect k) fun _ s' => Laid s [.word s.range] s' := by
  have taken : Orderly s (Parser.accept k) fun found s' => found = true →
      Laid s [.word s.range] s' := by
    refine .start fun acc => .inspecting ?_
    split
    · rename_i at_
      have open_ : s.kind ≠ .endOfFile := of_decide_eq_true at_ ▸ other
      exact .advancing (.pure fun _ => .word acc.sound (State.Advances.drop 1 s).leads open_ rfl)
    · exact .pure nofun
  refine taken.bind fun found s' _ laid => ?_
  cases found with
  | true => exact .pure (laid rfl)
  | false => exact .refuse (e := fun _ => Severity.eq_error rfl) (.inr ⟨.inr ⟨k, rfl⟩, rfl⟩) rfl

theorem spanned {first : Range} {p : Parser (Range → α)}
    (h : Orderly s p fun make s' => post (make (s.spanTo first s')) s') :
    Orderly s (spanned first p) post := by
  intro sound
  obtain ⟨follows, result⟩ := h sound
  cases eq : p.run s with
  | mk r s' =>
    rw [eq] at follows
    cases r with
    | none =>
      have run : (Parser.spanned first p).run s = (none, s') := by simp [run_spanned, eq]
      rw [run]
      exact ⟨follows, by simp⟩
    | some make =>
      have run : (Parser.spanned first p).run s = (some (make (s.spanTo first s')), s') := by
        simp [run_spanned, eq, State.spanTo]
      rw [run]
      refine ⟨follows, fun a s'' same => ?_⟩
      cases same
      exact result make s' eq

theorem ranged {p : Parser (Range → α)}
    (h : Orderly s p fun make s' => post (make (s.spanTo s.range s')) s') :
    Orderly s (ranged p) post := .inspecting (.spanned h)

theorem tooDeep : Orderly s (tooDeep : Parser α) post := .refuse (.inl rfl) rfl

theorem nested (h : Orderly (s.atNesting (s.nesting + 1)) p fun a s' =>
    post a (s'.atNesting (s'.nesting - 1))) : Orderly s (nested p) post := by
  intro sound
  by_cases deep : maxNesting ≤ s.nesting
  · have refused : Orderly s (Parser.tooDeep : Parser α) post := tooDeep
    obtain ⟨follows, result⟩ := refused sound
    simp only [run_nested, if_pos deep]
    exact ⟨follows.mono fun t member => absurd member.1 (Nat.not_lt.mpr deep), result⟩
  · obtain ⟨follows, result⟩ := h ⟨sound.ordered, sound.inside⟩
    simp only [run_nested, if_neg deep]
    refine ⟨State.Follows.mono (a := s) follows fun t member => member.2, fun a s' run => ?_⟩
    obtain ⟨same, rfl⟩ := Prod.mk.inj run
    exact result a _ (Prod.ext same rfl)

theorem inFunction (h : Orderly (s.atFunctions (s.functions + 1)) p fun a s' =>
    post a (s'.atFunctions (s'.functions - 1))) : Orderly s (inFunction p) post := by
  intro sound
  obtain ⟨follows, result⟩ := h ⟨sound.ordered, sound.inside⟩
  refine ⟨follows, fun a s' run => ?_⟩
  obtain ⟨same, rfl⟩ := Prod.mk.inj run
  exact result a _ (Prod.ext same rfl)

theorem droppable (h : Orderly (s.withDiscard false) p fun a s' =>
    post a (s'.withDiscard s.discard)) : Orderly s (droppable p) post := by
  intro sound
  obtain ⟨follows, result⟩ := h ⟨sound.ordered, sound.inside⟩
  refine ⟨follows, fun a s' run => ?_⟩
  obtain ⟨same, rfl⟩ := Prod.mk.inj run
  split at same
  · cases same
  · exact result a _ (Prod.ext same rfl)

theorem attemptPast {view : α → List Part} (h : Orderly s p fun a s' => Laid s (view a) s') :
    Orderly s (attemptPast p) fun r s' => Laid s (r.elim [] view) s' := by
  intro sound
  obtain ⟨follows, result⟩ := h sound
  have leads := (p.advances s).leads
  cases eq : p.run s with
  | mk r s' =>
    rw [eq] at follows leads
    cases r with
    | some a =>
      have run : (Parser.attemptPast p).run s = (some (some a), s') := by
        simp [run_attemptPast, eq]
      rw [run]
      refine ⟨follows, fun b s'' same => ?_⟩
      cases same
      exact result a s' eq
    | none =>
      have onward := ((Parser.attemptPast p).advances s).leads
      refine ⟨?_, fun b s'' run => ?_⟩
      · simp only [run_attemptPast, eq]
        split
        · have onward := (State.Advances.drop 1 s').leads
          have stays : s'.Follows (fun _ => False) (s'.drop 1) := .quiet (fun _ => False.elim) rfl
          exact (follows.trans stays sound leads onward).mono fun t member => .inl member
        · exact follows
      · rw [run] at onward
        simp only [run_attemptPast, eq, Prod.mk.injEq, Option.some.injEq] at run
        obtain ⟨rfl, -⟩ := run
        exact .nil sound onward

theorem withCleanup {cleanup : Parser Unit} (h : Orderly s p post)
    (cleans : ∀ s, Orderly s cleanup fun _ _ => True) : Orderly s (withCleanup p cleanup) post := by
  intro sound
  obtain ⟨follows, result⟩ := h sound
  have leads := (p.advances s).leads
  have members (t : Token) (member : (Parser.withCleanup p cleanup).members s t) :
      p.members s t ∨ (p.run s).1 = none ∧ cleanup.members (p.run s).2 t := member
  cases eq : p.run s with
  | mk r s' =>
    rw [eq] at follows leads members
    cases r with
    | some a =>
      have run : (Parser.withCleanup p cleanup).run s = (some a, s') := by
        simp [run_withCleanup, eq]
      rw [run]
      refine ⟨follows.mono fun t member => (members t member).resolve_right (by simp), fun b s'' run => ?_⟩
      exact result b s'' (eq.trans run)
    | none =>
      have run : (Parser.withCleanup p cleanup).run s = (none, (cleanup.run s').2) := by
        simp [run_withCleanup, eq]
      obtain ⟨follows', -⟩ := cleans s' (sound.advance leads)
      rw [run]
      refine ⟨(follows.trans follows' sound leads (cleanup.advances s').leads).mono fun t member =>
        (members t member).imp_right And.right, by simp⟩

def afterRound (next : σ → State → Prop) (post : α → State → Prop) : Round σ α → State → Prop
  | .again x => next x
  | .done a => post a

theorem members_loop {round : σ → Parser (Round σ α)} {x : σ} {t : Token}
    (h : (Parser.loop round x).members s t) : (round x).members s t ∨ ∃ y s',
      (round x).run s = (some (.again y), s') ∧ s'.rest.size < s.rest.size ∧
        (Parser.loop round y).members s' t := by
  cases h with
  | now member => exact .inl member
  | later run less member => exact .inr ⟨_, _, run, less, member⟩

/- Induction on the rounds: each starts where the one before it has stopped. -/
theorem loop {round : σ → Parser (Round σ α)} {I : σ → State → Prop}
    (step : ∀ x s, I x s → Orderly s (round x) (afterRound I post)) {x : σ} (h : I x s) :
    Orderly s (loop round x) post := by
  intro sound
  induction x, s using loop_induction round with
  | again x s y s' eq less ih =>
    obtain ⟨follows, result⟩ := step x s h sound
    have leads := ((round x).advances s).leads
    rw [eq] at follows leads
    obtain ⟨follows', result'⟩ := ih (result _ _ eq) (sound.advance leads)
    rw [run_loop_again eq less]
    refine ⟨(follows.trans follows' sound leads ((Parser.loop round y).advances s').leads).mono
      fun t member => (members_loop member).imp_right ?_, result'⟩
    rintro ⟨y', s'', run, -, member⟩
    obtain ⟨rfl, rfl⟩ : y = y' ∧ s' = s'' := by simpa [eq] using run
    exact member
  | stuck x s y s' eq stuck =>
    obtain ⟨follows, -⟩ := step x s h sound
    have leads := ((round x).advances s).leads
    rw [eq] at follows leads
    have refused : Orderly s' (Parser.tooDeep : Parser α) post := tooDeep
    obtain ⟨follows', result'⟩ := refused (sound.advance leads)
    rw [run_loop_stuck eq stuck]
    refine ⟨(follows.trans follows' sound leads (Parser.tooDeep.advances s').leads).mono
      fun t member => .inl ((members_loop member).resolve_right ?_), result'⟩
    rintro ⟨y', s'', run, less, -⟩
    obtain ⟨rfl, rfl⟩ : y = y' ∧ s' = s'' := by simpa [eq] using run
    exact stuck less
  | done x s a s' eq =>
    obtain ⟨follows, result⟩ := step x s h sound
    rw [eq] at follows
    rw [run_loop_done eq]
    refine ⟨follows.mono fun t member => (members_loop member).resolve_right ?_,
      fun a' s'' same => ?_⟩
    · rintro ⟨y', s'', run, -⟩
      simp [eq] at run
    · cases same
      exact result _ _ eq
  | failed x s s' eq =>
    obtain ⟨follows, -⟩ := step x s h sound
    rw [eq] at follows
    rw [run_loop_failed eq]
    refine ⟨follows.mono fun t member => (members_loop member).resolve_right ?_, by simp⟩
    rintro ⟨y', s'', run, -⟩
    simp [eq] at run

end Orderly

namespace Laid

variable {s s' : State} {parts : List Part} {p : Parser α} {f : α → Parser β}
  {view : α → List Part} {last : β → State → Prop}

theorem bind (acc : Laid s parts s') (first : Orderly s' p fun a s'' => Laid s' (view a) s'')
    (second : ∀ a s'', Laid s (parts ++ view a) s'' → Orderly s'' (f a) last) :
    Orderly s' (p >>= f) last :=
  first.bind fun a s'' _ laid => second a s'' (acc.append laid)

theorem then_ (acc : Laid s parts s') (first : Orderly s' p fun _ _ => True)
    (second : ∀ a s'', Laid s parts s'' → Orderly s'' (f a) last) : Orderly s' (p >>= f) last :=
  first.bind fun a s'' leads _ => second a s'' (acc.skip leads)

theorem advancing (acc : Laid s parts s') (open_ : s'.kind ≠ .endOfFile) {f : Unit → Parser β}
    (rest : Laid s (parts ++ [.word s'.range]) (s'.drop 1) → Orderly (s'.drop 1) (f ()) last) :
    Orderly s' (advance >>= f) last := by
  have leads := (State.Advances.drop 1 s').leads
  exact .advancing (rest (acc.append (.word (acc.sound.advance acc.leads) leads open_ rfl)))

end Laid

namespace Orderly

variable {s : State} {view : α → List Part}

theorem many {round : Parser (Option (List α))}
    (h : ∀ s, Orderly s round fun r s' => Laid s ((r.getD []).flatMap view) s') :
    Orderly s (many round) fun all s' => Laid s (all.flatMap view) s' := by
  refine .start fun acc => .loop
    (I := fun found s' => Laid s (found.reverse.flatMap view) s') (fun found s' acc => ?_) acc
  refine acc.bind (h s') fun more s'' laid => ?_
  cases more with
  | none => exact .pure (by simpa [afterRound] using laid)
  | some more => exact .pure (by simpa [afterRound] using laid)

theorem many_map {round : Parser (Option (List α))} {view : α → Node}
    (h : ∀ s, Orderly s round fun r s' => Laid s (((r.getD []).map view).map .node) s') :
    Orderly s (Parser.many round) fun all s' => Laid s ((all.map view).map .node) s' := by
  have single (all : List α) :
      (all.map view).map Part.node = all.flatMap fun a => [.node (view a)] := by
    rw [List.map_map, List.map_eq_flatMap]
    rfl
  simp only [single] at h ⊢
  exact many h

end Orderly
end Parser
end BrightScript
