import BrightScript.Proofs.Copy.Basic
import BrightScript.Proofs.Parser.Inversion

/-! Copies of the lists in an expression: arguments, elements and members. -/
namespace BrightScript

open BrightScript.Parser BrightScript.Emit

variable {c : Setting} {g : Grammar} {room : Nat} {w ws : List Word} {P : Expr → Prop}
  {key : String} {quoted : Bool} {x : Word} {done : List Expr}

structure ListSpelled (c : Setting) (level : Nat) (es : List Expr) (ws : List Word) : Prop where
  phrase : Phrase c.layout (c.text (exprsPieces c.options level es)) ws
  begins : (Word.next ws).begins = true
  final : ∀ k, (Word.last k ws).isFinal = true

namespace ListSpelled

variable {level : Nat} {e e' : Expr} {es : List Expr} {first next : Token} {ws' : List Word}

theorem single (h : Spelled c level e first next ws) : ListSpelled c level [e] ws :=
  ⟨h.phrase, h.begins, h.final⟩

theorem cons (h : Spelled c level e first next ws) (rest : ListSpelled c level (e' :: es) ws') :
    ListSpelled c level (e :: e' :: es) (ws ++ .mark .comma :: ws') where
  phrase := by
    have pieces : c.text (exprsPieces c.options level (e :: e' :: es)) =
        c.text (exprPieces c.options level e) ++
          (",".toList ++ ' ' :: c.text (exprsPieces c.options level (e' :: es))) := by
      simp [exprsPieces, Piece.render]
    rw [pieces]
    refine h.phrase.append fun k => ?_
    exact (Continues.mark .comma rfl (Kind.ne_comment_of_isFinal (h.final k))).append
      (rest.phrase.after_loose rfl)
  begins := by rw [h.phrase.next_append, h.begins]
  final k := by rw [Word.last_append]; exact rest.final _

end ListSpelled

/-- A text of which an expression is made that stops where no operator and no access follows. -/
structure Argument (c : Setting) (text : List Char) (room : Nat) (P : Expr → Prop)
    (ws : List Word) : Prop where
  phrase : Phrase c.layout text ws
  begins : (Word.next ws).begins = true
  final : ∀ k, (Word.last k ws).isFinal = true
  yields : ∀ m w, room ≤ m → (Word.next w).stops = true →
    Yields (unroll m).expression room (ws ++ w) w P

theorem Copied.argument {e : Expr} {s s' : State}
    (h : Copied c (fun m => (unroll m).expression) (deeper (e.fits c.options)) e s s') (level : Nat)
    (fits : deeper (e.fits c.options) room = true) :
    ∃ ws, Argument c (c.text (exprPieces c.options level e)) room (Echo c e) ws := by
  obtain ⟨ws, spelled, yields⟩ := h.written level room fits
  exact ⟨ws, spelled.phrase, spelled.begins, spelled.final, fun m w le stops =>
    yields m w le (.inr stops)⟩

/-- A text of arguments, up to the closing parenthesis. -/
structure Arguments (c : Setting) (text : List Char) (room : Nat) (P : List Expr → Prop)
    (ws : List Word) : Prop where
  phrase : Phrase c.layout text ws
  begins : (Word.next ws).begins = true
  final : ∀ k, (Word.last k ws).isFinal = true
  yields : ∀ m w done, room ≤ m → Word.next w = .rightParen →
    Yields (loop (argumentRound (unroll m)) done) room (ws ++ w) w
      fun all => ∃ es, all = done ++ es ∧ P es

theorem Parser.Yields.argumentRound_last (h : Yields g.expression room ws w P)
    (close : Word.next w = .rightParen) :
    Yields (argumentRound g done) room ws w fun r => ∃ all, r = .done all ∧
      ∃ e, all = done ++ [e] ∧ P e := by
  refine h.bind fun e he => (Yields.skipNewlines (by simp [close])).bind fun _ _ =>
    (Yields.accept_of_ne (by simp [close])).bind fun comma hc => ?_
  subst hc
  exact .pure ⟨_, rfl, e, rfl, he⟩

theorem Parser.Yields.argumentRound_comma (h : Yields g.expression room ws (.mark .comma :: w) P)
    (more : (Word.next w).begins = true) :
    Yields (argumentRound g done) room ws w fun r => ∃ all, r = .again all ∧
      ∃ e, all = done ++ [e] ∧ P e := by
  refine h.bind fun e he => (Yields.skipNewlines (by simp)).bind fun _ _ =>
    (Yields.accept_of_eq rfl).bind fun comma hc => ?_
  subst hc
  exact (Yields.skipNewlines (Kind.ne_of_begins more _ rfl)).bind fun _ _ =>
    .pure ⟨_, rfl, e, rfl, he⟩

namespace Arguments

variable {text text' : List Char} {Q R : List Expr → Prop} {ws' : List Word}

theorem mono (h : Arguments c text room Q ws) (weaker : ∀ es, Q es → R es) :
    Arguments c text room R ws where
  phrase := h.phrase
  begins := h.begins
  final := h.final
  yields m w done le close :=
    (h.yields m w done le close).mono fun _ ⟨es, same, holds⟩ => ⟨es, same, weaker es holds⟩

theorem single (h : Argument c text room P ws) :
    Arguments c text room (fun es => ∃ e, es = [e] ∧ P e) ws where
  phrase := h.phrase
  begins := h.begins
  final := h.final
  yields m w done le close := by
    have read := h.yields m w le (by rw [close]; rfl)
    refine (Yields.argumentRound_last read close).loop_done.mono ?_
    rintro _ ⟨e, rfl, holds⟩
    exact ⟨[e], rfl, e, rfl, holds⟩

theorem cons (h : Argument c text room P ws) (rest : Arguments c text' room Q ws') :
    Arguments c (text ++ (",".toList ++ ' ' :: text')) room
      (fun es => ∃ e es', es = e :: es' ∧ P e ∧ Q es') (ws ++ .mark .comma :: ws') where
  phrase := h.phrase.append fun k =>
    (Continues.mark .comma rfl (Kind.ne_comment_of_isFinal (h.final k))).append
      (rest.phrase.after_loose rfl)
  begins := by rw [h.phrase.next_append, h.begins]
  final k := by rw [Word.last_append]; exact rest.final _
  yields m w done le close := by
    rw [List.append_assoc, List.cons_append]
    have read := h.yields m (.mark .comma :: (ws' ++ w)) le rfl
    refine Yields.loop_again (Yields.argumentRound_comma read ?_) ?_ ?_
    · rw [rest.phrase.next_append, rest.begins]
    · simp only [List.length_append, List.length_cons]
      omega
    · rintro _ ⟨e, rfl, holds⟩
      refine (rest.yields m w _ le close).mono ?_
      rintro _ ⟨es, rfl, all⟩
      exact ⟨e :: es, by simp, e, es, rfl, holds, all⟩

theorem enclosed (h : Arguments c text room Q ws) :
    Continues c.layout .leftParen (text ++ ")".toList) (ws ++ [.mark .rightParen]) ∧
      ∀ m w, room ≤ m →
        Yields (arguments (unroll m)) room (ws ++ [.mark .rightParen] ++ w) w Q := by
  refine ⟨(h.phrase.after_mark rfl rfl).append
    (.mark .rightParen rfl (Kind.ne_comment_of_isFinal (h.final _))), fun m w le => ?_⟩
  have next : Word.next (ws ++ ([.mark .rightParen] ++ w)) = Word.next ws := h.phrase.next_append _
  rw [List.append_assoc]
  refine (Yields.skipNewlines ?_).bind fun _ _ => Yields.isAt.bind fun b hb => ?_
  · rw [next]
    exact Kind.ne_of_begins h.begins _ rfl
  have more : b = false := by
    rw [hb, next, decide_eq_false_iff_not]
    exact Kind.ne_of_begins h.begins _ rfl
  subst more
  refine (h.yields m (.mark .rightParen :: w) [] le rfl).bind fun all hall => ?_
  obtain ⟨es, rfl, holds⟩ := hall
  exact (Yields.expect rfl).bind fun _ _ => .pure (by simpa using holds)

end Arguments

/-- The arguments `es`, which the rounds of a loop read at a depth of nesting. -/
structure ArgumentsCopied (c : Setting) (es : List Expr) (depth : Nat) : Prop where
  nonempty : es ≠ []
  names : ∀ x ∈ exprsOccurrences es, IsName x.name
  fits : c.exact → exprsFit c.options es (maxNesting - depth) = true
  written : ∀ level room, exprsFit c.options es room = true →
    ∃ ws, Arguments c (c.text (exprsPieces c.options level es)) room
      (fun es' => c.exact → exprsBare es' = exprsBare es) ws

theorem argumentRound_copied (h : Recovers c g) {all : List Expr} {s s' : State}
    (run : Reads (loop (argumentRound g) done) s all s') (sound : Sound c s) :
    ∃ es, all = done ++ es ∧ ArgumentsCopied c es s.nesting := by
  revert sound
  refine Reads.loop_induction (motive := fun done s => Sound c s →
    ∃ es, all = done ++ es ∧ ArgumentsCopied c es s.nesting) ?_ ?_ run
  · intro done s round sound
    obtain ⟨e, t, read, ⟨_, again, _⟩ | ⟨_, last, _⟩⟩ := round.argumentRound_inv
    · cases again
    · cases last
      have copy := h.expression sound read
      refine ⟨[e], rfl, by simp, by simpa [exprsOccurrences] using copy.names,
        by simpa [exprsFit] using copy.fits, fun level room fits => ?_⟩
      obtain ⟨ws, argument⟩ := copy.argument level (by simpa [exprsFit] using fits)
      refine ⟨ws, (Arguments.single argument).mono ?_⟩
      rintro _ ⟨e', rfl, echo⟩ exact
      simp [exprsBare, echo.bare exact]
  · intro done s again t round _ _ ih sound
    obtain ⟨e, u, read, ⟨_, next, _⟩ | ⟨_, last, _⟩⟩ := round.argumentRound_inv
    rotate_left
    · cases last
    · cases next
      have copy := h.expression sound read
      obtain ⟨es, rfl, rest⟩ := ih (sound.reads round)
      refine ⟨e :: es, by simp, by simp, ?_, ?_, fun level room fits => ?_⟩
      · exact List.forall_mem_append.mpr ⟨copy.names, rest.names⟩
      · intro exact
        have tail := rest.fits exact
        rw [round.advances.nesting] at tail
        simp [exprsFit, copy.fits exact, tail]
      · rw [exprsFit, Bool.and_eq_true] at fits
        obtain ⟨ws, argument⟩ := copy.argument level fits.1
        obtain ⟨ws', arguments⟩ := rest.written level room fits.2
        obtain ⟨e₂, es, rfl⟩ := List.exists_cons_of_ne_nil rest.nonempty
        have text : c.text (exprsPieces c.options level (e :: e₂ :: es)) =
            c.text (exprPieces c.options level e) ++
              (",".toList ++ ' ' :: c.text (exprsPieces c.options level (e₂ :: es))) := by
          simp [exprsPieces, Piece.render]
        rw [text]
        refine ⟨_, (Arguments.cons argument arguments).mono ?_⟩
        rintro _ ⟨e', es', rfl, echo, bare⟩ exact
        rw [exprsBare, exprsBare, bare exact, echo.bare exact]

/-- A list that is read from `s`, right after the mark that opens it, up to `s'`, right after the
mark that closes it. -/
structure Enclosed (c : Setting) {α : Type} (opener closer : Kind) (pieces : Nat → List Piece)
    (need : Nat → Bool) (q : Nat → Parser α) (Same : α → Prop) (s s' : State) : Prop where
  fits : c.exact → need (maxNesting - s.nesting) = true
  joins : Joins closer s'.token
  written : ∀ level room, need room = true →
    ∃ ws, Continues c.layout opener (c.text (pieces level)) ws ∧
      ws ≠ [] ∧ (∀ k, Word.last k ws = closer) ∧
      ∀ m w, room ≤ m → Yields (q m) room (ws ++ w) w Same

theorem Sound.skipWhile {s : State} (h : Sound c s) (skips : Kind → Bool) :
    Sound c (s.skipWhile skips) := h.drop _

theorem arguments_copied (h : Recovers c g) {args : List Expr} {s s' : State}
    (run : Reads (arguments g) s args s') (sound : Sound c s) :
    (∀ x ∈ exprsOccurrences args, IsName x.name) ∧
      Enclosed c .leftParen .rightParen
        (fun level => exprsPieces c.options level args ++ [.text ")"])
        (exprsFit c.options args) (fun m => arguments (unroll m))
        (fun args' => c.exact → exprsBare args' = exprsBare args) s s' := by
  have sound' := sound.skipWhile (c := c) (· = .newline)
  have mark : ∀ k : Kind, k ≠ .comment → Continues c.layout k ")".toList [.mark .rightParen] :=
    fun k code => Continues.mark .rightParen rfl code
  obtain ⟨t, ⟨_, rfl, rfl⟩ | ⟨_, list⟩, close, rfl⟩ := run.arguments_inv
  · refine ⟨by simp [exprsOccurrences], ⟨fun _ => rfl, ?_, fun level room _ => ?_⟩⟩
    · exact sound'.joins_at close (by decide)
    · refine ⟨[.mark .rightParen], ?_, by simp, fun _ => rfl, fun m w _ => ?_⟩
      · simpa [exprsPieces, Piece.render] using mark .leftParen (by decide)
      · refine (Yields.skipNewlines (by simp)).bind fun _ _ => Yields.isAt.bind fun b hb => ?_
        subst hb
        exact (Yields.pure rfl).bind fun args hargs => (Yields.expect rfl).bind fun _ _ =>
          .pure fun _ => by rw [hargs]
  · obtain ⟨_, rfl, copy⟩ := argumentRound_copied h list sound'
    have sound'' := sound'.reads list
    refine ⟨copy.names, ⟨copy.fits, ?_, fun level room fits => ?_⟩⟩
    · exact sound''.joins_at close (by decide)
    · obtain ⟨ws, arguments⟩ := copy.written level room fits
      obtain ⟨continues, yields⟩ := arguments.enclosed
      refine ⟨ws ++ [.mark .rightParen], ?_, by simp, by simp, yields⟩
      simpa [Piece.render] using continues

structure ElementsCopied (c : Setting) (es : List Expr) (depth : Nat) : Prop where
  names : ∀ x ∈ exprsOccurrences es, IsName x.name
  fits : c.exact → exprsFit c.options es (maxNesting - depth) = true
  written : ∀ level room, exprsFit c.options es room = true →
    ∃ ws, (es = [] ∧ ws = [] ∨ es ≠ [] ∧ ListSpelled c level es ws) ∧
      ∀ m w, room ≤ m → Word.next w = .rightSquare →
        Yields (many (elementRound (unroll m))) room (ws ++ w) w
          fun es' => c.exact → exprsBare es' = exprsBare es

theorem Parser.Yields.elementRound_none (close : Word.next w = .rightSquare) :
    Yields (elementRound g) room w w (· = none) := by
  refine (Yields.skipWhile (by rw [close]; rfl)).bind fun _ _ => Yields.isAt.bind fun b hb => ?_
  obtain rfl : b = true := by simp [hb, close]
  exact .pure rfl

theorem Parser.Yields.elementRound_some {v : List Word} (h : Yields g.expression room ws v P)
    (begins : (Word.next ws).begins = true)
    (next : v = .mark .comma :: w ∨ v = w ∧ Word.next w = .rightSquare) :
    Yields (elementRound g) room ws w fun r => ∃ es, r = some es ∧ ∃ e, es = [e] ∧ P e := by
  refine (Yields.skipWhile ?_).bind fun _ _ => Yields.isAt.bind fun b hb => ?_
  · simp [Kind.ne_of_begins begins .newline rfl, Kind.ne_of_begins begins .comment rfl]
  obtain rfl : b = false := hb.trans (decide_eq_false (Kind.ne_of_begins begins _ rfl))
  refine h.bind fun e he => Yields.bind (P := fun _ => True) (v := w) ?_ fun _ _ =>
    .pure ⟨_, rfl, e, rfl, he⟩
  rcases next with rfl | ⟨rfl, close⟩
  · refine (Yields.accept_of_eq rfl).bind fun b hb => ?_
    subst hb
    exact .pure trivial
  · refine (Yields.accept_of_ne (by simp [close])).bind fun b hb => ?_
    subst hb
    refine Yields.kind.bind fun k hk => ?_
    obtain rfl : k = .rightSquare := hk.trans close
    exact .pure trivial

theorem elements_copied (h : Recovers c g) {es : List Expr} {s s' : State}
    (run : Reads (many (elementRound g)) s es s') (sound : Sound c s) :
    ElementsCopied c es s.nesting := by
  revert sound
  refine Reads.many_induction (motive := fun es s => Sound c s → ElementsCopied c es s.nesting)
    (fun s _ sound => ?_) (fun s first t more round _ _ ih sound => ?_) run
  · refine ⟨by simp [exprsOccurrences], fun _ => rfl, fun level room _ => ?_⟩
    exact ⟨[], .inl ⟨rfl, rfl⟩, fun m w _ close =>
      .many_nil (fun _ => rfl) (.elementRound_none close)⟩
  · obtain ⟨_, none, _⟩ | ⟨_, e, u, same, read, _⟩ := round.elementRound_inv
    · cases none
    cases same
    have copy := h.expression (sound.skipWhile _) read
    have rest := ih (sound.reads round)
    refine ⟨?_, ?_, fun level room fits => ?_⟩
    · exact List.forall_mem_append.mpr ⟨copy.names, rest.names⟩
    · intro exact
      have tail := rest.fits exact
      rw [round.advances.nesting] at tail
      have head := copy.fits exact
      rw [State.skipWhile, State.nesting_drop] at head
      simp [exprsFit, head, tail]
    · rw [List.singleton_append, exprsFit, Bool.and_eq_true] at fits
      obtain ⟨ws, spelled, yields⟩ := copy.written level room fits.1
      obtain ⟨ws', spelled', yields'⟩ := rest.written level room fits.2
      have longer : ∀ (found more' : List Expr), (∃ e', found = [e'] ∧ Echo c e e') →
          (c.exact → exprsBare more' = exprsBare more) →
          c.exact → exprsBare (found ++ more') = exprsBare ([e] ++ more) := by
        rintro _ more' ⟨e', rfl, echo⟩ bare exact
        simp [exprsBare, echo.bare exact, bare exact]
      have shorter := Word.length_lt_append spelled.phrase.nonempty
      rcases spelled' with ⟨rfl, rfl⟩ | ⟨nonempty, spelled'⟩
      · refine ⟨ws, .inr ⟨by simp, .single spelled⟩, fun m w le close => ?_⟩
        have first := yields m w le (.inr (by rw [close]; rfl))
        refine Yields.many_cons (Yields.elementRound_some first ?_ (.inr ⟨rfl, close⟩)) (shorter w)
          (yields' m w le close) longer
        rw [spelled.phrase.next_append, spelled.begins]
      · obtain ⟨e₂, es, rfl⟩ := List.exists_cons_of_ne_nil nonempty
        refine ⟨_, .inr ⟨by simp, .cons spelled spelled'⟩, fun m w le close => ?_⟩
        rw [List.append_assoc, List.cons_append]
        have first := yields m (.mark .comma :: (ws' ++ w)) le (.inr rfl)
        refine Yields.many_cons (Yields.elementRound_some first ?_ (.inl rfl)) ?_
          (yields' m w le close) longer
        · rw [spelled.phrase.next_append, spelled.begins]
        · have := shorter (.mark .comma :: (ws' ++ w))
          simp at this ⊢
          omega

theorem memberKey_copied {s s' : State} (run : Reads memberKey s (key, quoted) s')
    (sound : Sound c s) :
    s' = s.drop 1 ∧ s.token.word.Genuine ∧ (s.kind.isWord = true ∨ s.kind = .stringLiteral) ∧
      (if quoted then quote key else key) = s.token.text ∧
      ∀ room w, Yields memberKey room (s.token.word :: w) w (· = (key, quoted)) := by
  unfold memberKey at run
  rw [Reads.kind_bind] at run
  by_cases string : s.kind = .stringLiteral
  · have genuine := sound.genuine (s := s) (by rw [string]; decide) (by rw [string]; decide)
    obtain ⟨value, holds, text⟩ := genuine.quote string
    have holds' : s.token.value = some (.string value) := holds
    rw [if_pos string, Reads.member_bind] at run
    simp only [holds', reads_pure, Prod.mk.injEq] at run
    obtain ⟨⟨rfl, rfl⟩, rfl⟩ := run
    refine ⟨rfl, genuine, .inr string, text.symm, fun room w => ?_⟩
    refine Yields.kind.bind fun k hk => ?_
    have kind : k = .stringLiteral := hk.trans string
    rw [if_pos kind]
    refine Yields.member.bind fun t ht => ?_
    have val : t.value = some (.string value) := by rw [← Token.value_word, ht]; exact holds
    simp only [val]
    exact .pure rfl
  · rw [if_neg string] at run
    by_cases word : s.kind.isWord = true
    · have genuine := sound.genuine_word (s := s) word
      rw [if_pos word, Reads.member_bind] at run
      simp only [reads_pure, Prod.mk.injEq] at run
      obtain ⟨⟨rfl, rfl⟩, rfl⟩ := run
      refine ⟨rfl, genuine, .inl word, rfl, fun room w => ?_⟩
      refine Yields.kind.bind fun k hk => ?_
      have kind : k = s.kind := hk
      rw [kind, if_neg string, if_pos word]
      refine Yields.member.bind fun t ht => ?_
      have text : t.text = s.token.text := by rw [← Token.text_word, ht]; rfl
      exact .pure (by rw [text])
    · simp [word] at run

/-- A text of members, each on a line of its own. -/
structure Members (c : Setting) (text : List Char) (room : Nat) (P : List (Member Expr) → Prop)
    (ws : List Word) : Prop where
  starts : ws = [] ∨ ∃ tail, ws = .newline :: tail
  continues : ∀ k, Continues c.layout k text ws
  yields : ∀ m w, room ≤ m →
    Yields (many (memberRound (unroll m))) room (ws ++ .newline :: .mark .rightCurly :: w)
      (.mark .rightCurly :: w) P

theorem Parser.Yields.memberRound_none :
    Yields (memberRound g) room (.newline :: .mark .rightCurly :: w) (.mark .rightCurly :: w)
      (· = none) := by
  refine (Yields.skipWhile_cons rfl rfl).bind fun _ _ => Yields.kind.bind fun k hk => ?_
  subst hk
  exact .pure rfl

theorem Parser.Yields.comment : Yields Parser.comment room (x :: w) w (·.text = x.text) := by
  refine Yields.token.bind fun t ht => Yields.advance.bind fun _ _ => .pure ?_
  rw [← ht]
  rfl

theorem Parser.Yields.memberRound_comment (comment : x.kind = .comment) :
    Yields (memberRound g) room (.newline :: x :: w) w fun r => ∃ ms, r = some ms ∧
      ∃ range, ms = [.comment ⟨x.text, range⟩] := by
  refine (Yields.skipWhile_cons rfl (by simp [comment])).bind fun _ _ =>
    Yields.kind.bind fun k hk => ?_
  rw [Word.next_cons, comment] at hk
  subst hk
  simp only [reduceCtorEq, if_false, if_true]
  exact Yields.comment.bind fun cm hcm => .pure ⟨_, rfl, cm.range, by rw [← hcm]⟩

theorem Parser.Yields.memberRound_property (word : x.kind.isWord = true ∨ x.kind = .stringLiteral)
    (readKey : Yields memberKey room (x :: .mark .colon :: ws) (.mark .colon :: ws)
      (· = (key, quoted))) (h : Yields g.expression room ws w P) (line : Word.next w = .newline) :
    Yields (memberRound g) room (.newline :: x :: .mark .colon :: ws) w fun r => ∃ ms, r = some ms ∧
      ∃ value range, P value ∧ ms = [.property ⟨key, quoted, value, range⟩] := by
  have kinds : x.kind ≠ .newline ∧ x.kind ≠ .rightCurly ∧ x.kind ≠ .comment := by
    rcases word with word | string
    · refine ⟨?_, ?_, ?_⟩ <;> intro same <;> rw [same] at word <;> cases word
    · rw [string]
      decide
  refine (Yields.skipWhile_cons rfl (by simp [kinds.1])).bind fun _ _ =>
    Yields.kind.bind fun k hk => ?_
  rw [Word.next_cons] at hk
  subst hk
  simp only [kinds.2.1, kinds.2.2, if_false]
  refine Yields.here.bind fun start _ => readKey.bind fun pair hp => ?_
  subst hp
  refine (Yields.expect rfl).bind fun _ _ => h.bind fun value hv =>
    Yields.bind (P := fun _ => True) (v := w) ?_ fun _ _ => .pure ⟨_, rfl, value, _, hv, rfl⟩
  refine (Yields.accept_of_ne (by simp [line])).bind fun b hb => ?_
  subst hb
  refine Yields.kind.bind fun k hk => ?_
  obtain rfl : k = .newline := hk.trans line
  exact .pure trivial

namespace Members

variable {text text' : List Char} {Q : List (Member Expr) → Prop} {ws' : List Word}

theorem nil (holds : Q []) : Members c [] room Q [] :=
  ⟨.inl rfl, fun _ => .nil, fun _ _ _ => .many_nil holds .memberRound_none⟩

theorem next_eq (h : Members c text room Q ws) (w : List Word) :
    Word.next (ws ++ .newline :: w) = .newline := by
  rcases h.starts with rfl | ⟨tail, rfl⟩ <;> rfl

theorem property (level : Nat) (genuine : x.Genuine)
    (kind : x.kind.isWord = true ∨ x.kind = .stringLiteral)
    (readKey : ∀ room w, Yields memberKey room (x :: w) w (· = (key, quoted)))
    (value : Argument c text room P ws) (rest : Members c text' room Q ws') :
    Members c (((Piece.line level).render c.layout).toList ++
        (x.text.toList ++ (":".toList ++ (' ' :: text ++ text')))) room
      (fun ms => ∃ e range more, ms = .property ⟨key, quoted, e, range⟩ :: more ∧ P e ∧ Q more)
      (.newline :: x :: .mark .colon :: (ws ++ ws')) where
  starts := .inr ⟨_, rfl⟩
  continues k := (Continues.line c.plain level).append
    (((Phrase.word genuine).after_mark rfl rfl).append
      ((Continues.mark .colon rfl genuine.code).append
        ((value.phrase.after_loose rfl).append (rest.continues _))))
  yields m w le := by
    have next := rest.next_eq (.mark .rightCurly :: w)
    have first := value.yields m (ws' ++ .newline :: .mark .rightCurly :: w) le (by rw [next]; rfl)
    simp only [List.cons_append, List.append_assoc]
    refine Yields.many_cons (Yields.memberRound_property kind (readKey room _) first next) ?_
      (rest.yields m w le) ?_
    · simp only [List.length_append, List.length_cons]
      omega
    · rintro _ ms ⟨e, range, holds, rfl⟩ all
      exact ⟨e, range, ms, rfl, holds, all⟩

end Members

/-- The members `ms`, which are read at a depth of nesting. -/
structure MembersCopied (c : Setting) (ms : List (Member Expr)) (depth : Nat) : Prop where
  names : ∀ x ∈ membersOccurrences ms, IsName x.name
  fits : c.exact → membersFit c.options ms (maxNesting - depth) = true
  written : ∀ level room, membersFit c.options ms room = true →
    ∃ ws, Members c (c.text (membersPieces c.options level ms)) room
      (fun ms' => c.exact → membersBare ms' = membersBare ms) ws

namespace MembersCopied

variable {ms : List (Member Expr)} {s : State}

theorem nil (c : Setting) (depth : Nat) : MembersCopied c [] depth where
  names := by simp [membersOccurrences]
  fits _ := rfl
  written _ _ _ := ⟨[], .nil fun _ => rfl⟩

theorem comment (h : MembersCopied c ms s.nesting) (sound : Sound c s)
    (comment : s.kind = .comment) (range : Range) :
    MembersCopied c (.comment ⟨s.token.text, range⟩ :: ms) s.nesting where
  names := by simpa [membersOccurrences] using h.names
  fits exact := by simpa [membersFit] using h.fits exact
  written level room fits := by
    obtain ⟨isComment, ret, kept⟩ := sound.comment comment
    obtain ⟨ws, rest⟩ := h.written level room (by simpa [membersFit] using fits)
    refine ⟨.newline :: .comment s.token.text.toList :: ws, .inr ⟨_, rfl⟩, fun k => ?_,
      fun m w le => ?_⟩
    · have text : c.text (membersPieces c.options level (.comment ⟨s.token.text, range⟩ :: ms)) =
          ((Piece.line level).render c.layout).toList ++ (s.token.text.toList ++
            c.text (membersPieces c.options level ms)) := by
        simp [membersPieces, commentPieces_line level isComment.line, Piece.render]
      rw [text]
      exact (Continues.line c.plain level).append
        (((Phrase.comment c.plain isComment ret).after_mark rfl rfl).append (rest.continues _))
    · refine Yields.many_cons (Yields.memberRound_comment rfl) ?_ (rest.yields m w le) ?_
      · simp only [List.append_eq, List.length_append, List.length_cons]
        omega
      · rintro _ ms' ⟨range', rfl⟩ bare exact
        simp [membersBare, Comment.bare, kept exact, bare exact]

theorem property {value : Expr} {range : Range} {u v : State} (h : MembersCopied c ms s.nesting)
    (sound : Sound c s) (readKey : Reads memberKey s (key, quoted) u)
    (copy : Copied c (fun m => (unroll m).expression) (deeper (value.fits c.options)) value
      (s.drop 2) v) : MembersCopied c (.property ⟨key, quoted, value, range⟩ :: ms) s.nesting := by
  obtain ⟨rfl, genuine, kind, keyText, yieldsKey⟩ := memberKey_copied readKey sound
  refine ⟨?_, ?_, fun level room fits => ?_⟩
  · exact List.forall_mem_append.mpr ⟨copy.names, h.names⟩
  · intro exact
    have head := copy.fits exact
    simp only [State.nesting_drop] at head
    simp [membersFit, head, h.fits exact]
  · rw [membersFit, Bool.and_eq_true] at fits
    obtain ⟨ws, argument⟩ := copy.argument level fits.1
    obtain ⟨ws', rest⟩ := h.written level room fits.2
    have all := rest.property level genuine kind yieldsKey argument
    have text : c.text (membersPieces c.options level (.property ⟨key, quoted, value, range⟩ :: ms))
        = ((Piece.line level).render c.layout).toList ++ (s.token.word.text.toList ++
          (":".toList ++ (' ' :: c.text (exprPieces c.options level value) ++
            c.text (membersPieces c.options level ms)))) := by
      rw [Token.text_word, ← keyText]
      simp [membersPieces, Piece.render]
    refine ⟨_, all.starts, text ▸ all.continues, fun m w le => (all.yields m w le).mono ?_⟩
    rintro _ ⟨value', range', ms', rfl, echo, bare⟩ exact
    simp [membersBare, echo.bare exact, bare exact]

end MembersCopied

theorem members_copied (h : Recovers c g) {ms : List (Member Expr)} {s s' : State}
    (run : Reads (many (memberRound g)) s ms s') (sound : Sound c s) :
    MembersCopied c ms s.nesting := by
  revert sound
  refine Reads.many_induction (motive := fun ms s => Sound c s → MembersCopied c ms s.nesting)
    (fun s _ _ => .nil c s.nesting) (fun s first t more round _ _ ih sound => ?_) run
  have rest : MembersCopied c more (s.skipWhile (· = .newline)).nesting :=
    round.advances.nesting ▸ ih (sound.reads round)
  have sound := sound.skipWhile (· = .newline)
  rcases round.memberRound_inv with ⟨_, none, _⟩ | ⟨comment, same, _⟩ |
    ⟨_, _, key, quoted, value, range, u, same, readKey, _, read, _⟩
  · cases none
  · cases same
    exact MembersCopied.comment rest sound comment _
  · cases same
    exact MembersCopied.property (s := s.skipWhile _) rest sound readKey
      (h.expression (sound.drop 2) read)

end BrightScript
