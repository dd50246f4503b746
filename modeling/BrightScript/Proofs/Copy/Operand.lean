import BrightScript.Proofs.Copy.Function

/-! Copies of operands: primaries with calls, members and indexes after them. -/
namespace BrightScript

open BrightScript.Parser BrightScript.Emit

variable {c : Setting} {g : Grammar} {e : Expr} {room : Nat} {w : List Word} {s : State} {x : Word}
  {k : Kind} {range : Range}

theorem word_copied (sound : Sound c s) (kind : s.kind = .identifier ∨ s.kind.isLiteral = true)
    (pieces : ∀ level, exprPieces c.options level e = [.text s.token.text])
    (plain : e.isConditional = false) (simple : e.isAccess = false)
    (point : s.token.word.isPoint = true → e.startsWithPoint = true)
    (names : ∀ x ∈ e.occurrences, IsName x.name) (fits : ∀ room, e.fits c.options room = true)
    (yields : ∀ m room w, Yields (primary (unroll m)) room (s.token.word :: w) w (Echo c e)) :
    Copied c (fun m => primary (unroll m)) (e.fits c.options) e s (s.drop 1) where
  names := names
  fits _ := fits _
  written level room _ := by
    have kinds : s.kind ≠ .endOfFile ∧ s.kind ≠ .comment ∧ s.kind.begins = true ∧
        s.kind.isFinal = true := by
      rcases kind with kind | kind
      · rw [kind]
        decide
      · revert kind
        cases s.kind <;> decide
    obtain ⟨file, comment, begins, final⟩ := kinds
    refine ⟨[s.token.word], .of_word (sound.genuine file comment) (.inl ⟨rfl, id⟩)
      ?_ .nil begins (fun _ => ⟨rfl, by decide⟩) final (fun _ => sound.joins file) ?_ point
      simple, ?_⟩
    · rw [pieces]
      simp [Piece.render]
    · intro isConditional
      rw [plain] at isConditional
      cases isConditional
    · intro m w _ _
      exact yields m room w

theorem Parser.Yields.primary {q : Parser Expr} {ws : List Word} {P : Expr → Prop}
    (h : Yields q room (x :: ws) w P)
    (dispatch : (x.kind = .leftParen ∧ q = grouping g) ∨ (x.kind = .leftSquare ∧ q = arrayLiteral g) ∨
      (x.kind = .leftCurly ∧ q = assocLiteral g) ∨
      ((x.kind = .function ∨ x.kind = .sub) ∧ q = anonymousFunction g)) :
    Yields (primary g) room (x :: ws) w P := by
  refine Yields.token.bind fun t ht => ?_
  have kind : t.kind = x.kind := by rw [← ht]; rfl
  rw [kind]
  rcases dispatch with ⟨kind, rfl⟩ | ⟨kind, rfl⟩ | ⟨kind, rfl⟩ | ⟨kind | kind, rfl⟩ <;> rw [kind] <;>
    exact h

theorem Spelled.enclosed {level : Nat} {first next : Token} {opener closer : Kind}
    {more : List Char} {ws : List Word} (kind : first.kind = opener)
    (marks : (opener.isFixed && opener.begins && closer.isFinal) = true)
    (text : c.text (exprPieces c.options level e) = opener.label.toList ++ more)
    (tail : Continues c.layout opener more ws)
    (inner : opener.isWord = true → (Word.next ws).isAssignment = false ∧ Word.next ws ≠ .colon)
    (last : Word.last opener ws = closer) (joins : Joins closer next)
    (plain : e.isConditional = false) (simple : e.isAccess = false) :
    Spelled c level e first next (.mark opener :: ws) := by
  simp only [Bool.and_eq_true] at marks
  obtain ⟨⟨fixed, begins⟩, final⟩ := marks
  refine .of_word (Word.genuine_mark fixed) (.inl ⟨kind.symm, fun _ => Word.isPoint_mark fixed⟩) text
    tail begins inner ?_ (fun _ => ?_) (fun isConditional => ?_) (fun point => ?_)
    simple
  · rwa [Word.kind_mark, last]
  · rwa [Word.kind_mark, last]
  · rw [plain] at isConditional
    cases isConditional
  · rw [Word.isPoint_mark fixed] at point
    cases point

theorem grouping_copied (h : Recovers c g) {s' : State} (run : Reads (grouping g) s e s')
    (kind : s.kind = .leftParen) (sound : Sound c s) :
    e.isOperand = true ∧ Copied c (fun m => primary (unroll m)) (e.fits c.options) e s s' := by
  obtain ⟨inner, range, t, rfl, read, close, rfl⟩ := run.grouping_inv
  have copy := h.expression (sound.drop 1) read
  have joins := ((sound.drop 1).reads read).joins_at close (by decide)
  refine ⟨rfl, copy.names, copy.fits, fun level room fits => ?_⟩
  obtain ⟨ws, spelled, yields⟩ := copy.written level room fits
  refine ⟨.mark .leftParen :: (ws ++ [.mark .rightParen]), ?_, fun m w le _ => ?_⟩
  · have text : c.text (exprPieces c.options level (.group inner range)) =
        "(".toList ++ (c.text (exprPieces c.options level inner) ++ ")".toList) := by
      simp [exprPieces, Piece.render]
    exact .enclosed kind rfl text
      ((spelled.phrase.after_mark rfl rfl).append
        (.mark .rightParen rfl (Kind.ne_comment_of_isFinal (spelled.final _))))
      (fun word => by cases word) (by simp) joins rfl rfl
  · simp only [List.cons_append, List.append_assoc]
    refine Yields.primary (q := grouping _) ?_ (.inl ⟨rfl, rfl⟩)
    refine Yields.ranged (Yields.advance.bind fun _ _ =>
      (yields m _ le (.inr rfl)).bind fun inner' echo => (Yields.expect rfl).bind fun _ _ =>
        .pure fun range' => ⟨rfl, fun exact => ?_⟩)
    rw [Expr.bare, Expr.bare, echo.bare exact]

theorem arrayLiteral_copied (h : Recovers c g) {s' : State} (run : Reads (arrayLiteral g) s e s')
    (kind : s.kind = .leftSquare) (sound : Sound c s) :
    e.isOperand = true ∧
      Copied c (fun m => primary (unroll m)) (e.fits c.options) e s s' := by
  obtain ⟨es, range, t, rfl, list, close, rfl⟩ := run.arrayLiteral_inv
  have copy := elements_copied h list (sound.drop 1)
  have joins := ((sound.drop 1).reads list).joins_at close (by decide)
  refine ⟨rfl, copy.names, copy.fits, fun level room fits => ?_⟩
  obtain ⟨ws, spelled, yields⟩ := copy.written level room fits
  refine ⟨.mark .leftSquare :: (ws ++ [.mark .rightSquare]), ?_, fun m w le _ => ?_⟩
  · have text : c.text (exprPieces c.options level (.array es range)) =
        "[".toList ++ (c.text (exprsPieces c.options level es) ++ "]".toList) := by
      simp [exprPieces, Piece.render]
    refine .enclosed kind rfl text (.append ?_ (.mark .rightSquare rfl ?_))
      (fun word => by cases word) (by simp) joins rfl rfl
    · rcases spelled with ⟨rfl, rfl⟩ | ⟨_, spelled⟩
      · exact .nil
      · exact spelled.phrase.after_mark rfl rfl
    · rcases spelled with ⟨_, rfl⟩ | ⟨_, spelled⟩
      · decide
      · exact Kind.ne_comment_of_isFinal (spelled.final _)
  · simp only [List.cons_append, List.append_assoc]
    refine Yields.primary (q := arrayLiteral _) ?_ (.inr (.inl ⟨rfl, rfl⟩))
    refine Yields.ranged (Yields.advance.bind fun _ _ => (yields m _ le rfl).bind
      fun es' bare => (Yields.expect rfl).bind fun _ _ => .pure fun range' => ⟨rfl, fun exact => ?_⟩)
    rw [Expr.bare, Expr.bare, bare exact]

theorem Parser.Yields.members_nil :
    Yields (many (memberRound g)) room (.mark .rightCurly :: w) (.mark .rightCurly :: w) (· = []) := by
  refine .many_nil rfl ((Yields.skipNewlines (by simp)).bind fun _ _ => Yields.kind.bind fun k hk => ?_)
  subst hk
  exact .pure rfl

theorem assocLiteral_copied (h : Recovers c g) {s' : State} (run : Reads (assocLiteral g) s e s')
    (kind : s.kind = .leftCurly) (sound : Sound c s) :
    e.isOperand = true ∧
      Copied c (fun m => primary (unroll m)) (e.fits c.options) e s s' := by
  obtain ⟨ms, range, t, rfl, list, close, rfl⟩ := run.assocLiteral_inv
  have copy := members_copied h list (sound.drop 1)
  have joins := ((sound.drop 1).reads list).joins_at close (by decide)
  refine ⟨rfl, copy.names, copy.fits, fun level room fits => ?_⟩
  cases ms with
  | nil =>
    refine ⟨[.mark .leftCurly, .mark .rightCurly], ?_, fun m w le _ => ?_⟩
    · have text : c.text (exprPieces c.options level (.assoc [] range)) =
          "\x7b".toList ++ "\x7d".toList := by
        simp [exprPieces, Piece.render]
      exact .enclosed kind rfl text (.mark .rightCurly rfl (by decide)) (fun word => by cases word)
        rfl joins rfl rfl
    · refine Yields.primary (q := assocLiteral _) ?_ (.inr (.inr (.inl ⟨rfl, rfl⟩)))
      refine Yields.ranged (Yields.advance.bind fun _ _ => Yields.members_nil.bind
        fun ms' none => (Yields.expect rfl).bind fun _ _ => .pure fun range' => ⟨rfl, fun _ => ?_⟩)
      rw [none]
      rfl
  | cons first ms =>
    obtain ⟨ws, members⟩ := copy.written (level + 1) room fits
    refine ⟨.mark .leftCurly :: (ws ++ [.newline, .mark .rightCurly]), ?_, fun m w le _ => ?_⟩
    · have text : c.text (exprPieces c.options level (.assoc (first :: ms) range)) =
          "\x7b".toList ++ (c.text (membersPieces c.options (level + 1) (first :: ms)) ++
            (((Piece.line level).render c.layout).toList ++ "\x7d".toList)) := by
        simp [exprPieces, Piece.render]
      exact .enclosed kind rfl text ((members.continues _).append
        ((Continues.line c.plain level).append
          (.mark .rightCurly rfl (show Kind.newline ≠ .comment by decide))))
        (fun word => by cases word) (by simp) joins rfl rfl
    · simp only [List.cons_append, List.append_assoc]
      refine Yields.primary (q := assocLiteral _) ?_ (.inr (.inr (.inl ⟨rfl, rfl⟩)))
      refine Yields.ranged (Yields.advance.bind fun _ _ => (members.yields m w le).bind
        fun ms' bare => (Yields.expect rfl).bind fun _ _ => .pure fun range' => ⟨rfl, fun exact => ?_⟩)
      rw [Expr.bare, Expr.bare, bare exact]

theorem anonymousFunction_copied (h : Recovers c g) {s' : State}
    (run : Reads (anonymousFunction g) s e s') (kind : s.kind = .function ∨ s.kind = .sub)
    (sound : Sound c s) :
    e.isOperand = true ∧
      Copied c (fun m => primary (unroll m)) (e.fits c.options) e s s' := by
  obtain ⟨f, rfl, read⟩ := run.anonymousFunction_inv
  obtain ⟨isSub, copy⟩ := functionRest_copied h read (sound.drop 1)
  have keyword : s.kind = .ofFunction f.isSub := by
    have same : s.token.kind = s.kind := rfl
    rw [isSub, same]
    rcases kind with kind | kind <;> rw [kind] <;> rfl
  refine ⟨rfl, by simp [Expr.occurrences], copy.fits, fun level room fits => ?_⟩
  obtain ⟨ws, continues, next, last, yields⟩ := copy.written level room fits
  refine ⟨.mark (.ofFunction f.isSub) :: ws, ?_, fun m w le follow => ?_⟩
  · have text : c.text (exprPieces c.options level (.function f)) =
        (Kind.ofFunction f.isSub).label.toList ++ c.text (restPieces c.options level f) := by
      rw [exprPieces, functionPieces_none]
      simp [Piece.render]
    refine .enclosed keyword ?_ text (continues _ ?_) (fun _ => ?_) (last _) copy.joins rfl rfl
    · cases f.isSub <;> rfl
    · cases f.isSub <;> decide
    · rw [next]
      decide
  · have plain : (Word.next w).isAssignment = false := by
      rcases follow with same | stops
      · rw [same]
        exact copy.plain
      · simp only [Kind.stops, Bool.and_eq_true, Bool.not_eq_true'] at stops
        exact stops.2
    refine Yields.primary (q := anonymousFunction _) ?_ (.inr (.inr (.inr ⟨?_, rfl⟩)))
    rotate_left
    · cases f.isSub
      · exact .inl rfl
      · exact .inr rfl
    refine Yields.token.bind fun t ht => Yields.advance.bind fun _ _ => ?_
    have sub : decide (t.kind = .sub) = f.isSub := by
      rw [← Token.kind_word, ht]
      cases f.isSub <;> rfl
    rw [sub]
    refine (yields m w _ le plain).bind fun f' bare => .pure ⟨rfl, fun exact => ?_⟩
    rw [Expr.bare, Expr.bare, bare exact]

theorem Parser.Yields.primary_literal (literal : x.kind.isLiteral = true) :
    Yields (Parser.primary g) room (x :: w) w fun e =>
      ∃ range, e = .literal ⟨x.kind, x.text, range⟩ := by
  refine Yields.token.bind fun t ht => ?_
  subst ht
  rw [Token.kind_word] at literal
  split
  case h_7 =>
    rw [if_pos literal]
    exact Yields.advance.bind fun _ _ => .pure ⟨_, rfl⟩
  all_goals
    rename_i other
    rw [other] at literal
    cases literal

theorem primary_copied (h : Recovers c g) {s' : State} (run : Reads (primary g) s e s')
    (sound : Sound c s) :
    e.isOperand = true ∧ Copied c (fun m => primary (unroll m)) (e.fits c.options) e s s' := by
  rcases run.primary_inv with ⟨kind, rfl, rfl⟩ | ⟨kind, run⟩ | ⟨kind, run⟩ | ⟨kind, run⟩ |
    ⟨kind, run⟩ | ⟨kind, rfl, rfl⟩
  · have genuine := sound.genuine_word (by rw [kind]; rfl)
    have token : s.token.word = ⟨.identifier, s.token.text, s.token.value⟩ := by
      rw [← kind]
      rfl
    refine ⟨rfl, word_copied sound (.inl kind) (fun _ => rfl) rfl rfl (fun point => ?_)
      (fun x mem => ?_) (fun _ => rfl) fun m room w => ?_⟩
    · rw [genuine.isPoint_eq_false (by rw [token]; rfl)] at point
      cases point
    · rw [List.mem_singleton.mp mem]
      exact ⟨s.token.value, token ▸ genuine⟩
    · refine Yields.token.bind fun t ht => ?_
      have name : t.kind = .identifier := by rw [← Token.kind_word, ht, token]
      rw [name]
      refine Yields.takeIdent.map fun x same => ⟨rfl, fun _ => ?_⟩
      rw [Expr.bare, Expr.bare, Ident.bare, same]
      rfl
  · exact grouping_copied h run kind sound
  · exact arrayLiteral_copied h run kind sound
  · exact assocLiteral_copied h run kind sound
  · exact anonymousFunction_copied h run kind sound
  · refine ⟨rfl, word_copied sound (.inr kind) (fun _ => rfl) rfl rfl (fun point => ?_)
      (fun x mem => ?_) (fun _ => rfl) fun m room w => ?_⟩
    · have first := (Bool.and_eq_true_iff.mp point).2
      rw [Text.startsWith, Option.any_eq_true] at first
      obtain ⟨ch, first, same⟩ := first
      rw [of_decide_eq_true same] at first
      exact decide_eq_true first
    · cases mem
    · refine (Yields.primary_literal kind).mono ?_
      rintro _ ⟨range, rfl⟩
      exact ⟨rfl, fun _ => rfl⟩

theorem Kind.boundary_of_isFinal (final : k.isFinal = true) :
    k.boundary = .none ∨ k.boundary = .word := by
  revert final
  cases k <;> decide

/-- A point and a name after an operand. -/
theorem Continues.member {l : Layout} (final : k.isFinal = true) (genuine : x.Genuine)
    (word : x.kind.isWord = true) :
    Continues l k (".".toList ++ x.text.toList) [.mark .dot, x] := by
  have digit : ∀ rest, Text.startsWith Char.isDigit (x.text.toList ++ rest) = false := by
    intro rest
    have start := genuine.starts_word word
    cases text : x.text.toList with
    | nil =>
      rw [text] at start
      cases start
    | cons ch cs =>
      rw [text] at start
      exact Lexeme.isDigit_eq_false_of_isWordStart start
  have second : Kind.combine? .dot x.kind = none := Kind.combine?_of_not_first rfl _
  have name : Continues l .dot x.text.toList [x] :=
    (Phrase.word genuine).continues digit second (fun operand => by cases operand) (by decide)
  have phrase : Phrase l (".".toList ++ x.text.toList) [.mark .dot, x] :=
    (Phrase.mark (k := .dot) rfl).append fun _ => name
  refine phrase.continues (fun rest => ?_) (Kind.combine?_eq_none rfl k) (fun _ => rfl)
    (Kind.ne_comment_of_isFinal final)
  unfold Apart
  rcases Kind.boundary_of_isFinal final with boundary | boundary <;> rw [boundary]
  · trivial
  · exact ⟨rfl, rfl, rfl, digit rest⟩

theorem Parser.Yields.accessRound_stop (follow : Follow k w)
    (done : k ≠ .leftParen ∧ k ≠ .dot ∧ k ≠ .leftSquare) :
    Yields (accessRound g e) room w w (· = .done e) := by
  have kinds : Word.next w ≠ .leftParen ∧ Word.next w ≠ .dot ∧ Word.next w ≠ .leftSquare := by
    rcases follow with same | stops
    · rwa [same]
    · revert stops
      cases Word.next w <;> decide
  refine Yields.kind.bind fun k' hk => ?_
  subst hk
  split
  · exact absurd ‹_› kinds.1
  · exact absurd ‹_› kinds.2.1
  · exact absurd ‹_› kinds.2.2
  · exact .pure rfl

theorem Parser.Yields.accessRound_member {y : Word} (word : y.kind.isWord = true) :
    Yields (accessRound g e) room (.mark .dot :: y :: w) w
      fun r => ∃ name range, name.name = y.text ∧ r = .again (.dotted e name range) := by
  refine Yields.kind.bind fun k hk => ?_
  subst hk
  refine Yields.here.bind fun _ _ => Yields.advance.bind fun _ _ => Yields.kind.bind fun k hk => ?_
  have word' : k.isWord = true := hk ▸ word
  rw [if_pos word']
  exact Yields.memberName.bind fun name same => .pure ⟨name, _, same, rfl⟩

abbrev AccessOpened (c : Setting) (e : Expr) (s t : State) : Prop :=
  Opened c (fun m => accessed (unroll m)) (fun m => loop (accessRound (unroll m))) e s t

theorem call_opened (h : Recovers c g) {args : List Expr} {t u : State}
    (opened : AccessOpened c e s t) (operand : e.isOperand = true) (sound : Sound c t)
    (nesting : t.nesting = s.nesting) (kind : t.kind = .leftParen)
    (run : Reads (arguments g) (t.drop 1) args u) : AccessOpened c (.call e args range) s u := by
  obtain ⟨names, copy⟩ := arguments_copied h run (sound.drop 1)
  refine opened.again (fun level => .text "(" :: (exprsPieces c.options level args ++ [.text ")"]))
    (fun level => by simp [exprPieces]) rfl rfl (fun _ => ⟨operand, by rw [kind]; decide⟩) ?_ ?_ ?_ ?_
  · intro x mem
    unfold Expr.occurrences at mem
    rcases List.mem_append.mp mem with mem | mem
    · exact names x mem
    · split at mem
      · cases mem
      · exact opened.names x mem
  · intro exact
    rw [Expr.fits, opened.fits exact, ← nesting]
    exact copy.fits exact
  · exact fun _ fits => (Bool.and_eq_true_iff.mp fits).1
  · intro level room fits
    rw [Expr.fits, Bool.and_eq_true] at fits
    obtain ⟨ws, continues, nonempty, last, yields⟩ := copy.written level room fits.2
    refine ⟨.mark .leftParen :: ws, by simp, kind.symm, fun k final => ?_, fun k => ?_, ?_⟩
    · rw [Setting.text, chars_cons]
      exact (Continues.mark .leftParen rfl (Kind.ne_comment_of_isFinal final)).append continues
    · rw [Word.last_cons, last]
      exact ⟨rfl, copy.joins⟩
    · intro m w e' le _ echo
      refine Yields.kind.bind fun k hk => ?_
      subst hk
      refine Yields.map (P := fun x => Echo c (.call e args range) x) ?_ fun x hx => ⟨x, rfl, hx⟩
      refine Yields.spanned (Yields.advance.bind fun _ _ => (yields m w le).bind
        fun args' bare => .pure fun range' => ⟨rfl, fun exact => ?_⟩)
      rw [Expr.bare, Expr.bare, echo.bare exact, bare exact]

theorem dotted_opened {t : State} (opened : AccessOpened c e s t) (operand : e.isOperand = true)
    (sound : Sound c t) (kind : t.kind = .dot) (word : (t.drop 1).kind.isWord = true) :
    AccessOpened c (.dotted e ⟨(t.drop 1).token.text, (t.drop 1).token.range⟩ range) s (t.drop 2) := by
  have genuine := (sound.drop 1).genuine_word word
  have joins := (sound.drop 1).joins (by intro same; rw [same] at word; cases word)
  rw [State.drop_drop] at joins
  refine opened.again (fun _ => [.text ".", .text (t.drop 1).token.text])
    (fun level => by simp [exprPieces]) rfl rfl (fun _ => ⟨operand, by rw [kind]; decide⟩)
    opened.names opened.fits (fun _ fits => fits) fun level room _ => ?_
  refine ⟨[.mark .dot, (t.drop 1).token.word], by simp, kind.symm, fun k final => ?_,
    fun k => ⟨?_, joins⟩, fun m w e' le _ echo => ?_⟩
  · simpa [Piece.render] using Continues.member (l := c.layout) final genuine word
  · have final : ∀ k : Kind, k.isWord = true → k.isFinal = true := by
      intro k
      cases k <;> decide
    exact final _ word
  · refine (Yields.accessRound_member word).mono ?_
    rintro _ ⟨name, range', same, rfl⟩
    refine ⟨_, rfl, rfl, fun exact => ?_⟩
    rw [Expr.bare, Expr.bare, echo.bare exact, Ident.bare, same]
    rfl

theorem indexed_opened (h : Recovers c g) {index : Expr} {t u : State}
    (opened : AccessOpened c e s t) (operand : e.isOperand = true) (sound : Sound c t)
    (nesting : t.nesting = s.nesting) (kind : t.kind = .leftSquare)
    (run : Reads g.expression (t.drop 1) index u) (close : u.kind = .rightSquare) :
    AccessOpened c (.indexed e index range) s (u.drop 1) := by
  have copy := h.expression (sound.drop 1) run
  have joins := ((sound.drop 1).reads run).joins_at close (by decide)
  refine opened.again
    (fun level => .text "[" :: (exprPieces c.options level index ++ [.text "]"]))
    (fun level => by simp [exprPieces]) rfl rfl (fun _ => ⟨operand, by rw [kind]; decide⟩) ?_ ?_ ?_ ?_
  · exact List.forall_mem_append.mpr ⟨copy.names, opened.names⟩
  · intro exact
    rw [Expr.fits, opened.fits exact, ← nesting]
    exact copy.fits exact
  · exact fun _ fits => (Bool.and_eq_true_iff.mp fits).1
  · intro level room fits
    rw [Expr.fits, Bool.and_eq_true] at fits
    obtain ⟨ws, spelled, yields⟩ := copy.written level room fits.2
    refine ⟨.mark .leftSquare :: (ws ++ [.mark .rightSquare]), by simp, kind.symm, fun k final => ?_,
      fun k => ?_, ?_⟩
    · have text : c.text (.text "[" :: (exprPieces c.options level index ++ [.text "]"])) =
          "[".toList ++ (c.text (exprPieces c.options level index) ++ "]".toList) := by
        simp [Piece.render]
      rw [text]
      exact (Continues.mark .leftSquare rfl (Kind.ne_comment_of_isFinal final)).append
        ((spelled.phrase.after_mark rfl rfl).append
          (.mark .rightSquare rfl (Kind.ne_comment_of_isFinal (spelled.final _))))
    · rw [Word.last_cons, Word.last_append]
      exact ⟨rfl, joins⟩
    · intro m w e' le _ echo
      refine Yields.kind.bind fun k hk => ?_
      subst hk
      refine Yields.map (P := fun x => Echo c (.indexed e index range) x) ?_ fun x hx => ⟨x, rfl, hx⟩
      rw [List.cons_append, List.append_assoc]
      refine Yields.spanned (Yields.advance.bind fun _ _ => ?_)
      refine (yields m _ le (.inr rfl)).bind fun index' echo' =>
        (Yields.expect rfl).bind fun _ _ => .pure fun range' => ⟨rfl, fun exact => ?_⟩
      rw [Expr.bare, Expr.bare, echo.bare exact, echo'.bare exact]

theorem accessed_copied (h : Recovers c g) {s' : State} (run : Reads (accessed g) s e s')
    (sound : Sound c s) :
    e.isOperand = true ∧ Copied c (fun m => accessed (unroll m)) (e.fits c.options) e s s' := by
  obtain ⟨first, t, read, rest⟩ := run.accessed_inv
  obtain ⟨operand, copy⟩ := primary_copied h read sound
  have all := Reads.loop_induction (motive := fun x u => x.isOperand = true → Sound c u →
    u.nesting = s.nesting → AccessOpened c x s u →
      e.isOperand = true ∧ Copied c (fun m => accessed (unroll m)) (e.fits c.options) e s s')
    ?_ ?_ rest
  · exact all operand (sound.reads read) read.advances.nesting
      (copy.opened (Expr.isConditional_of_isOperand operand) _)
  · intro x u round operand sound nesting opened
    obtain ⟨_, _, _, ⟨⟩, _⟩ | ⟨_, _, _, _, ⟨⟩⟩ | ⟨_, _, _, _, ⟨⟩, _⟩ | ⟨call, dot, index, ⟨⟩, rfl⟩ :=
      round.accessRound_inv
    exact ⟨operand, opened.done fun m room w e' follow =>
      .accessRound_stop follow ⟨call, dot, index⟩⟩
  · intro x u next v round _ _ ih operand sound nesting opened
    have sound' := sound.reads round
    have nesting' := round.advances.nesting.trans nesting
    obtain ⟨kind, args, range, ⟨⟩, read⟩ | ⟨kind, word, rfl, range, ⟨⟩⟩ |
      ⟨kind, index, range, w, ⟨⟩, read, close, rfl⟩ | ⟨_, _, _, ⟨⟩, _⟩ := round.accessRound_inv
    · exact ih rfl sound' nesting' (call_opened h opened operand sound nesting kind read)
    · exact ih rfl sound' nesting' (dotted_opened opened operand sound kind word)
    · exact ih rfl sound' nesting' (indexed_opened h opened operand sound nesting kind read close)

end BrightScript
