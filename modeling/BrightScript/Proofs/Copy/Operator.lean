import BrightScript.Proofs.Copy.Operand

/-! Copies of operators with their operands. -/
namespace BrightScript

open BrightScript.Parser BrightScript.Emit

variable {c : Setting} {g : Grammar} {k : Kind} {level room : Nat} {w ws : List Word} {e : Expr}

theorem Kind.alone_of_precedence? {p : Nat} (binds : k.precedence? = some p) :
    k.isSecond = false ∧ k.isLoose = true ∧ k.isNumeral = false ∧ k ≠ .endOfFile ∧ k ≠ .comment := by
  have some : k.precedence?.isSome = true := by rw [binds]; rfl
  revert some
  cases k <;> decide

theorem Parser.Yields.tokenKind : Yields Parser.token room w w fun t => t.kind = Word.next w :=
  Yields.inspect fun s words => words ▸ s.kind_eq_next

theorem Parser.Yields.binaryRound_stop {operandAt : Nat → Parser Expr} {left : Expr}
    (follow : Follow k w) (done : ∀ p, k.precedence? = some p → ¬ level < p) :
    Yields (binaryRound operandAt level left) room w w (· = .done left) := by
  refine Yields.tokenKind.bind fun t kind => ?_
  have loose : ∀ p, t.kind.precedence? = some p → ¬ level < p := by
    rw [kind]
    rcases follow with same | stops
    · rwa [same]
    · intro p binds
      have none : (Word.next w).precedence?.isNone = true := by
        revert stops
        cases Word.next w <;> decide
      rw [binds] at none
      cases none
  split
  · rename_i p binds
    rw [if_neg (loose p binds)]
    exact .pure rfl
  · exact .pure rfl

theorem binary_opened {q : Nat → Parser Expr} {operandAt : Nat → Nat → Parser Expr} {p : Nat}
    {left right : Expr} {range : Range} {s t u : State}
    (opened : Opened c q (fun m => loop (binaryRound (operandAt m) level)) left s t)
    (sound : Sound c t) (nesting : t.nesting = s.nesting) (binds : t.kind.precedence? = some p)
    (tighter : level < p) (plain : right.isConditional = false)
    (copy : Copied c (fun m => operandAt m p) (right.fits c.options) right (t.drop 1) u) :
    Opened c q (fun m => loop (binaryRound (operandAt m) level))
      (.binary ⟨t.kind, t.token.text⟩ left right range) s u := by
  obtain ⟨second, loose, numeral, file, comment⟩ := Kind.alone_of_precedence? binds
  have genuine := sound.genuine file comment
  have point : t.token.word.isPoint = false := by
    cases point : t.token.word.isPoint with
    | false => rfl
    | true => exact (genuine.isNumeral_of_isPoint point).symm.trans numeral
  refine opened.again
    (fun level => [.text " ", .text t.token.text, .text " "] ++ exprPieces c.options level right)
    (fun level => by simp [exprPieces]) rfl rfl (fun operand => by cases operand) ?_ ?_ ?_ ?_
  · exact List.forall_mem_append.mpr ⟨opened.names, copy.names⟩
  · intro exact
    have fits := copy.fits exact
    rw [State.nesting_drop, nesting] at fits
    rw [Expr.fits, opened.fits exact, fits]
    rfl
  · exact fun _ fits => (Bool.and_eq_true_iff.mp fits).1
  · intro level room fits
    rw [Expr.fits, Bool.and_eq_true] at fits
    obtain ⟨ws, spelled, yields⟩ := copy.written level room fits.2
    refine ⟨t.token.word :: ws, by simp, rfl, fun k final => ?_, fun k => ?_, ?_⟩
    · have text : c.text ([.text " ", .text t.token.text, .text " "] ++
          exprPieces c.options level right) =
          (' ' :: t.token.word.text.toList) ++ (' ' :: c.text (exprPieces c.options level right)) := by
        simp [Piece.render, toList_space]
      rw [text]
      exact ((Phrase.word genuine).after_space (Kind.combine?_eq_none second k) (fun _ => point)
        (Kind.ne_comment_of_isFinal final)).append (spelled.phrase.after_loose loose)
    · exact ⟨spelled.final _, spelled.joins plain _⟩
    · intro m w e' le follow echo
      refine Yields.token.bind fun t' same => ?_
      have kind : t'.kind = t.kind := by rw [← Token.kind_word, same]; rfl
      have text : t'.text = t.token.text := by rw [← Token.text_word, same]; rfl
      simp only [kind, binds, tighter, if_true]
      refine Yields.advance.bind fun _ _ => (yields m w le follow).bind
        fun right' echo' => .pure ⟨_, rfl, rfl, fun exact => ?_⟩
      rw [Expr.bare, Expr.bare, echo.bare exact, echo'.bare exact, text]

theorem binaryFrom_copied {p : Parser Expr} {q : Nat → Parser Expr}
    (h : ∀ {s e s'}, Sound c s → Reads p s e s' →
      e.isConditional = false ∧ Copied c q (e.fits c.options) e s s') (depth : Nat) :
    ∀ {level : Nat} {e : Expr} {s s' : State}, Reads (binaryFrom p depth level) s e s' →
      Sound c s → e.isConditional = false ∧
        Copied c (fun m => binaryFrom (q m) depth level) (e.fits c.options) e s s' := by
  induction depth with
  | zero => exact fun run sound => h sound run
  | succ depth ih =>
    intro level e s s' run sound
    obtain ⟨first, t, read, rest⟩ := run.binaryFrom_succ_inv
    obtain ⟨plain, copy⟩ := h sound read
    have all := Reads.loop_induction (motive := fun x u => x.isConditional = false → Sound c u →
      u.nesting = s.nesting →
      Opened c (fun m => binaryFrom (q m) (depth + 1) level)
        (fun m => loop (binaryRound (binaryFrom (q m) depth) level)) x s u →
      e.isConditional = false ∧
        Copied c (fun m => binaryFrom (q m) (depth + 1) level) (e.fits c.options) e s s')
      ?_ ?_ rest
    · exact all plain (sound.reads read) read.advances.nesting (copy.opened plain _)
    · intro x u round plain sound nesting opened
      obtain ⟨_, _, _, _, _, _, ⟨⟩⟩ | ⟨done, ⟨⟩, rfl⟩ := round.binaryRound_inv
      exact ⟨plain, opened.done fun m room w e' follow => .binaryRound_stop follow done⟩
    · intro x u next v round _ _ go plain sound nesting opened
      obtain ⟨p, right, range, binds, tighter, read, ⟨⟩⟩ | ⟨_, ⟨⟩, _⟩ := round.binaryRound_inv
      obtain ⟨plain', copy'⟩ := ih read (sound.drop 1)
      exact go rfl (sound.reads round) (round.advances.nesting.trans nesting)
        (binary_opened opened sound nesting binds tighter plain' copy')

theorem Kind.alone_of_isPrefixOperator (h : isPrefixOperator k = true) :
    k.begins = true ∧ k.isLoose = true ∧ k.isNumeral = false ∧ k ≠ .endOfFile ∧ k ≠ .comment := by
  revert h
  cases k <;> decide

theorem Leads.apart_sign {t : Token} {text : List Char} (h : Leads t text ws)
    (begins : (Word.next ws).begins = true) (other : t.kind ≠ .minus ∧ t.kind ≠ .plus)
    (rest : List Char) : Text.startsWith Text.isSign (text ++ rest) = false := by
  obtain ⟨x, tail, more, rfl, rfl, genuine, same⟩ := h
  have unsigned : x.kind ≠ .minus ∧ x.kind ≠ .plus := by
    rcases same with ⟨same, _⟩ | name
    · rwa [same]
    · rw [name]
      decide
  have kinds : x.kind.boundary ≠ .sign ∧ x.kind ≠ .equal := by
    rw [Word.next_cons] at begins
    revert begins unsigned
    cases x.kind <;> decide
  rw [List.append_assoc]
  exact genuine.unsigned kinds.1 kinds.2 _

/-- What stands between a prefix operator and its operand. -/
def Emit.gap (k : Kind) (operand : Expr) : List Char :=
  if k = .not_ || startsWithSign operand then [' '] else []

theorem Setting.text_unary (c : Setting) (level : Nat) (operator : Operator) (e : Expr)
    (range : Range) :
    c.text (exprPieces c.options level (.unary operator e range)) =
      operator.text.toList ++ (gap operator.kind e ++ c.text (exprPieces c.options level e)) := by
  rw [exprPieces, gap]
  split <;> simp [Piece.render, toList_space]

theorem Spelled.after_sign {first next : Token} (h : Spelled c level e first next ws)
    (isPrefix : isPrefixOperator k = true)
    (sign : startsWithSign e = false → k ≠ .not_ → first.kind ≠ .minus ∧ first.kind ≠ .plus) :
    Continues c.layout k (gap k e ++ c.text (exprPieces c.options level e)) ws := by
  obtain ⟨_, loose, _, _, comment⟩ := Kind.alone_of_isPrefixOperator isPrefix
  unfold gap
  split
  · exact h.phrase.after_loose loose
  · rename_i plain
    simp only [Bool.or_eq_true, decide_eq_true_eq, not_or, Bool.not_eq_true] at plain
    have unsigned := sign plain.2 plain.1
    have signs : k.boundary = .sign ∧ Lexeme.isFirstWord k = false ∧
        Scan.endsOperand (some k) = false := by
      revert isPrefix
      have := plain.1
      revert this
      cases k <;> decide
    refine h.phrase.continues (fun rest => ?_) (Kind.combine?_of_not_first signs.2.1 _)
      (fun operand => ?_) comment
    · rw [Apart, signs.1]
      exact h.leads.apart_sign h.begins unsigned rest
    · rw [signs.2.2] at operand
      cases operand

theorem Parser.Yields.prefixed {x : Word} {P Q : Expr → Prop}
    (h : Yields (prefixOperand x.kind g.operand) room ws w P)
    (holds : ∀ e range, P e → Q (.unary ⟨x.kind, x.text⟩ e range)) :
    Yields (prefixed g) room (x :: ws) w Q := by
  refine Yields.token.bind fun t same => Yields.advance.bind fun _ _ => ?_
  subst same
  exact h.bind fun e he => .pure (holds e _ he)

theorem prefix_copied {range : Range} {s t : State} (sound : Sound c s)
    (shallow : s.nesting < maxNesting) (isPrefix : isPrefixOperator s.kind = true)
    (plain : e.isConditional = false)
    (sign : startsWithSign e = false → s.kind ≠ .not_ →
      (s.drop 1).kind ≠ .minus ∧ (s.drop 1).kind ≠ .plus)
    (copy : Copied c (fun m => prefixOperand s.kind (Parser.operand (unroll m))) (e.fits c.options) e
      ((s.atNesting (s.nesting + 1)).drop 1) t) :
    Copied c (fun m => Parser.operand (unroll m))
      ((Expr.unary ⟨s.kind, s.token.text⟩ e range).fits c.options)
      (.unary ⟨s.kind, s.token.text⟩ e range) s (t.atNesting s.nesting) := by
  obtain ⟨begins, _, numeral, file, comment⟩ := Kind.alone_of_isPrefixOperator isPrefix
  have genuine := sound.genuine file comment
  refine ⟨copy.names, fun exact => ?_, fun level room fits => ?_⟩
  · have room : maxNesting - s.nesting = maxNesting - (s.nesting + 1) + 1 := by omega
    rw [Expr.fits, room]
    exact copy.fits exact
  · rw [Expr.fits] at fits
    obtain ⟨less, rfl, fits⟩ := deeper_eq_true.mp fits
    obtain ⟨ws, spelled, yields⟩ := copy.written level less fits
    refine ⟨s.token.word :: ws, ?_, fun m w le follow => ?_⟩
    · refine .of_word genuine (.inl ⟨rfl, id⟩) (c.text_unary level _ e range)
        (spelled.after_sign isPrefix sign) begins (fun _ => ?_) (spelled.final _)
        (fun _ => spelled.joins plain _) (fun conditional => by cases conditional) (fun point => ?_) rfl
      · have next := spelled.begins
        revert next
        cases Word.next ws <;> decide
      · exact numeral.symm.trans (genuine.isNumeral_of_isPoint point)
    · obtain ⟨m, rfl⟩ : ∃ n, m = n + 1 := ⟨m - 1, by omega⟩
      refine Yields.kind.bind fun k hk => ?_
      obtain rfl : k = s.kind := hk
      rw [if_pos isPrefix]
      refine Yields.nested (Yields.prefixed (yields m w (by omega) follow) ?_)
      exact fun e' range' echo => ⟨rfl, fun exact => by
        rw [Expr.bare, Expr.bare, echo.bare exact]
        rfl⟩

theorem operand_copied (h : Recovers c g) {s s' : State} (run : Reads (operand g) s e s')
    (sound : Sound c s) : OperandCopied c e s s' := by
  rcases run.operand_inv with ⟨isPrefix, shallow, inner, range, t, rfl, read, rfl⟩ | ⟨other, read⟩
  · have sound' : Sound c ((s.atNesting (s.nesting + 1)).drop 1) := (sound.atNesting _).drop 1
    have operands : ∀ {s e s'}, Sound c s → Reads g.operand s e s' → e.isConditional = false ∧
        Copied c (fun m => Parser.operand (unroll m)) (e.fits c.options) e s s' :=
      fun sound read =>
        ⟨Expr.isConditional_of_isOperand (h.operand sound read).operand, (h.operand sound read).copied⟩
    refine ⟨rfl, fun unsigned => ?_, ?_⟩
    · simpa [startsWithSign] using unsigned
    · by_cases negation : s.kind = .not_
      · rw [prefixOperand, if_pos negation] at read
        obtain ⟨plain, copy⟩ := binaryFrom_copied operands _ read sound'
        refine prefix_copied sound shallow isPrefix plain (fun _ other => absurd negation other) ?_
        simp only [prefixOperand, if_pos negation]
        exact copy
      · rw [prefixOperand, if_neg negation] at read
        have copy := h.operand sound' read
        refine prefix_copied sound shallow isPrefix (operands sound' read).1
          (fun unsigned _ => copy.sign unsigned) ?_
        simp only [prefixOperand, if_neg negation]
        exact copy.copied
  · obtain ⟨operand, copy⟩ := accessed_copied h read sound
    refine ⟨operand, fun _ => ?_, ⟨copy.names, copy.fits, fun level room fits => ?_⟩⟩
    · revert other
      cases s.kind <;> decide
    · obtain ⟨ws, spelled, yields⟩ := copy.written level room fits
      refine ⟨ws, spelled, fun m w le follow => ?_⟩
      refine Yields.kind.bind fun k hk => ?_
      have other' : isPrefixOperator k = false := by
        obtain ⟨x, tail, _, rfl, _, _, ⟨same, _⟩ | name⟩ := spelled.leads
        · rw [hk, List.cons_append, Word.next_cons, same]
          exact other
        · rw [hk, List.cons_append, Word.next_cons, name]
          rfl
      rw [other']
      exact yields m w le follow

end BrightScript
