import BrightScript.Proofs.Copy.Operator

/-! Copies of statements without a body.
A statement is told from others by its first words: a name in front of an assignment operator, a
name and a colon alone on a line, a keyword, or else an operand. The copy has the same first words,
or a name in the place of an operand's first word. -/
namespace BrightScript

open BrightScript.Parser BrightScript.Emit

variable {c : Setting} {g : Grammar} {k operator : Kind} {st : Stmt} {w ws : List Word}
  {room level : Nat} {e target : Expr} {s s' : State} {first : Token}

theorem Ends.endsItems (h : Ends k w) : endsItems (Word.next w) = true := by
  rcases h with line | ⟨mark | last | more, _⟩
  · revert line
    cases Word.next w <;> decide
  · rw [mark]
    rfl
  · rw [last]
    rfl
  · rw [more]
    rfl

theorem Kind.kinds_of_endsItems (h : endsItems k = true) :
    k.stops = true ∧ k.isAssignment = false ∧ k.precedence? = none ∧ k ≠ .questionMark ∧
      k ≠ .plusPlus ∧ k ≠ .minusMinus := by
  revert h
  cases k <;> decide

theorem Ends.follow (h : Ends k w) (k' : Kind) : Follow k' w :=
  .inr (Kind.kinds_of_endsItems h.endsItems).1

theorem Ends.endsLine (h : Ends k w) (line : k.endsLine = true) :
    (Word.next w).endsLine = true := by
  rcases h with ends | ⟨marks, rfl | rfl⟩
  · exact ends
  · exact line
  · cases line

namespace Parser.Yields

variable {P : Stmt → Prop}

theorem atTarget : Yields (Parser.inspect State.atTarget) room ws ws
    (· = ((Word.next ws).isWord && (Word.next (ws.drop 1)).isAssignment)) :=
  .inspect fun s words => by rw [State.atTarget, s.kind_eq_next, s.kindAt_eq_next, words]

theorem atLabel : Yields (Parser.inspect State.atLabel) room ws ws
    (· = (Word.next ws = .identifier && Word.next (ws.drop 1) = .colon &&
      (Word.next (ws.drop 2) = .newline || Word.next (ws.drop 2) = .endOfFile ||
        Word.next (ws.drop 2) = .comment))) :=
  .inspect fun s words => by
    rw [State.atLabel, s.kind_eq_next, s.kindAt_eq_next, s.kindAt_eq_next, words]

theorem statementBody (h : Yields (byKeyword g (Word.next ws)) room ws w P)
    (other : (Word.next ws).isWord = true →
      (Word.next (ws.drop 1)).isAssignment = false ∧ Word.next (ws.drop 1) ≠ .colon) :
    Yields (statementBody g) room ws w P := by
  refine atTarget.bind fun b target => ?_
  obtain rfl : b = false := by
    cases word : (Word.next ws).isWord with
    | true => rw [target, (other word).1, Bool.and_false]
    | false => rw [target, word, Bool.false_and]
  refine atLabel.bind fun b label => ?_
  obtain rfl : b = false := by
    by_cases name : Word.next ws = .identifier
    · rw [label, decide_eq_false (other (by rw [name]; rfl)).2, Bool.and_false, Bool.false_and]
    · simp [label, name]
  refine Yields.kind.bind fun k hk => ?_
  subst hk
  exact h

theorem statementBody_keyword (keyword : k.isKeyword = true)
    (plain : (Word.next ws).isAssignment = false)
    (h : Yields (byKeyword g k) room (.mark k :: ws) w P) :
    Yields (Parser.statementBody g) room (.mark k :: ws) w P := by
  refine atTarget.bind fun b target => ?_
  obtain rfl : b = false := by simp [target, plain]
  refine atLabel.bind fun b label => ?_
  have other : k ≠ .identifier := by
    rintro rfl
    cases keyword
  obtain rfl : b = false := by simp [label, other]
  refine Yields.kind.bind fun k' hk => ?_
  subst hk
  exact h

end Parser.Yields

theorem Kind.alone_of_isAssignment (h : k.isAssignment = true) :
    (k.isFixed && !k.isSecond) = true ∧ k.isLoose = true := by
  revert h
  cases k <;> decide

theorem Parser.Yields.assignment {x : Word} {P : Expr → Prop} (name : x.kind = .identifier)
    (free : isReserved x.text = false) (assigns : operator.isAssignment = true)
    (value : Yields g.expression room ws w P) :
    Yields (Parser.statementBody g) room (x :: .mark operator :: ws) w fun st =>
      ∃ id e range, st = .assign id operator e range ∧ id.name = x.text ∧ P e := by
  refine Yields.atTarget.bind fun b target => ?_
  obtain rfl : b = true := by simp [target, name, Kind.isWord, assigns]
  refine (Yields.declaredName name free).bind fun id same => ?_
  refine Yields.bind (P := fun p => p.1 = operator ∧ P p.2) ?_ fun p hp =>
    .pure ⟨id, p.2, _, by rw [← hp.1], same, hp.2⟩
  refine Yields.kind.bind fun k hk => Yields.advance.bind fun _ _ => value.bind fun e he =>
    .pure ⟨hk, he⟩

theorem Continues.assigned {next : Token} (spelled : Spelled c level e first next ws)
    (assigns : operator.isAssignment = true) (code : k ≠ .comment) :
    Continues c.layout k (c.text (operatorPieces operator ++ exprPieces c.options level e))
      (.mark operator :: ws) := by
  obtain ⟨fixed, loose⟩ := Kind.alone_of_isAssignment assigns
  have text : c.text (operatorPieces operator ++ exprPieces c.options level e) =
      (' ' :: operator.label.toList) ++ (' ' :: c.text (exprPieces c.options level e)) := by
    simp [operatorPieces, Piece.render, toList_space]
  rw [text]
  exact (Continues.spaced_mark operator fixed code).append (spelled.phrase.after_loose loose)

theorem assignment_copied (h : Recovers c g) (run : Reads (assignment g) s st s')
    (assigns : (s.drop 1).kind.isAssignment = true) (sound : Sound c s) :
    WholeCopied c st s s' := by
  obtain ⟨id, value, range, rfl, declared, read⟩ := run.assignment_inv
  obtain ⟨name, _⟩ := reads_declaredName declared sound
  have copy := h.expression (sound.drop 2) read
  refine ⟨rfl, copy.fits, fun level room fits => ?_⟩
  obtain ⟨ws, spelled, yields⟩ := copy.written level room fits
  refine ⟨s.token.word :: .mark (s.drop 1).kind :: ws, ⟨?_, ?_, ?_, ?_⟩, ?_⟩
  · have text : c.text (stmtPieces c.options level (.assign id (s.drop 1).kind value range)) =
        id.name.toList ++ c.text (operatorPieces (s.drop 1).kind ++
          exprPieces c.options level value) := by
      simp [stmtPieces, Piece.render]
    rw [text]
    exact (name.phrase c.layout).append fun _ => .assigned spelled assigns name.genuine.code
  · rw [Word.next_cons, Token.kind_word]
    exact (congrArg Kind.opens name.kind).trans rfl
  · exact fun same => same
  · exact fun k => Kind.ne_comment_of_isFinal (spelled.final _)
  · intro m w le ends
    have free : isReserved s.token.word.text = false := by
      rw [Token.text_word, ← name.name]
      exact name.free
    refine (Yields.assignment (x := s.token.word) name.kind free assigns
      (yields m w le (ends.follow _))).mono ?_
    rintro _ ⟨id', value', range', rfl, same, echo⟩
    refine ⟨rfl, fun exact => ?_⟩
    rw [Stmt.bare, Stmt.bare, echo.bare exact, Ident.bare, same, Token.text_word, ← name.name]
    rfl

def Kind.leadsOperand (k : Kind) : Bool :=
  k ≠ .questionMark && !(k.isKeyword && !startsExpression k)

theorem Parser.byKeyword_operand (h : k.leadsOperand = true) (g : Grammar) :
    byKeyword g k = expressionStatement g := by
  cases k <;> first | rfl | cases h

theorem Kind.kinds_of_begins (h : k.begins = true) : k.opens = true ∧ k ≠ .if_ := by
  revert h
  cases k <;> decide

theorem accessed_cases (run : Reads (accessed g) s e s') :
    e.isAccess = true ∨ Reads (primary g) s e s' := by
  obtain ⟨first, t, readFirst, rest⟩ := run.accessed_inv
  have shape : e.isAccess = true ∨ first = e ∧ t = s' := by
    refine Reads.loop_induction (motive := fun x u => e.isAccess = true ∨ x = e ∧ u = s')
      ?_ ?_ rest
    · intro x u round
      obtain ⟨_, _, _, ⟨⟩, _⟩ | ⟨_, _, _, _, ⟨⟩⟩ | ⟨_, _, _, _, ⟨⟩, _⟩ | ⟨_, _, _, ⟨⟩, rfl⟩ :=
        round.accessRound_inv
      exact .inr ⟨rfl, rfl⟩
    · rintro x u next v round _ _ (access | ⟨rfl, -⟩)
      · exact .inl access
      · obtain ⟨_, _, _, ⟨⟩, _⟩ | ⟨_, _, _, _, ⟨⟩⟩ | ⟨_, _, _, _, ⟨⟩, _⟩ | ⟨_, _, _, ⟨⟩, _⟩ :=
          round.accessRound_inv
        all_goals exact .inl rfl
  refine shape.imp_right ?_
  rintro ⟨rfl, rfl⟩
  exact readFirst

theorem primary_shape (run : Reads (primary g) s e s') :
    e.isConditional = false ∧ ∀ x, e = .var x → s.kind = .identifier ∧ s' = s.drop 1 := by
  rcases run.primary_inv with ⟨name, rfl, same⟩ | ⟨_, run⟩ | ⟨_, run⟩ | ⟨_, run⟩ | ⟨_, run⟩ |
    ⟨_, rfl, _⟩
  · exact ⟨rfl, fun _ _ => ⟨name, same⟩⟩
  · obtain ⟨_, _, _, rfl, _⟩ := run.grouping_inv
    exact ⟨rfl, nofun⟩
  · obtain ⟨_, _, _, rfl, _⟩ := run.arrayLiteral_inv
    exact ⟨rfl, nofun⟩
  · obtain ⟨_, _, _, rfl, _⟩ := run.assocLiteral_inv
    exact ⟨rfl, nofun⟩
  · obtain ⟨_, rfl, _⟩ := run.anonymousFunction_inv
    exact ⟨rfl, nofun⟩
  · exact ⟨rfl, nofun⟩

theorem operand_plain (run : Reads (operand g) s e s') : e.isConditional = false := by
  rcases run.operand_inv with ⟨_, _, _, _, _, rfl, _⟩ | ⟨_, read⟩
  · rfl
  · rcases accessed_cases read with access | first
    · cases e <;> first | rfl | cases access
    · exact (primary_shape first).1

theorem operand_var {x : Ident} (run : Reads (operand g) s (.var x) s') :
    s.kind = .identifier ∧ s' = s.drop 1 := by
  rcases run.operand_inv with ⟨_, _, _, _, _, ⟨⟩, _⟩ | ⟨_, read⟩
  exact (primary_shape ((accessed_cases read).resolve_left nofun)).2 x rfl

namespace Spelled

variable {next : Token} {v : List Word}

theorem leadsOperand (h : Spelled c level e first next ws)
    (leads : first.kind.leadsOperand = true) : (Word.next ws).leadsOperand = true := by
  obtain ⟨x, tail, _, rfl, _, _, ⟨same, _⟩ | name⟩ := h.leads
  · rwa [Word.next_cons, same]
  · rw [Word.next_cons, name]
    rfl

theorem statementBody (h : Spelled c level e first next ws) (operand : e.isOperand = true)
    (leads : first.kind.leadsOperand = true)
    (other : e.isAccess = true ∨ (Word.next v).isAssignment = false ∧ Word.next v ≠ .colon)
    {Q : Expr → Prop} {P : Stmt → Prop} (left : Yields (Parser.operand g) room (ws ++ v) v Q)
    (rest : ∀ e', Q e' → Yields (operandRest g e') room v w P) :
    Yields (Parser.statementBody g) room (ws ++ v) w P := by
  refine Yields.statementBody ?_ ?_
  · rw [h.phrase.next_append, byKeyword_operand (h.leadsOperand leads)]
    exact left.bind rest
  · obtain ⟨x, tail, _, rfl, _⟩ := h.leads
    cases tail with
    | nil =>
      intro _
      rcases other with access | other
      · exact absurd (h.long access) (Nat.not_succ_le_self 1)
      · exact other
    | cons y tail => exact h.inner operand x y tail rfl

end Spelled

theorem StmtSpelled.of_operand {next : Token} {more : List Piece} {ws' : List Word}
    (h : Spelled c level e first next ws)
    (pieces : stmtPieces c.options level st = exprPieces c.options level e ++ more)
    (tail : ∀ k, k.isFinal = true → Continues c.layout k (c.text more) ws')
    (code : ∀ k, k.isFinal = true → Word.last k ws' ≠ .comment) :
    StmtSpelled c level st first (ws ++ ws') where
  phrase := by
    rw [Setting.text, pieces, chars_append]
    exact h.phrase.append fun k => tail _ (h.final k)
  opens := by
    rw [h.phrase.next_append]
    exact (Kind.kinds_of_begins h.begins).1
  ifs same := by
    rw [h.phrase.next_append] at same
    exact absurd same (Kind.kinds_of_begins h.begins).2
  code k := by
    rw [Word.last_append]
    exact code _ (h.final k)

def Expr.setTo (target : Expr) (operator : Kind) (value : Expr) (range : Range) : Stmt :=
  match target with
  | .dotted object name _ => .setDotted object name operator value range
  | .indexed object index _ => .setIndexed object index operator value range
  | target => .expression target

def Expr.isPlace (e : Expr) : Bool := e.outline = .dotted || e.outline = .indexed

namespace Expr

variable {e' value value' : Expr} {range range' : Range}

theorem isPlace_cases (h : e.isPlace = true) :
    (∃ object name span, e = .dotted object name span) ∨
      ∃ object index span, e = .indexed object index span := by
  cases e <;> first | exact .inl ⟨_, _, _, rfl⟩ | exact .inr ⟨_, _, _, rfl⟩ | cases h

theorem isAccess_of_isPlace (h : e.isPlace = true) : e.isAccess = true := by
  rcases isPlace_cases h with ⟨_, _, _, rfl⟩ | ⟨_, _, _, rfl⟩ <;> rfl

theorem stmtPieces_setTo (h : e.isPlace = true) (o : Options) (level : Nat) :
    stmtPieces o level (e.setTo operator value range) =
      exprPieces o level e ++ (operatorPieces operator ++ exprPieces o level value) := by
  rcases isPlace_cases h with ⟨_, _, _, rfl⟩ | ⟨_, _, _, rfl⟩ <;>
    simp [setTo, stmtPieces, exprPieces]

theorem fits_setTo (h : e.isPlace = true) (o : Options) (room : Nat) :
    (e.setTo operator value range).fits o room = (e.fits o room && deeper (value.fits o) room) := by
  rcases isPlace_cases h with ⟨_, _, _, rfl⟩ | ⟨_, _, _, rfl⟩ <;> rfl

theorem bare_setTo (h : e.isPlace = true) (target : e'.bare = e.bare)
    (assigned : value'.bare = value.bare) :
    (e'.setTo operator value' range').bare = (e.setTo operator value range).bare := by
  rcases isPlace_cases h with ⟨_, _, _, rfl⟩ | ⟨_, _, _, rfl⟩ <;>
    cases e' <;> simp [Expr.bare] at target <;> simp [setTo, Stmt.bare, target, assigned]

end Expr

theorem Parser.Yields.setStatement {P : Expr → Prop} (place : target.isPlace = true)
    (value : Yields g.expression room ws w P) :
    Yields (Parser.setStatement g target) room (.mark operator :: ws) w fun st =>
      ∃ e range, st = target.setTo operator e range ∧ P e := by
  have assigned : Yields (assignedValue g) room (.mark operator :: ws) w fun p =>
      p.1 = operator ∧ P p.2 :=
    Yields.kind.bind fun k hk => Yields.advance.bind fun _ _ => value.bind fun e he =>
      .pure ⟨hk, he⟩
  rcases Expr.isPlace_cases place with ⟨_, _, _, rfl⟩ | ⟨_, _, _, rfl⟩ <;>
    exact assigned.bind fun p hp => .pure ⟨p.2, _, by rw [← hp.1]; rfl, hp.2⟩

theorem setStatement_copied (h : Recovers c g) {t : State} (left : OperandCopied c target s t)
    (leads : s.kind.leadsOperand = true) (assigns : t.kind.isAssignment = true) (sound : Sound c t)
    (nesting : t.nesting = s.nesting) (name : ∀ x, target ≠ .var x)
    (run : Reads (setStatement g target) t st s') : WholeCopied c st s s' := by
  obtain ⟨value, range, read, place, rfl⟩ : ∃ value range, Reads g.expression (t.drop 1) value s' ∧
      target.isPlace = true ∧ st = target.setTo t.kind value range := by
    obtain ⟨value, range, read, ⟨x, same, _⟩ | ⟨_, _, _, rfl, rfl⟩ | ⟨_, _, _, rfl, rfl⟩⟩ :=
      run.setStatement_inv
    · exact absurd same (name x)
    · exact ⟨value, range, read, rfl, rfl⟩
    · exact ⟨value, range, read, rfl, rfl⟩
  have copy := h.expression (sound.drop 1) read
  refine ⟨?_, fun exact => ?_, fun level room fits => ?_⟩
  · rcases Expr.isPlace_cases place with ⟨_, _, _, rfl⟩ | ⟨_, _, _, rfl⟩ <;> rfl
  · have fits := copy.fits exact
    rw [State.nesting_drop, nesting] at fits
    rw [Expr.fits_setTo place, left.copied.fits exact, fits]
    rfl
  · rw [Expr.fits_setTo place, Bool.and_eq_true] at fits
    obtain ⟨ws, spelled, yields⟩ := left.copied.written level room fits.1
    obtain ⟨ws', spelled', yields'⟩ := copy.written level room fits.2
    refine ⟨ws ++ .mark t.kind :: ws', .of_operand spelled (Expr.stmtPieces_setTo place _ _)
      (fun k final => .assigned spelled' assigns (Kind.ne_comment_of_isFinal final))
      (fun k _ => Kind.ne_comment_of_isFinal (spelled'.final _)), fun m w le ends => ?_⟩
    rw [List.append_assoc]
    refine spelled.statementBody left.operand leads (.inl (Expr.isAccess_of_isPlace place))
      (yields m _ le (.of_eq rfl)) fun target' echo => ?_
    have place' : target'.isPlace = true := by
      rw [Expr.isPlace, echo.outline]
      exact place
    refine Yields.kind.bind fun k hk => ?_
    obtain rfl : k = t.kind := hk
    rw [if_pos assigns]
    refine (Yields.setStatement place' (yields' m w le (ends.follow _))).mono ?_
    rintro _ ⟨value', range', rfl, echo'⟩
    refine ⟨?_, fun exact => Expr.bare_setTo place (echo.bare exact) (echo'.bare exact)⟩
    rcases Expr.isPlace_cases place' with ⟨_, _, _, rfl⟩ | ⟨_, _, _, rfl⟩ <;> rfl

theorem Continues.step {l : Layout} {k' : Kind} (steps : k' = .plusPlus ∨ k' = .minusMinus)
    (final : k.isFinal = true) : Continues l k k'.label.toList [.mark k'] := by
  have kinds : k'.isFixed = true ∧ k'.isSecond = false := by
    rcases steps with rfl | rfl <;> decide
  refine (Phrase.mark kinds.1).continues (fun rest => ?_) (Kind.combine?_eq_none kinds.2 k)
    (fun _ => Word.isPoint_mark kinds.1) (Kind.ne_comment_of_isFinal final)
  unfold Apart
  rcases Kind.boundary_of_isFinal final with boundary | boundary <;> rw [boundary]
  · trivial
  · rcases steps with rfl | rfl <;> exact ⟨rfl, rfl, rfl, rfl⟩

theorem increment_copied {range : Range} {t : State} (left : OperandCopied c target s t)
    (leads : s.kind.leadsOperand = true) (steps : t.kind = .plusPlus ∨ t.kind = .minusMinus) :
    WholeCopied c (.increment target t.kind range) s (t.drop 1) := by
  refine ⟨rfl, left.copied.fits, fun level room fits => ?_⟩
  obtain ⟨ws, spelled, yields⟩ := left.copied.written level room fits
  have mark : ∀ k : Kind, k.isFinal = true →
      Continues c.layout k (c.text [.text t.kind.label]) [.mark t.kind] := by
    intro k final
    have text : c.text [.text t.kind.label] = t.kind.label.toList := by simp [Piece.render]
    rw [text]
    exact .step steps final
  have kinds : t.kind.isAssignment = false ∧ t.kind ≠ .colon ∧ t.kind ≠ .comment := by
    rcases steps with steps | steps <;> rw [steps] <;> decide
  refine ⟨ws ++ [.mark t.kind], .of_operand spelled (by rw [stmtPieces]) mark
    (fun _ _ => by simpa using kinds.2.2), fun m w le _ => ?_⟩
  rw [List.append_assoc]
  refine spelled.statementBody left.operand leads (v := .mark t.kind :: w)
    (.inr ⟨kinds.1, kinds.2.1⟩) (yields m _ le (.of_eq rfl)) fun target' echo => ?_
  refine Yields.kind.bind fun k hk => ?_
  obtain rfl : k = t.kind := hk
  have step : (t.kind = .plusPlus || t.kind = .minusMinus) = true := by
    simpa using steps
  simp only [kinds.1, Bool.false_eq_true, if_false, step, if_true]
  refine Yields.token.bind fun u hu => Yields.advance.bind fun _ _ =>
    .pure ⟨rfl, fun exact => ?_⟩
  have same : u.kind = t.kind := by rw [← Token.kind_word, hu, Word.kind_mark]
  rw [Stmt.bare, Stmt.bare, echo.bare exact, same]

theorem Expr.isCall_of_outline (outline : e.outline = .call) (plain : e.isConditional = false) :
    e.isCall = true := by
  cases e <;> simp_all [Expr.outline, Expr.isConditional, Expr.isCall]

theorem call_copied {t : State} (left : OperandCopied c target s t)
    (leads : s.kind.leadsOperand = true) (call : target.isCall = true) :
    WholeCopied c (.expression target) s t := by
  refine ⟨rfl, left.copied.fits, fun level room fits => ?_⟩
  obtain ⟨ws, spelled, yields⟩ := left.copied.written level room fits
  have shape : target.isAccess = true ∧ target.outline = .call := by
    cases target <;> first | exact ⟨rfl, rfl⟩ | cases call
  have pieces : stmtPieces c.options level (.expression target) =
      exprPieces c.options level target ++ [] := by simp [stmtPieces]
  refine ⟨ws ++ [], .of_operand spelled pieces (fun _ _ => .nil)
    (fun _ final => Kind.ne_comment_of_isFinal final), fun m w le ends => ?_⟩
  obtain ⟨_, assigns, operator, other, plus, minus⟩ := Kind.kinds_of_endsItems ends.endsItems
  rw [List.append_nil]
  refine spelled.statementBody left.operand leads (.inl shape.1)
    ((yields m w le (ends.follow _)).and operand_plain) fun target' ⟨echo, plain⟩ => ?_
  have call' := Expr.isCall_of_outline (echo.outline.trans shape.2) plain
  refine Yields.kind.bind fun k hk => ?_
  subst hk
  simp only [assigns, operator, other, plus, minus, decide_false, Option.isSome_none, Bool.or_self,
    Bool.false_eq_true, if_false, callStatement, call', if_true]
  exact .pure ⟨rfl, fun exact => by rw [Stmt.bare, Stmt.bare, echo.bare exact]⟩

theorem expressionStatement_copied (h : Recovers c g) (run : Reads (expressionStatement g) s st s')
    (leads : s.kind.leadsOperand = true)
    (other : s.kind.isWord = true → (s.drop 1).kind.isAssignment = false) (sound : Sound c s) :
    WholeCopied c st s s' := by
  obtain ⟨target, t, read, set | step | call⟩ := run.expressionStatement_inv
  · have left := operand_copied h read sound
    refine setStatement_copied h left leads set.1 (sound.reads read) read.advances.nesting
      (fun x var => ?_) set.2
    subst var
    obtain ⟨name, rfl⟩ := operand_var read
    rw [other (by rw [name]; rfl)] at set
    cases set.1
  · obtain ⟨steps, ⟨range, rfl⟩, rfl⟩ := step
    exact increment_copied (operand_copied h read sound) leads steps
  · obtain ⟨_, _, _, _, _, call, rfl, rfl⟩ := call
    exact call_copied (operand_copied h read sound) leads call

theorem StmtSpelled.of_keyword {more : List Char} (fixed : (k.isFixed && k.opens) = true)
    (same : k = .if_ → first.kind = .if_)
    (text : c.text (stmtPieces c.options level st) = k.label.toList ++ more)
    (tail : Continues c.layout k more ws) (code : Word.last k ws ≠ .comment) :
    StmtSpelled c level st first (.mark k :: ws) := by
  rw [Bool.and_eq_true] at fixed
  refine ⟨?_, fixed.2, same, fun _ => code⟩
  rw [text]
  exact (Phrase.mark fixed.1).append fun _ => tail

theorem keywordStatement_copied {node : Range → Stmt} (run : Reads (keywordStatement node) s st s')
    (keyword : (k.isFixed && k.opens && k.isKeyword && k ≠ .if_ && k ≠ .comment) = true)
    (dispatch : ∀ g, byKeyword g k = keywordStatement node)
    (pieces : ∀ o level range, stmtPieces o level (node range) = [.text k.label])
    (fits : ∀ o range room, (node range).fits o room = true)
    (bare : ∀ range, (node range).bare = node .nowhere)
    (statement : ∀ range, (node range).isComment = false) : WholeCopied c st s s' := by
  obtain ⟨rfl, rfl⟩ := run.keywordStatement_inv
  simp only [Bool.and_eq_true, decide_eq_true_eq] at keyword
  obtain ⟨⟨⟨fixed, isKeyword⟩, other⟩, code⟩ := keyword
  refine ⟨statement _, fun _ => fits _ _ _, fun level room _ => ⟨[.mark k], ?_, ?_⟩⟩
  · have text : c.text (stmtPieces c.options level (node s.range)) = k.label.toList ++ [] := by
      rw [pieces]
      simp [Piece.render]
    exact .of_keyword (by simpa using fixed) (fun same => absurd same other) text .nil code
  · intro m w le ends
    refine Yields.statementBody_keyword isKeyword (Kind.kinds_of_endsItems ends.endsItems).2.1 ?_
    rw [dispatch]
    refine Yields.here.bind fun range _ => Yields.advance.bind fun _ _ =>
      .pure ⟨statement _, fun _ => ?_⟩
    rw [bare, bare]

theorem gotoStatement_copied (run : Reads gotoStatement s st s') (sound : Sound c s) :
    WholeCopied c st s s' := by
  obtain ⟨label, range, rfl, declared, rfl⟩ := run.gotoStatement_inv
  obtain ⟨name, _⟩ := reads_declaredName declared (sound.drop 1)
  refine ⟨rfl, fun _ => rfl, fun level room _ => ⟨[.mark .goto, (s.drop 1).token.word], ?_, ?_⟩⟩
  · have text : c.text (stmtPieces c.options level (.goto label range)) =
        Kind.goto.label.toList ++ (' ' :: label.name.toList) := by
      have word : "goto ".toList = Kind.goto.label.toList ++ [' '] := by decide +kernel
      simp [stmtPieces, Piece.render, word]
    exact .of_keyword rfl (fun same => by cases same) text ((name.phrase _).after_loose rfl)
      name.genuine.code
  · intro m w le _
    refine Yields.statementBody_keyword rfl ?_ ?_
    · exact (congrArg Kind.isAssignment name.kind).trans rfl
    · refine Yields.here.bind fun _ _ => Yields.advance.bind fun _ _ => name.yields.bind
        fun label' same => .pure ⟨rfl, fun _ => ?_⟩
      rw [Stmt.bare, Stmt.bare, Ident.bare, same]
      rfl

theorem labelStatement_copied (run : Reads labelStatement s st s') (label : s.atLabel = true)
    (sound : Sound c s) : WholeCopied c st s s' := by
  obtain ⟨rfl, rfl⟩ := run.labelStatement_inv
  simp only [State.atLabel, Bool.and_eq_true, decide_eq_true_eq, Bool.or_eq_true] at label
  obtain ⟨⟨name, _⟩, line⟩ := label
  have ended : (s.drop 2).kind.endsLine = true := by
    have same : (s.drop 2).kind = s.kindAt 2 := by
      rw [State.kind_eq_next, State.words_drop, State.kindAt_eq_next]
    rw [same]
    rcases line with (line | line) | line <;> rw [line] <;> rfl
  have genuine := sound.genuine_word (by rw [name]; rfl)
  have word : s.token.word.kind = .identifier := name
  refine ⟨rfl, fun _ => rfl, fun level room _ => ⟨[s.token.word, .mark .colon], ⟨?_, ?_, ?_, ?_⟩, ?_⟩⟩
  · have text : c.text (stmtPieces c.options level (.label ⟨s.token.text, s.token.range⟩)) =
        s.token.word.text.toList ++ ":".toList := by
      simp [stmtPieces, Piece.render]
    rw [text]
    exact (Phrase.word genuine).append fun _ => .mark .colon rfl genuine.code
  · rw [Word.next_cons, word]
    rfl
  · exact fun same => same
  · exact fun _ => Kind.noConfusion
  · intro m w le ends
    have alone : Word.next w = .newline ∨ Word.next w = .endOfFile ∨ Word.next w = .comment := by
      simpa [Kind.endsLine, or_assoc] using ends.endsLine ended
    refine Yields.atTarget.bind fun b target => ?_
    obtain rfl : b = false := by simp [target, Kind.isAssignment]
    refine Yields.atLabel.bind fun b label => ?_
    obtain rfl : b = true := by
      have word' : s.token.kind = .identifier := name
      simpa [label, word', or_assoc] using alone
    refine Yields.takeIdent.bind fun x same => Yields.advance.bind fun _ _ =>
      .pure ⟨rfl, fun _ => ?_⟩
    rw [Stmt.bare, Stmt.bare, Ident.bare, same]
    rfl

theorem Kind.not_endsItems_of_begins (h : k.begins = true) :
    endsItems k = false ∧ k.isAssignment = false ∧ k ≠ .semicolon ∧ k ≠ .comma := by
  revert h
  cases k <;> decide

theorem Parser.Yields.returnStatement {P : Expr → Prop} (begins : (Word.next ws).begins = true)
    (value : Yields g.expression room ws w P) :
    Yields (Parser.statementBody g) room (.mark .return_ :: ws) w fun st =>
      ∃ e range, st = .returns (some e) range ∧ P e := by
  obtain ⟨more, plain, _⟩ := Kind.not_endsItems_of_begins begins
  refine Yields.statementBody_keyword rfl plain ?_
  refine Yields.ranged (Yields.advance.bind fun _ _ => Yields.kind.bind fun k hk => ?_)
  subst hk
  simp only [more, Bool.false_eq_true, if_false]
  refine (value.map (R := fun v => ∃ e, v = some e ∧ P e) fun e he => ⟨e, rfl, he⟩).bind
    fun v hv => ?_
  obtain ⟨e, rfl, holds⟩ := hv
  exact .pure fun range => ⟨e, range, rfl, holds⟩

theorem returnStatement_copied (h : Recovers c g) (run : Reads (returnStatement g) s st s')
    (sound : Sound c s) : WholeCopied c st s s' := by
  obtain ⟨value, range, rfl, ⟨_, rfl, rfl⟩ | ⟨_, e, rfl, read⟩⟩ := run.returnStatement_inv
  · refine ⟨rfl, fun _ => rfl, fun level room _ => ⟨[.mark .return_], ?_, fun m w le ends => ?_⟩⟩
    · have text : c.text (stmtPieces c.options level (.returns none range)) =
          Kind.return_.label.toList ++ [] := by
        have word : Kind.return_.label = "return" := rfl
        simp [stmtPieces, Piece.render, word]
      exact .of_keyword rfl (fun same => by cases same) text .nil (by decide)
    · rw [List.singleton_append]
      refine Yields.statementBody_keyword rfl (Kind.kinds_of_endsItems ends.endsItems).2.1 ?_
      refine Yields.ranged (Yields.advance.bind fun _ _ => Yields.kind.bind fun k hk => ?_)
      subst hk
      simp only [ends.endsItems, if_true]
      exact (Yields.pure rfl).bind fun v hv => .pure fun range' => ⟨rfl, fun _ => by rw [hv]; rfl⟩
  · have copy := h.expression (sound.drop 1) read
    refine ⟨rfl, copy.fits, fun level room fits => ?_⟩
    obtain ⟨ws, spelled, yields⟩ := copy.written level room fits
    refine ⟨.mark .return_ :: ws, ?_, fun m w le ends => ?_⟩
    · have text : c.text (stmtPieces c.options level (.returns (some e) range)) =
          Kind.return_.label.toList ++ (' ' :: c.text (exprPieces c.options level e)) := by
        have word : "return".toList = Kind.return_.label.toList := rfl
        simp [stmtPieces, Piece.render, toList_space, word]
      exact .of_keyword rfl (fun same => by cases same) text (spelled.phrase.after_loose rfl)
        (Kind.ne_comment_of_isFinal (spelled.final _))
    · have begins : (Word.next (ws ++ w)).begins = true := by
        rw [spelled.phrase.next_append, spelled.begins]
      refine (Yields.returnStatement begins (yields m w le (ends.follow _))).mono ?_
      rintro _ ⟨e', range', rfl, echo⟩
      exact ⟨rfl, fun exact => by rw [Stmt.bare, Stmt.bare, optionBare, echo.bare exact]; rfl⟩

/-- The items that are read from `s` up to `s'`, written after a word of kind `k`. -/
structure ItemsCopied (c : Setting) (items : List (PrintItem Expr)) (s s' : State) : Prop where
  fits : c.exact → itemsFit c.options items (maxNesting - s.nesting) = true
  written : ∀ level room, itemsFit c.options items room = true → ∃ ws,
    (∀ k, k ≠ .comment → (Joins k s.token ∨ k = .rightParen ∧ pointFollows items = false) →
      Continues c.layout k (c.text (itemsPieces c.options level items)) ws ∧
        Word.last k ws ≠ .comment) ∧
    ∀ m w, room ≤ m → Ends s'.kind w → Follow s.kind (ws ++ w) ∧
      (Word.next (ws ++ w)).isAssignment = false ∧
      Yields (many (printRound (unroll m))) room (ws ++ w) w
        fun items' => c.exact → itemsBare items' = itemsBare items

theorem Parser.Yields.printRound_none (ends : endsItems (Word.next w) = true) :
    Yields (printRound g) room w w (· = none) := by
  refine Yields.kind.bind fun k hk => ?_
  subst hk
  simp only [ends, if_true]
  exact .pure rfl

theorem Parser.Yields.printRound_separator (separates : k = .semicolon ∨ k = .comma) :
    Yields (printRound g) room (.mark k :: w) w fun r => ∃ found, r = some found ∧
      found = [.separator k] := by
  refine Yields.kind.bind fun k' hk => ?_
  obtain rfl : k' = k := hk
  rcases separates with rfl | rfl <;> exact Yields.advance.bind fun _ _ => .pure ⟨_, rfl, rfl⟩

theorem Parser.Yields.printRound_expression {P : Expr → Prop}
    (begins : (Word.next ws).begins = true) (value : Yields g.expression room ws w P) :
    Yields (printRound g) room ws w fun r => ∃ found, r = some found ∧
      ∃ e, found = [.expression e] ∧ P e := by
  obtain ⟨more, _, semicolon, comma⟩ := Kind.not_endsItems_of_begins begins
  refine Yields.kind.bind fun k hk => ?_
  subst hk
  simp only [more, semicolon, comma, decide_false, Bool.or_self, Bool.false_eq_true, if_false]
  exact value.bind fun e he => .pure ⟨_, rfl, e, rfl, he⟩

namespace ItemsCopied

variable {items : List (PrintItem Expr)} {t : State}

theorem separator (h : ItemsCopied c items (s.drop 1) s')
    (separates : s.kind = .semicolon ∨ s.kind = .comma) :
    ItemsCopied c (.separator s.kind :: items) s s' where
  fits exact := h.fits exact
  written level room fits := by
    obtain ⟨ws, spelled, yields⟩ := h.written level room fits
    have kinds : (s.kind.isFixed && !s.kind.isSecond &&
        Text.startsWith Text.isGap s.kind.label.toList) = true ∧ s.kind.isLoose = true ∧
        s.kind ≠ .comment ∧ s.kind.isAssignment = false := by
      rcases separates with same | same <;> rw [same] <;> decide +kernel
    obtain ⟨gap, loose, code, plain⟩ := kinds
    refine ⟨.mark s.kind :: ws, fun k other _ => ?_, fun m w le ends => ⟨.of_eq rfl, plain, ?_⟩⟩
    · have text : c.text (itemsPieces c.options level (.separator s.kind :: items)) =
          s.kind.label.toList ++ c.text (itemsPieces c.options level items) := by
        simp [itemsPieces, Piece.render]
      rw [text]
      obtain ⟨continues, last⟩ := spelled s.kind code (.inl (.of_loose loose _))
      exact ⟨(Continues.mark s.kind gap other).append continues, last⟩
    · refine Yields.many_cons (.printRound_separator separates) (by simp)
        (yields m w le ends).2.2 ?_
      rintro _ items' rfl bare exact
      simp [itemsBare, bare exact]

theorem expression (h : ItemsCopied c items t s') (nesting : t.nesting = s.nesting)
    (copy : Copied c (fun m => (unroll m).expression) (deeper (e.fits c.options)) e s t)
    (plain : c.exact → e.isConditional = false) :
    ItemsCopied c (.expression e :: items) s s' where
  fits exact := by
    have rest := h.fits exact
    rw [nesting] at rest
    rw [itemsFit, copy.fits exact, plain exact, rest]
    rfl
  written level room fits := by
    simp only [itemsFit, Bool.and_eq_true, Bool.not_eq_true'] at fits
    obtain ⟨⟨fits, apart⟩, rest⟩ := fits
    obtain ⟨ws, spelled, yields⟩ := copy.written level room fits
    obtain ⟨ws', spelled', yields'⟩ := h.written level room rest
    refine ⟨ws ++ ws', fun k code before => ?_, fun m w le ends => ?_⟩
    · have text : c.text (itemsPieces c.options level (.expression e :: items)) =
          ' ' :: c.text (exprPieces c.options level e) ++
            c.text (itemsPieces c.options level items) := by
        simp [itemsPieces, Piece.render, toList_space]
      rw [text, Word.last_append]
      have loose : Kind.combine? k (Word.next ws) = none ∧
          (Scan.endsOperand (some k) = true → Word.startsWithPoint ws = false) := by
        rcases before with joins | ⟨rfl, point⟩
        · exact spelled.leads.joins joins
        · refine ⟨Kind.combine?_of_not_first rfl _, fun _ => ?_⟩
          rw [← Bool.not_eq_true]
          intro starts
          have : e.startsWithPoint = false := point
          rw [spelled.point starts] at this
          cases this
      have after : Joins (Word.last k ws) t.token ∨
          Word.last k ws = .rightParen ∧ pointFollows items = false := by
        cases conditional : e.isConditional with
        | false => exact .inl (spelled.joins conditional k)
        | true =>
          rw [conditional, Bool.true_and] at apart
          exact .inr ⟨spelled.closed conditional k, apart⟩
      obtain ⟨continues, last⟩ := spelled' _ (Kind.ne_comment_of_isFinal (spelled.final k)) after
      exact ⟨(spelled.phrase.after_space loose.1 loose.2 code).append continues, last⟩
    · obtain ⟨follow, _, more⟩ := yields' m w le ends
      rw [List.append_assoc, spelled.phrase.next_append]
      refine ⟨?_, (Kind.not_endsItems_of_begins spelled.begins).2.1, ?_⟩
      · obtain ⟨x, tail, _, rfl, _, _, ⟨same, _⟩ | name⟩ := spelled.leads
        · exact .of_eq same
        · exact .inr (by rw [List.cons_append, Word.next_cons, name]; rfl)
      · have begins : (Word.next (ws ++ (ws' ++ w))).begins = true := by
          rw [spelled.phrase.next_append, spelled.begins]
        have shorter := Word.length_lt_append spelled.phrase.nonempty (ws' ++ w)
        refine Yields.many_cons (.printRound_expression begins (yields m (ws' ++ w) le follow))
          shorter more ?_
        rintro _ items' ⟨e', rfl, echo⟩ bare exact
        simp [itemsBare, echo.bare exact, bare exact]

end ItemsCopied

theorem items_copied (h : Recovers c g) {items : List (PrintItem Expr)}
    (run : Reads (many (printRound g)) s items s') (sound : Sound c s) :
    ItemsCopied c items s s' := by
  revert sound
  refine Reads.many_induction (motive := fun items s => Sound c s → ItemsCopied c items s s')
    (fun s round sound => ?_) (fun s first t more round _ _ ih sound => ?_) run
  · obtain ⟨_, _, rfl⟩ | ⟨_, _, ⟨⟩, _⟩ | ⟨_, _, _, _, ⟨⟩, _⟩ := round.printRound_inv
    refine ⟨fun _ => rfl, fun level room _ => ⟨[], fun k code _ => ⟨.nil, code⟩, ?_⟩⟩
    intro m w le ends
    exact ⟨ends.follow _, (Kind.kinds_of_endsItems ends.endsItems).2.1,
      .many_nil (fun _ => rfl) (.printRound_none ends.endsItems)⟩
  · have rest := ih (sound.reads round)
    obtain ⟨_, ⟨⟩, _⟩ | ⟨_, separates, same, rfl⟩ | ⟨_, _, _, e, same, read⟩ := round.printRound_inv
    · cases same
      exact rest.separator separates
    · cases same
      exact rest.expression read.advances.nesting (h.expression sound read)
        fun exact => h.expressionPlain exact sound read

theorem printStatement_copied (h : Recovers c g) (run : Reads (printStatement g) s st s')
    (sound : Sound c s) : WholeCopied c st s s' := by
  obtain ⟨items, range, rfl, read⟩ := run.printStatement_inv
  have copy := items_copied h read (sound.drop 1)
  refine ⟨rfl, copy.fits, fun level room fits => ?_⟩
  obtain ⟨ws, spelled, yields⟩ := copy.written level room fits
  obtain ⟨continues, last⟩ := spelled .print (by decide) (.inl (.of_loose rfl _))
  refine ⟨.mark .print :: ws, ?_, fun m w le ends => ?_⟩
  · refine .of_keyword rfl (fun same => by cases same) ?_ continues last
    have word : "print".toList = Kind.print.label.toList := rfl
    simp [stmtPieces, Piece.render, word]
  · obtain ⟨_, plain, more⟩ := yields m w le ends
    refine Yields.statementBody_keyword rfl plain ?_
    refine Yields.ranged (Yields.advance.bind fun _ _ => more.bind fun items' bare =>
      .pure fun range' => ⟨rfl, fun exact => ?_⟩)
    rw [Stmt.bare, Stmt.bare, bare exact]

theorem functionDeclaration_copied (h : Recovers c g) (run : Reads (functionDeclaration g) s st s')
    (sound : Sound c s) : WholeCopied c st s s' := by
  obtain ⟨id, f, rfl, declared, read⟩ := run.functionDeclaration_inv
  obtain ⟨name, _⟩ := reads_declaredName declared (sound.drop 1)
  obtain ⟨isSub, copy⟩ := functionRest_copied h read (sound.drop 2)
  have same : decide ((Kind.ofFunction f.isSub) = .sub) = f.isSub := by cases f.isSub <;> rfl
  have kinds : (Kind.ofFunction f.isSub).isKeyword = true ∧
      ((Kind.ofFunction f.isSub).isFixed && (Kind.ofFunction f.isSub).opens) = true ∧
      (Kind.ofFunction f.isSub).isLoose = true ∧ Kind.ofFunction f.isSub ≠ .if_ ∧
      Kind.endOfFunction f.isSub ≠ .comment := by
    cases f.isSub <;> decide
  obtain ⟨keyword, fixed, loose, other, code⟩ := kinds
  refine ⟨rfl, copy.fits, fun level room fits => ?_⟩
  obtain ⟨ws, continues, next, last, yields⟩ := copy.written level room fits
  refine ⟨.mark (.ofFunction f.isSub) :: (s.drop 1).token.word :: ws, ?_, fun m w le ends => ?_⟩
  · have text : c.text (stmtPieces c.options level (.declare id f)) =
        (Kind.ofFunction f.isSub).label.toList ++
          ((' ' :: id.name.toList) ++ c.text (restPieces c.options level f)) := by
      rw [stmtPieces, functionPieces_some]
      simp [Piece.render, toList_space]
    refine .of_keyword fixed (fun same => absurd same other) text
      (((name.phrase _).after_loose loose).append (continues _ name.genuine.code)) ?_
    rw [Word.last_cons, last]
    exact code
  · refine Yields.statementBody_keyword keyword ?_ ?_
    · exact (congrArg Kind.isAssignment name.kind).trans rfl
    · have dispatch : byKeyword (unroll m) (.ofFunction f.isSub) = functionDeclaration (unroll m) := by
        cases f.isSub <;> rfl
      rw [dispatch]
      refine Yields.token.bind fun t ht => Yields.advance.bind fun _ _ => name.yields.bind
        fun id' sameName => ?_
      have sub : decide (t.kind = .sub) = f.isSub := by
        rw [← Token.kind_word, ht, Word.kind_mark]
        exact same
      rw [sub]
      refine (yields m w _ le (Kind.kinds_of_endsItems ends.endsItems).2.1).bind fun f' bare =>
        .pure ⟨rfl, fun exact => ?_⟩
      rw [Stmt.bare, Stmt.bare, bare exact, Ident.bare, sameName]
      rfl

end BrightScript
