import BrightScript.Proofs.Copy.Statement

/-! Copies of loops. -/
namespace BrightScript

open BrightScript.Parser BrightScript.Emit

variable {c : Setting} {g : Grammar}

theorem Parser.Yields.close {k : Kind} {construct : String} {room : Nat} {w : List Word} :
    Yields (Parser.close k construct) room (.mark k :: w) w fun _ => True := by
  refine (Yields.accept_of_eq rfl).bind fun b hb => ?_
  subst hb
  exact .pure trivial

theorem Parser.Yields.closeFor {room : Nat} {w : List Word} :
    Yields Parser.closeFor room (.mark .endFor :: w) w fun _ => True := by
  refine (Yields.accept_of_ne (by simp)).bind fun b hb => ?_
  subst hb
  exact Yields.close

theorem Kind.stops_of_endsLine {k : Kind} (h : k.endsLine = true) : k.stops = true ∧ k ≠ .step := by
  revert h
  cases k <;> decide

theorem Continues.closer (c : Setting) (level : Nat) {k k' : Kind} (fixed : k'.isFixed = true) :
    Continues c.layout k (((Piece.line level).render c.layout).toList ++ k'.label.toList)
      [.newline, .mark k'] :=
  (Continues.line c.plain level).append ((Phrase.mark fixed).after_mark rfl rfl)

section

variable {o : Options} {level : Nat} {body : Block Stmt} {range : Range}

def closedBody (o : Options) (level : Nat) (body : Block Stmt) (closer : Kind) : List Piece :=
  bodyPieces o (level + 1) body.range.start.line body.statements ++
    [.line level, .text closer.label]

theorem chars_whileLoop {condition : Expr} (l : Layout) :
    chars l (stmtPieces o level (.whileLoop condition body range)) =
      Kind.while_.label.toList ++ ((' ' :: chars l (exprPieces o level condition)) ++
        chars l (closedBody o level body .endWhile)) := by
  obtain ⟨stmts, span⟩ := body
  have word : "while ".toList = Kind.while_.label.toList ++ [' '] := by decide +kernel
  have closer : Kind.endWhile.label = "end while" := rfl
  simp [closedBody, stmtPieces, Piece.render, word, closer]

theorem chars_forLoop {counter : Ident} {first last : Expr} {step : Option Expr} (l : Layout) :
    chars l (stmtPieces o level (.forLoop counter first last step body range)) =
      Kind.for_.label.toList ++ ((' ' :: counter.name.toList) ++
        ((' ' :: Kind.equal.label.toList) ++ ((' ' :: chars l (exprPieces o level first)) ++
          ((' ' :: Kind.to_.label.toList) ++ ((' ' :: chars l (exprPieces o level last)) ++
            ((step.elim [] fun e => ' ' :: Kind.step.label.toList ++ ' ' ::
              chars l (exprPieces o level e)) ++ chars l (closedBody o level body .endFor))))))) := by
  obtain ⟨stmts, span⟩ := body
  have word : "for ".toList = Kind.for_.label.toList ++ [' '] := by decide +kernel
  have equal : " = ".toList = ' ' :: Kind.equal.label.toList ++ [' '] := by decide +kernel
  have upTo : " to ".toList = ' ' :: Kind.to_.label.toList ++ [' '] := by decide +kernel
  have stride : " step ".toList = ' ' :: Kind.step.label.toList ++ [' '] := by decide +kernel
  have closer : Kind.endFor.label = "end for" := rfl
  cases step <;> simp [closedBody, stmtPieces, Piece.render, word, equal, upTo, stride, closer]

theorem chars_forEach {item : Ident} {target : Expr} (l : Layout) :
    chars l (stmtPieces o level (.forEach item target body range)) =
      Kind.for_.label.toList ++ ((' ' :: Kind.each.label.toList) ++ ((' ' :: item.name.toList) ++
        ((' ' :: "in".toList) ++ ((' ' :: chars l (exprPieces o level target)) ++
          chars l (closedBody o level body .endFor))))) := by
  obtain ⟨stmts, span⟩ := body
  have word : "for each ".toList =
      Kind.for_.label.toList ++ ' ' :: Kind.each.label.toList ++ [' '] := by decide +kernel
  have spaced : " in ".toList = ' ' :: "in".toList ++ [' '] := rfl
  have closer : Kind.endFor.label = "end for" := rfl
  simp [closedBody, stmtPieces, Piece.render, word, spaced, closer]

end

/-- A body with the keyword that closes it. -/
theorem BlockCopied.closed {body : Block Stmt} {closers : List Kind} {depth : Nat}
    (h : BlockCopied c body closers depth) (closer : Kind) (mem : closer ∈ closers)
    (fixed : closer.isFixed = true) (level : Nat) {room : Nat} {k : Kind} (code : k ≠ .comment)
    (fits : blockFits c.options body room = true) : ∃ ws,
      Continues c.layout k (c.text (closedBody c.options level body closer)) ws ∧
      (∀ k, Word.last k ws = closer) ∧ (∀ w, (Word.next (ws ++ w)).endsLine = true) ∧
      ∀ m w, room ≤ m → (Word.next w).isAssignment = false →
        Yields (block (unroll m) closers) room (ws ++ w) (.mark closer :: w)
          fun body' => c.exact → blockBare body' = blockBare body := by
  obtain ⟨ws, continues, line, yields⟩ := h.written (level + 1) k room code fits
  refine ⟨ws ++ [.newline, .mark closer], ?_, by simp, fun w => ?_, fun m w le plain => ?_⟩
  · have text : c.text (closedBody c.options level body closer) =
        c.text (bodyPieces c.options (level + 1) body.range.start.line body.statements) ++
          (((Piece.line level).render c.layout).toList ++ closer.label.toList) := by
      simp [closedBody, Piece.render]
    rw [text]
    exact continues.append (.closer c level fixed)
  · rw [List.append_assoc]
    exact line (.mark closer :: w)
  · rw [List.append_assoc]
    exact yields m (.mark closer :: w) le (.inr ⟨mem, plain⟩)

theorem whileStatement_copied (h : Recovers c g) {st : Stmt} {s s' : State}
    (run : Reads (whileStatement g) s st s') (sound : Sound c s) :
    WholeCopied c st s s' := by
  obtain ⟨condition, body, range, t, u, rfl, read, readBody, _, rfl⟩ := run.whileStatement_inv
  have test := h.expression (sound.drop 1) read
  obtain ⟨copy, _⟩ := block_copied h (by decide) readBody ((sound.drop 1).reads read)
  refine ⟨rfl, fun exact => ?_, fun level room fits => ?_⟩
  · have fits := copy.fits exact
    rw [read.advances.nesting] at fits
    exact Bool.and_eq_true_iff.mpr ⟨test.fits exact, fits⟩
  · rw [Stmt.fits, Bool.and_eq_true] at fits
    obtain ⟨ws, spelled, yields⟩ := test.written level room fits.1
    obtain ⟨ws', continues, last, line, yields'⟩ := copy.closed .endWhile (by simp) rfl
      level (Kind.ne_comment_of_isFinal (spelled.final .while_)) fits.2
    refine ⟨.mark .while_ :: (ws ++ ws'), ?_, fun m w le ends => ?_⟩
    · refine .of_keyword rfl (fun same => by cases same) (chars_whileLoop _)
        ((spelled.phrase.after_loose rfl).append continues) ?_
      rw [Word.last_append, last]
      decide
    · rw [List.cons_append, List.append_assoc]
      refine Yields.statementBody_keyword rfl ?_ ?_
      · rw [spelled.phrase.next_append]
        exact (Kind.not_endsItems_of_begins spelled.begins).2.1
      · refine Yields.ranged (Yields.advance.bind fun _ _ =>
          (yields m _ le (.inr (Kind.stops_of_endsLine (line w)).1)).bind fun condition' echo => ?_)
        refine (yields' m w le (Kind.kinds_of_endsItems ends.endsItems).2.1).bind fun body' bare =>
          Yields.close.bind fun _ _ => .pure fun range' => ⟨rfl, fun exact => ?_⟩
        rw [Stmt.bare, Stmt.bare, echo.bare exact, bare exact]

theorem forRest_copied (h : Recovers c g) {node : Range → Stmt} {range : Range} {s s' : State}
    (run : Reads (forRest g) (s.drop 1) node s') (sound : Sound c s) :
    WholeCopied c (node range) s s' := by
  obtain ⟨counter, first, last, step, body, t, u, v, x, rfl, declared, _, readFirst, _, readLast,
    readStep, readBody, _⟩ := run.forRest_inv
  obtain ⟨name, _⟩ := reads_declaredName declared (sound.drop 1)
  have sound₁ : Sound c ((s.drop 1).drop 2) := (sound.drop 1).drop 2
  have sound₂ : Sound c (t.drop 1) := (sound₁.reads readFirst).drop 1
  have sound₃ := sound₂.reads readLast
  have copyFirst := h.expression sound₁ readFirst
  have copyLast := h.expression sound₂ readLast
  have nesting : t.nesting = s.nesting := readFirst.advances.nesting
  have nesting₂ : u.nesting = s.nesting := readLast.advances.nesting.trans nesting
  have copyStep := option_copied h rfl sound₃ readStep
  have after : Sound c v ∧ v.nesting = u.nesting := by
    rcases readStep with ⟨_, _, _, read⟩ | ⟨_, _, rfl⟩
    · exact ⟨(sound₃.drop 1).reads read, read.advances.nesting⟩
    · exact ⟨sound₃, rfl⟩
  obtain ⟨sound₄, nesting₃⟩ := after
  obtain ⟨copy, _⟩ := block_copied h (by decide) readBody sound₄
  refine ⟨rfl, fun exact => ?_, fun level room fits => ?_⟩
  · have fits₁ := copyFirst.fits exact
    have fits₂ := copyLast.fits exact
    have fits₃ := copyStep.fits exact
    have fits₄ := copy.fits exact
    simp only [State.nesting_drop, nesting, nesting₂, nesting₃] at fits₁ fits₂ fits₃ fits₄
    rw [Stmt.fits, fits₁, fits₂, fits₃, fits₄]
    rfl
  · simp only [Stmt.fits, Bool.and_eq_true] at fits
    obtain ⟨⟨⟨fits₁, fits₂⟩, fits₃⟩, fits₄⟩ := fits
    obtain ⟨ws₁, spelled₁, yields₁⟩ := copyFirst.written level room fits₁
    obtain ⟨ws₂, spelled₂, yields₂⟩ := copyLast.written level room fits₂
    obtain ⟨ws₃, spelled₃, starts₃, yields₃⟩ := copyStep.written level room fits₃
    obtain ⟨continues₃, code₃⟩ := spelled₃ _ (Kind.ne_comment_of_isFinal (spelled₂.final .to_))
    obtain ⟨ws₄, continues₄, last₄, line, yields₄⟩ := copy.closed .endFor (by decide) rfl
      level code₃ fits₄
    refine ⟨.mark .for_ :: (s.drop 1).token.word :: .mark .equal :: (ws₁ ++ .mark .to_ ::
      (ws₂ ++ (ws₃ ++ ws₄))), ?_, fun m w le ends => ?_⟩
    · refine .of_keyword rfl (fun same => by cases same) (chars_forLoop _)
        (((name.phrase _).after_loose rfl).append
          ((Continues.spaced_mark .equal rfl name.genuine.code).append
            ((spelled₁.phrase.after_loose rfl).append ((Continues.spaced_mark .to_ rfl
              (Kind.ne_comment_of_isFinal (spelled₁.final _))).append
                ((spelled₂.phrase.after_loose rfl).append (continues₃.append continues₄)))))) ?_
      simp only [Word.last_cons, Word.last_append, last₄]
      decide
    · obtain ⟨stops, other⟩ := Kind.stops_of_endsLine (line w)
      have ends₃ : (Word.next (ws₃ ++ (ws₄ ++ w))).stops = true := by
        rcases Word.next_optional starts₃ (by decide) (ws₄ ++ w) with same | same
        · rw [same, stops]
        · rw [same]
          rfl
      simp only [List.cons_append, List.append_assoc]
      refine Yields.statementBody_keyword rfl ?_ ?_
      · exact (congrArg Kind.isAssignment name.kind).trans rfl
      · refine Yields.ranged (Yields.advance.bind fun _ _ => (Yields.accept_of_ne ?_).bind
          fun b hb => ?_)
        · rw [Word.next_cons, Token.kind_word]
          intro each
          have kind : (s.drop 1).token.kind = .identifier := name.kind
          rw [kind] at each
          cases each
        subst hb
        refine name.yields.bind fun counter' same => (Yields.expect rfl).bind fun _ _ => ?_
        refine (yields₁ m _ le (.inr rfl)).bind fun first' echo₁ =>
          (Yields.expect rfl).bind fun _ _ => ?_
        refine (yields₂ m _ le (.inr ends₃)).bind fun last' echo₂ => ?_
        refine yields₃ m (ws₄ ++ w) w _ _ le other stops fun step' _ bare => ?_
        refine (yields₄ m w le (Kind.kinds_of_endsItems ends.endsItems).2.1).bind fun body' bare' =>
          Yields.closeFor.bind fun _ _ => .pure fun range' => ⟨rfl, fun exact => ?_⟩
        rw [Stmt.bare, Stmt.bare, echo₁.bare exact, echo₂.bare exact, bare exact, bare' exact,
          Ident.bare, same]
        rfl

theorem forEachRest_copied (h : Recovers c g) {node : Range → Stmt} {range : Range} {s s' : State}
    (run : Reads (forEachRest g) (s.drop 2) node s') (sound : Sound c s) :
    WholeCopied c (node range) s s' := by
  obtain ⟨item, target, body, t, u, rfl, declared, named, read, readBody, _⟩ := run.forEachRest_inv
  obtain ⟨name, _⟩ := reads_declaredName declared (sound.drop 2)
  have sound' : Sound c ((s.drop 2).drop 2) := (sound.drop 2).drop 2
  have value := h.expression sound' read
  obtain ⟨copy, _⟩ := block_copied h (by decide) readBody (sound'.reads read)
  have joins : Joins .identifier ((s.drop 2).drop 2).token := by
    have kind : ((s.drop 2).drop 1).kind = .identifier := by
      simp only [State.named, Bool.and_eq_true, decide_eq_true_eq] at named
      exact named.1
    have joins := ((sound.drop 2).drop 1).joins_at kind (by decide)
    rwa [State.drop_drop] at joins
  refine ⟨rfl, fun exact => ?_, fun level room fits => ?_⟩
  · have fits := copy.fits exact
    rw [read.advances.nesting] at fits
    exact Bool.and_eq_true_iff.mpr ⟨value.fits exact, fits⟩
  · rw [Stmt.fits, Bool.and_eq_true] at fits
    obtain ⟨ws, spelled, yields⟩ := value.written level room fits.1
    obtain ⟨ws', continues, last, line, yields'⟩ := copy.closed .endFor (by decide) rfl
      level (Kind.ne_comment_of_isFinal (spelled.final .identifier)) fits.2
    obtain ⟨single, point⟩ := spelled.leads.joins joins
    have within : (⟨.identifier, "in", none⟩ : Word).Genuine :=
      .of_readsBack (by decide +kernel) (by decide)
    refine ⟨.mark .for_ :: .mark .each :: (s.drop 2).token.word :: ⟨.identifier, "in", none⟩ ::
      (ws ++ ws'), ?_, fun m w le ends => ?_⟩
    · refine .of_keyword rfl (fun same => by cases same) (chars_forEach _)
        ((Continues.spaced_mark .each rfl (by decide)).append
          (((name.phrase _).after_loose rfl).append
            (((Phrase.word within).after_space (Kind.combine?_eq_none rfl _)
              (fun _ => within.isPoint_eq_false rfl) name.genuine.code).append
              ((spelled.phrase.after_space single point (by decide)).append continues)))) ?_
      simp only [Word.last_cons, Word.last_append, last]
      decide
    · simp only [List.cons_append, List.append_assoc]
      refine Yields.statementBody_keyword rfl rfl ?_
      refine Yields.ranged (Yields.advance.bind fun _ _ => (Yields.accept_of_eq rfl).bind
        fun b hb => ?_)
      subst hb
      refine name.yields.bind fun item' same => Yields.atName.bind fun b hb => ?_
      have same' : Text.sameWord "in" "in" = true := by decide +kernel
      obtain rfl : b = true := by simp [hb, same']
      refine Yields.advance.bind fun _ _ =>
        (yields m _ le (.inr (Kind.stops_of_endsLine (line w)).1)).bind fun target' echo => ?_
      refine (yields' m w le (Kind.kinds_of_endsItems ends.endsItems).2.1).bind fun body' bare =>
        Yields.closeFor.bind fun _ _ => .pure fun range' => ⟨rfl, fun exact => ?_⟩
      rw [Stmt.bare, Stmt.bare, echo.bare exact, bare exact, Ident.bare, same]
      rfl

theorem forStatement_copied (h : Recovers c g) {st : Stmt} {s s' : State}
    (run : Reads (forStatement g) s st s') (sound : Sound c s) :
    WholeCopied c st s s' := by
  obtain ⟨node, range, rfl, ⟨_, read⟩ | ⟨_, read⟩⟩ := run.forStatement_inv
  · exact forEachRest_copied h read sound
  · exact forRest_copied h read sound

end BrightScript
