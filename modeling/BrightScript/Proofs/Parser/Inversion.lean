import BrightScript.Proofs.Parser.Reads

/-! What a run without a report is made of.
One lemma for each routine lists the runs of its parts and the tokens that it takes itself. A run
that goes on after an error has reported it, so such branches are not among them. -/
namespace BrightScript.Parser

variable {g : Grammar} {s s' : State}

/-- The next token is a name with this spelling. -/
def State.named (s : State) (word : String) : Bool :=
  s.kind = .identifier && Text.sameWord s.token.text word

/-- Past a token of this kind, if one is next. -/
def State.past (k : Kind) (s : State) : State := if s.kind = k then s.drop 1 else s

namespace Reads

variable {st : Stmt} {e : Expr} {u : Unit} {node : Range → Stmt} {closers : List Kind} {type : Ty}
  {isSub : Bool} {closer : Kind} {r : Round Expr Expr} {level : Nat} {branches : Branches}

theorem comment_inv {c : Comment} (run : Reads comment s c s') :
    c = ⟨s.token.text, s.token.range⟩ ∧ s' = s.drop 1 := by
  simp only [comment, token_bind, advance_bind, reads_pure] at run
  exact ⟨run.1.symm, run.2.symm⟩

theorem of_comment (s : State) : Reads comment s ⟨s.token.text, s.token.range⟩ (s.drop 1) := by
  simp only [comment, token_bind, advance_bind, reads_pure, and_self]

theorem commentRun_inv {c : Comment} (run : Reads commentRun s c s') :
    ∃ more, more = followingComments s.token.range (s.drop 1).rest.items ∧
      c = more.foldl joinComment ⟨s.token.text, s.token.range⟩ ∧
      s' = (s.drop 1).drop (2 * more.length) := by
  obtain ⟨_, _, first, run⟩ := reads_bind.mp run
  obtain ⟨rfl, rfl⟩ := first.comment_inv
  replace run := inspect_bind.mp run
  simp only [take_bind, reads_pure] at run
  obtain ⟨rfl, rfl⟩ := run
  exact ⟨_, rfl, rfl, rfl⟩

theorem trailingComment_inv {comments : List Stmt} (run : Reads trailingComment s comments s') :
    (s.kind ≠ .comment ∧ comments = [] ∧ s' = s) ∨
      (s.kind = .comment ∧ comments = [.comment ⟨s.token.text, s.token.range⟩] ∧
        s' = s.drop 1) := by
  simp only [trailingComment, isAt_ite, reads_bind (p := comment), reads_pure] at run
  obtain ⟨atComment, _, _, read, rfl, rfl⟩ | ⟨other, rfl, rfl⟩ := run
  · obtain ⟨rfl, rfl⟩ := read.comment_inv
    exact .inr ⟨atComment, rfl, rfl⟩
  · exact .inl ⟨other, rfl, rfl⟩

theorem finishStatement_inv {comments : List Stmt}
    (run : Reads (finishStatement st) s comments s') :
    Reads trailingComment s comments s' ∧ (s'.kind.isSeparator || closesBlock s'.kind) = true := by
  obtain ⟨_, _, trailing, rest⟩ := reads_bind.mp run
  rw [kind_bind] at rest
  split at rest
  · rename_i ends
    obtain ⟨rfl, rfl⟩ := reads_pure.mp rest
    exact ⟨trailing, ends⟩
  · simp [reads_bind] at rest

theorem codeRound_inv {r : Option (List Stmt)} (unmarked : s.discard = false)
    (run : Reads (codeRound g closers) s r s') :
    (s.closes closers = true ∧ r = none ∧ s' = s) ∨
      (s.closes closers = false ∧ ∃ st comments t, r = some (st :: comments) ∧
        Reads g.statement s st t ∧ Reads (finishStatement st) t comments s') := by
  replace run := inspect_bind.mp run
  split at run
  · obtain ⟨rfl, rfl⟩ := reads_pure.mp run
    exact .inl ⟨‹_›, rfl, rfl⟩
  · simp only [reads_bind, reads_attemptPast unmarked] at run
    obtain ⟨_, t, ⟨st, rfl, read⟩, run⟩ := run
    simp only [reads_bind, reads_pure] at run
    obtain ⟨comments, _, finish, rfl, rfl⟩ := run
    exact .inr ⟨Bool.eq_false_iff.mpr ‹_›, st, comments, t, rfl, read, finish⟩

theorem statementRound_inv {r : Option (List Stmt)} (unmarked : s.discard = false)
    (run : Reads (statementRound g closers) s r s') :
    ((s.kind = .newline ∨ s.kind = .colon) ∧ r = some [] ∧ s' = s.drop 1) ∨
      (s.kind = .endOfFile ∧ r = none ∧ s' = s) ∨
      (s.kind = .comment ∧ ∃ c, r = some [.comment c] ∧ Reads commentRun s c s') ∨
      (s.kind ≠ .newline ∧ s.kind ≠ .colon ∧ s.kind ≠ .endOfFile ∧ s.kind ≠ .comment ∧
        ((s.closes closers = true ∧ r = none ∧ s' = s) ∨
          (s.closes closers = false ∧ ∃ st comments t, r = some (st :: comments) ∧
            Reads g.statement s st t ∧ Reads (finishStatement st) t comments s'))) := by
  replace run := kind_bind.mp run
  split at run
  · simp only [advance_bind, reads_pure] at run
    obtain ⟨rfl, rfl⟩ := run
    exact .inl ⟨.inl ‹_›, rfl, rfl⟩
  · simp only [advance_bind, reads_pure] at run
    obtain ⟨rfl, rfl⟩ := run
    exact .inl ⟨.inr ‹_›, rfl, rfl⟩
  · obtain ⟨rfl, rfl⟩ := reads_pure.mp run
    exact .inr (.inl ⟨‹_›, rfl, rfl⟩)
  · simp only [reads_bind, reads_pure] at run
    obtain ⟨c, _, read, rfl, rfl⟩ := run
    exact .inr (.inr (.inl ⟨‹_›, c, rfl, read⟩))
  · exact .inr (.inr (.inr ⟨‹_›, ‹_›, ‹_›, ‹_›, codeRound_inv unmarked run⟩))

theorem block_inv {b : Block Stmt} (run : Reads (block g closers) s b s') :
    ∃ header t stmts, Reads trailingComment s header t ∧ Reads (statements g closers) t stmts s' ∧
      b = makeBlock s.range (header ++ stmts) := by
  replace run := here_bind.mp run
  simp only [reads_bind, reads_pure] at run
  obtain ⟨header, t, trailing, stmts, _, read, rfl, rfl⟩ := run
  exact ⟨header, t, stmts, trailing, read, rfl⟩

theorem declaredName_inv {x : Ident} (run : Reads declaredName s x s') :
    s.kind = .identifier ∧ isReserved s.token.text = false ∧
      x = ⟨s.token.text, s.token.range⟩ ∧ s' = s.drop 1 := by
  replace run := kind_bind.mp run
  split at run
  · rw [takeIdent_bind] at run
    split at run
    · simp [reads_bind] at run
    · split at run
      · simp [reads_bind] at run
      · rename_i free plain
        obtain ⟨rfl, rfl⟩ := reads_pure.mp run
        exact ⟨by simpa using plain, by simpa using free, rfl, rfl⟩
  · simp at run

theorem typeName_inv (run : Reads typeName s type s') :
    s.kind.isWord = true ∧ Ty.ofName? s.token.text = some type ∧ s' = s.drop 1 := by
  replace run := token_bind.mp run
  split at run
  · rename_i word
    rw [advance_bind] at run
    split at run
    · rename_i named
      obtain ⟨rfl, rfl⟩ := reads_pure.mp run
      exact ⟨word, named, rfl⟩
    · simp [reads_bind] at run
  · simp at run

theorem asType_inv {missing : Ty} (run : Reads (asType missing) s type s') :
    (s.named "as" = true ∧ Reads typeName (s.drop 1) type s') ∨
      (s.named "as" = false ∧ type = missing ∧ s' = s) := by
  replace run := inspect_bind.mp run
  split at run
  · exact .inl ⟨‹_›, advance_bind.mp run⟩
  · obtain ⟨rfl, rfl⟩ := reads_pure.mp run
    exact .inr ⟨Bool.eq_false_iff.mpr ‹_›, rfl, rfl⟩

theorem checkFallback_inv {fallback : Option Expr}
    (run : Reads (checkFallback fallback type) s u s') :
    s' = s ∧ ∀ l, fallback = some (.literal l) →
      (l.kind ≠ .invalid && !l.type.convertible type) = false := by
  unfold checkFallback at run
  split at run
  · split at run
    · simp at run
    · rename_i fits
      refine ⟨(reads_pure.mp run).2.symm, ?_⟩
      rintro _ ⟨⟩
      simpa using fits
  · rename_i other
    exact ⟨(reads_pure.mp run).2.symm, fun l same => (other l same).elim⟩

theorem option_inv {α β : Type} {p : Parser α} {opener : Kind} {f : Option α → Parser β} {b : β}
    (run : Reads (do
      let value ← if ← accept opener then some <$> p else pure none
      f value) s b s') :
    ∃ value t, ((s.kind = opener ∧ ∃ a, value = some a ∧ Reads p (s.drop 1) a t) ∨
      (s.kind ≠ opener ∧ value = none ∧ t = s)) ∧ Reads (f value) t b s' := by
  simp only [accept_ite, pure_bind, reads_bind (p := _ <$> p), reads_map] at run
  obtain ⟨opens, _, t, ⟨e, read, rfl⟩, rest⟩ | ⟨other, rest⟩ := run
  · exact ⟨some e, t, .inl ⟨opens, e, rfl, read⟩, rest⟩
  · exact ⟨none, _, .inr ⟨other, rfl, rfl⟩, rest⟩

theorem parameter_inv {p : Parameter Expr} (run : Reads (parameter g) s p s') :
    ∃ name fallback type range t u, p = ⟨name, type, fallback, range⟩ ∧
      Reads declaredName s name (s.drop 1) ∧
      (((s.drop 1).kind = .equal ∧ ∃ e, fallback = some e ∧ Reads g.expression (s.drop 2) e t) ∨
        ((s.drop 1).kind ≠ .equal ∧ fallback = none ∧ t = s.drop 1)) ∧
      Reads (asType .dynamic) t type u ∧ Reads (checkFallback fallback type) u () s' := by
  obtain ⟨_, range, inner, rfl, _⟩ := reads_ranged.mp run
  obtain ⟨name, _, readName, inner⟩ := reads_bind.mp inner
  obtain ⟨_, _, _, rfl⟩ := readName.declaredName_inv
  obtain ⟨fallback, t, value, inner⟩ := option_inv inner
  simp only [reads_bind, reads_pure] at inner
  obtain ⟨type, u, readType, _, _, check, rfl, rfl⟩ := inner
  rw [State.drop_drop] at value
  exact ⟨name, fallback, type, range, t, u, rfl, readName, value, readType, check⟩

theorem parameterRound_inv {seen : List (Parameter Expr) × Bool}
    {r : Round (List (Parameter Expr) × Bool) (List (Parameter Expr))}
    (run : Reads (parameterRound g seen) s r s') :
    ∃ p t, Reads (parameter g) s p t ∧ (p.isRequired && seen.2) = false ∧
      ((t.kind = .comma ∧ r = .again (seen.1 ++ [p], seen.2 || !p.isRequired) ∧ s' = t.drop 1) ∨
        (t.kind ≠ .comma ∧ r = .done (seen.1 ++ [p]) ∧ s' = t)) := by
  unfold parameterRound at run
  obtain ⟨p, t, read, run⟩ := reads_bind.mp run
  split at run
  · simp [reads_bind] at run
  · rename_i early
    simp only [accept_ite, reads_pure] at run
    refine ⟨p, t, read, by simpa using early, ?_⟩
    obtain ⟨comma, rfl, rfl⟩ | ⟨other, rfl, rfl⟩ := run
    · exact .inl ⟨comma, rfl, rfl⟩
    · exact .inr ⟨other, rfl, rfl⟩

theorem parameters_inv {ps : List (Parameter Expr)} (run : Reads (parameters g) s ps s') :
    ∃ t, ((s.kind = .rightParen ∧ ps = [] ∧ t = s) ∨
        (s.kind ≠ .rightParen ∧ Reads (loop (parameterRound g) ([], false)) s ps t)) ∧
      t.kind = .rightParen ∧ s' = t.drop 1 := by
  simp only [parameters, isAt_ite, pure_bind, reads_bind (p := loop _ _), expect_bind, reads_pure]
    at run
  obtain ⟨atClose, close, rfl, rfl⟩ | ⟨other, _, t, read, close, rfl, rfl⟩ := run
  · exact ⟨s, .inl ⟨atClose, rfl, rfl⟩, close, rfl⟩
  · exact ⟨t, .inr ⟨other, read⟩, close, rfl⟩

theorem closeFunction_inv (run : Reads (closeFunction isSub) s u s') :
    s.kind = (if isSub then .endSub else .endFunction) ∧ s' = s.drop 1 := by
  replace run := kind_bind.mp run
  by_cases closer : s.kind = if isSub then .endSub else .endFunction
  · have closes : closesFunction s.kind = true := by
      rw [closer]
      cases isSub <;> rfl
    rw [if_pos closer, if_pos closes] at run
    exact ⟨closer, (reads_advance.mp run).symm⟩
  · rw [if_neg closer] at run
    simp [reads_bind] at run

theorem of_closeFunction (closes : s.kind = if isSub then .endSub else .endFunction) :
    Reads (closeFunction isSub) s () (s.drop 1) := by
  have ends : closesFunction s.kind = true := by
    rw [closes]
    cases isSub <;> rfl
  refine kind_bind.mpr ?_
  rw [if_pos closes, if_pos ends]
  exact reads_advance.mpr rfl

theorem functionRest_inv {first : Range} {f : Function Expr Stmt}
    (run : Reads (functionRest g first isSub) s f s') :
    ∃ params returns body range t u v, f = ⟨isSub, params, returns, body, range⟩ ∧
      s.kind = .leftParen ∧ Reads (parameters g) (s.drop 1) params t ∧
      Reads (asType (if isSub then .void else .dynamic)) t returns u ∧
      Reads (block g functionClosers) (u.atFunctions (u.functions + 1)) body v ∧
      (v.atFunctions u.functions).kind = (if isSub then .endSub else .endFunction) ∧
      s' = (v.atFunctions u.functions).drop 1 := by
  obtain ⟨_, range, inner, rfl, _⟩ := reads_spanned.mp run
  obtain ⟨open_, inner⟩ := expect_bind.mp inner
  simp only [reads_bind, reads_inFunction, reads_pure] at inner
  obtain ⟨params, t, readParams, returns, u, readType, body, _, ⟨v, readBody, rfl⟩, _, _, closeBody,
    rfl, rfl⟩ := inner
  obtain ⟨close, rfl⟩ := closeBody.closeFunction_inv
  exact ⟨params, returns, body, range, t, u, v, rfl, open_, readParams, readType, readBody, close,
    rfl⟩

theorem argumentRound_inv {done : List Expr} {r : Round (List Expr) (List Expr)}
    (run : Reads (argumentRound g done) s r s') :
    ∃ e t, Reads g.expression s e t ∧
      (((t.skipWhile (· = .newline)).kind = .comma ∧ r = .again (done ++ [e]) ∧
          s' = ((t.skipWhile (· = .newline)).drop 1).skipWhile (· = .newline)) ∨
        ((t.skipWhile (· = .newline)).kind ≠ .comma ∧ r = .done (done ++ [e]) ∧
          s' = t.skipWhile (· = .newline))) := by
  obtain ⟨e, t, read, run⟩ := reads_bind.mp run
  simp only [skipNewlines, skipWhile_bind, accept_ite, reads_pure] at run
  obtain ⟨comma, rfl, rfl⟩ | ⟨other, rfl, rfl⟩ := run
  · exact ⟨e, t, read, .inl ⟨comma, rfl, rfl⟩⟩
  · exact ⟨e, t, read, .inr ⟨other, rfl, rfl⟩⟩

theorem arguments_inv {args : List Expr} (run : Reads (arguments g) s args s') :
    ∃ t, (((s.skipWhile (· = .newline)).kind = .rightParen ∧ args = [] ∧
          t = s.skipWhile (· = .newline)) ∨
        ((s.skipWhile (· = .newline)).kind ≠ .rightParen ∧
          Reads (loop (argumentRound g) []) (s.skipWhile (· = .newline)) args t)) ∧
      t.kind = .rightParen ∧ s' = t.drop 1 := by
  simp only [arguments, skipNewlines, skipWhile_bind, isAt_ite, pure_bind,
    reads_bind (p := loop _ _), expect_bind, reads_pure] at run
  obtain ⟨atClose, close, rfl, rfl⟩ | ⟨other, _, t, read, close, rfl, rfl⟩ := run
  · exact ⟨_, .inl ⟨atClose, rfl, rfl⟩, close, rfl⟩
  · exact ⟨t, .inr ⟨other, read⟩, close, rfl⟩

theorem separator_inv (run : Reads (separator closer) s u s') :
    (s.kind = .comma ∧ s' = s.drop 1) ∨
      (s.kind ≠ .comma ∧ (s.kind = .newline ∨ s.kind = .comment ∨ s.kind = closer) ∧ s' = s) := by
  simp only [separator, accept_ite, kind_bind, reads_pure] at run
  obtain ⟨comma, -, rfl⟩ | ⟨other, run⟩ := run
  · exact .inl ⟨comma, rfl⟩
  · split at run
    · rename_i ends
      refine .inr ⟨other, ?_, (reads_pure.mp run).2.symm⟩
      simpa [or_assoc] using ends
    · simp at run

theorem elementRound_inv {r : Option (List Expr)} (run : Reads (elementRound g) s r s') :
    let t := s.skipWhile fun k => k = .newline || k = .comment
    (t.kind = .rightSquare ∧ r = none ∧ s' = t) ∨
      (t.kind ≠ .rightSquare ∧ ∃ e u, r = some [e] ∧ Reads g.expression t e u ∧
        Reads (separator .rightSquare) u () s') := by
  simp only [elementRound, skipWhile_bind, isAt_ite, reads_pure] at run
  obtain ⟨atClose, rfl, rfl⟩ | ⟨other, run⟩ := run
  · exact .inl ⟨atClose, rfl, rfl⟩
  · simp only [reads_bind, reads_pure] at run
    obtain ⟨e, u, read, _, _, separates, rfl, rfl⟩ := run
    exact .inr ⟨other, e, u, rfl, read, separates⟩

theorem arrayLiteral_inv (run : Reads (arrayLiteral g) s e s') :
    ∃ es range t, e = .array es range ∧ Reads (many (elementRound g)) (s.drop 1) es t ∧
      t.kind = .rightSquare ∧ s' = t.drop 1 := by
  obtain ⟨_, range, inner, rfl, _⟩ := reads_ranged.mp run
  simp only [advance_bind, reads_bind (p := many _), expect_bind, reads_pure] at inner
  obtain ⟨es, t, read, close, rfl, rfl⟩ := inner
  exact ⟨es, range, t, rfl, read, close, rfl⟩

theorem memberKey_inv {key : String} {quoted : Bool} (run : Reads memberKey s (key, quoted) s') :
    s' = s.drop 1 ∧
      ((s.kind = .stringLiteral ∧ quoted = true ∧
          (s.token.value = some (.string key) ∨
            (∀ text, s.token.value ≠ some (.string text)) ∧ key = trimQuotes s.token.text)) ∨
        (s.kind ≠ .stringLiteral ∧ s.kind.isWord = true ∧ quoted = false ∧ key = s.token.text)) := by
  replace run := kind_bind.mp run
  split at run
  · rename_i string
    replace run := member_bind.mp run
    split at run
    · rename_i text value
      obtain ⟨⟨⟩, rfl⟩ := reads_pure.mp run
      exact ⟨rfl, .inl ⟨string, rfl, .inl value⟩⟩
    · rename_i other
      obtain ⟨⟨⟩, rfl⟩ := reads_pure.mp run
      exact ⟨rfl, .inl ⟨string, rfl, .inr ⟨other, rfl⟩⟩⟩
  · rename_i other
    split at run
    · rename_i word
      rw [member_bind] at run
      obtain ⟨⟨⟩, rfl⟩ := reads_pure.mp run
      exact ⟨rfl, .inr ⟨other, word, rfl, rfl⟩⟩
    · simp at run

theorem memberRound_inv {r : Option (List (Member Expr))} (run : Reads (memberRound g) s r s') :
    let t := s.skipWhile (· = .newline)
    (t.kind = .rightCurly ∧ r = none ∧ s' = t) ∨
      (t.kind = .comment ∧ r = some [.comment ⟨t.token.text, t.token.range⟩] ∧ s' = t.drop 1) ∨
      (t.kind ≠ .rightCurly ∧ t.kind ≠ .comment ∧ ∃ key quoted value range u,
        r = some [.property ⟨key, quoted, value, range⟩] ∧ Reads memberKey t (key, quoted) (t.drop 1) ∧
        (t.drop 1).kind = .colon ∧ Reads g.expression (t.drop 2) value u ∧
        Reads (separator .rightCurly) u () s') := by
  simp only [memberRound, skipNewlines, skipWhile_bind, kind_bind] at run
  split at run
  · rename_i close
    exact .inl ⟨close, (reads_pure.mp run).1.symm, (reads_pure.mp run).2.symm⟩
  · rename_i close
    split at run
    · rename_i atComment
      simp only [reads_bind, reads_pure] at run
      obtain ⟨_, _, read, rfl, rfl⟩ := run
      obtain ⟨rfl, rfl⟩ := read.comment_inv
      exact .inr (.inl ⟨atComment, rfl, rfl⟩)
    · rename_i other
      rw [here_bind] at run
      simp only [reads_bind, reads_expect, reads_pure] at run
      obtain ⟨⟨key, quoted⟩, _, readKey, _, _, ⟨colon, rfl⟩, value, u, read, _, _, separates, rfl,
        rfl⟩ := run
      obtain ⟨rfl, _⟩ := readKey.memberKey_inv
      rw [State.drop_drop] at read
      exact .inr (.inr ⟨close, other, key, quoted, value, _, u, rfl, readKey, colon, read,
        separates⟩)

theorem assocLiteral_inv (run : Reads (assocLiteral g) s e s') :
    ∃ ms range t, e = .assoc ms range ∧ Reads (many (memberRound g)) (s.drop 1) ms t ∧
      t.kind = .rightCurly ∧ s' = t.drop 1 := by
  obtain ⟨_, range, inner, rfl, _⟩ := reads_ranged.mp run
  simp only [advance_bind, reads_bind (p := many _), expect_bind, reads_pure] at inner
  obtain ⟨ms, t, read, close, rfl, rfl⟩ := inner
  exact ⟨ms, range, t, rfl, read, close, rfl⟩

theorem grouping_inv (run : Reads (grouping g) s e s') :
    ∃ inner range t, e = .group inner range ∧ Reads g.expression (s.drop 1) inner t ∧
      t.kind = .rightParen ∧ s' = t.drop 1 := by
  obtain ⟨_, range, inner, rfl, _⟩ := reads_ranged.mp run
  simp only [advance_bind, reads_bind (p := g.expression), expect_bind, reads_pure] at inner
  obtain ⟨e, t, read, close, rfl, rfl⟩ := inner
  exact ⟨e, range, t, rfl, read, close, rfl⟩

theorem anonymousFunction_inv (run : Reads (anonymousFunction g) s e s') :
    ∃ f, e = .function f ∧
      Reads (functionRest g s.token.range (s.token.kind = .sub)) (s.drop 1) f s' := by
  simp only [anonymousFunction, token_bind, advance_bind] at run
  simp only [reads_bind, reads_pure] at run
  obtain ⟨f, _, read, rfl, rfl⟩ := run
  exact ⟨f, rfl, read⟩

theorem primary_inv (run : Reads (primary g) s e s') :
    (s.kind = .identifier ∧ e = .var ⟨s.token.text, s.token.range⟩ ∧ s' = s.drop 1) ∨
      (s.kind = .leftParen ∧ Reads (grouping g) s e s') ∨
      (s.kind = .leftSquare ∧ Reads (arrayLiteral g) s e s') ∨
      (s.kind = .leftCurly ∧ Reads (assocLiteral g) s e s') ∨
      ((s.kind = .function ∨ s.kind = .sub) ∧ Reads (anonymousFunction g) s e s') ∨
      (s.kind.isLiteral = true ∧ e = .literal ⟨s.kind, s.token.text, s.token.range⟩ ∧
        s' = s.drop 1) := by
  replace run := token_bind.mp run
  split at run
  · simp only [reads_map, reads_takeIdent] at run
    obtain ⟨_, ⟨rfl, rfl⟩, rfl⟩ := run
    exact .inl ⟨‹_›, rfl, rfl⟩
  · exact .inr (.inl ⟨‹_›, run⟩)
  · exact .inr (.inr (.inl ⟨‹_›, run⟩))
  · exact .inr (.inr (.inr (.inl ⟨‹_›, run⟩)))
  · exact .inr (.inr (.inr (.inr (.inl ⟨.inl ‹_›, run⟩))))
  · exact .inr (.inr (.inr (.inr (.inl ⟨.inr ‹_›, run⟩))))
  · split at run
    · rename_i literal
      simp only [advance_bind, reads_pure] at run
      obtain ⟨rfl, rfl⟩ := run
      exact .inr (.inr (.inr (.inr (.inr ⟨literal, rfl, rfl⟩))))
    · simp at run

theorem memberAccess_inv (run : Reads (memberAccess e) s r s') :
    (s.drop 1).kind.isWord = true ∧ s' = s.drop 2 ∧
      ∃ range, r = .again (.dotted e ⟨(s.drop 1).token.text, (s.drop 1).token.range⟩ range) := by
  simp only [memberAccess, here_bind, advance_bind, kind_bind] at run
  split at run
  · rename_i word
    simp only [reads_bind, reads_memberName, reads_pure] at run
    obtain ⟨_, _, ⟨rfl, rfl⟩, rfl, rfl⟩ := run
    exact ⟨word, s.drop_drop 1 1 ▸ rfl, _, rfl⟩
  · split at run <;> simp [reads_bind] at run

theorem accessRound_inv (run : Reads (accessRound g e) s r s') :
    (s.kind = .leftParen ∧ ∃ args range, r = .again (.call e args range) ∧
        Reads (arguments g) (s.drop 1) args s') ∨
      (s.kind = .dot ∧ (s.drop 1).kind.isWord = true ∧ s' = s.drop 2 ∧
        ∃ range, r = .again (.dotted e ⟨(s.drop 1).token.text, (s.drop 1).token.range⟩ range)) ∨
      (s.kind = .leftSquare ∧ ∃ index range t, r = .again (.indexed e index range) ∧
        Reads g.expression (s.drop 1) index t ∧ t.kind = .rightSquare ∧ s' = t.drop 1) ∨
      (s.kind ≠ .leftParen ∧ s.kind ≠ .dot ∧ s.kind ≠ .leftSquare ∧ r = .done e ∧ s' = s) := by
  replace run := kind_bind.mp run
  split at run
  · obtain ⟨_, access, rfl⟩ := reads_map.mp run
    obtain ⟨_, range, inner, rfl, _⟩ := reads_spanned.mp access
    simp only [advance_bind, reads_bind (p := arguments g), reads_pure] at inner
    obtain ⟨args, _, read, rfl, rfl⟩ := inner
    exact .inl ⟨‹_›, args, range, rfl, read⟩
  · obtain ⟨word, rfl, range, rfl⟩ := run.memberAccess_inv
    exact .inr (.inl ⟨‹_›, word, rfl, range, rfl⟩)
  · obtain ⟨_, access, rfl⟩ := reads_map.mp run
    obtain ⟨_, range, inner, rfl, _⟩ := reads_spanned.mp access
    simp only [advance_bind, reads_bind (p := g.expression), expect_bind, reads_pure] at inner
    obtain ⟨index, t, read, close, rfl, rfl⟩ := inner
    exact .inr (.inr (.inl ⟨‹_›, index, range, t, rfl, read, close, rfl⟩))
  · obtain ⟨rfl, rfl⟩ := reads_pure.mp run
    exact .inr (.inr (.inr ⟨‹_›, ‹_›, ‹_›, rfl, rfl⟩))

theorem accessed_inv (run : Reads (accessed g) s e s') :
    ∃ first t, Reads (primary g) s first t ∧ Reads (loop (accessRound g) first) t e s' :=
  reads_bind.mp run

theorem binaryRound_inv {operandAt : Nat → Parser Expr} {left : Expr}
    (run : Reads (binaryRound operandAt level left) s r s') :
    (∃ p right range, s.kind.precedence? = some p ∧ level < p ∧
        Reads (operandAt p) (s.drop 1) right s' ∧
        r = .again (.binary ⟨s.kind, s.token.text⟩ left right range)) ∨
      ((∀ p, s.kind.precedence? = some p → ¬ level < p) ∧ r = .done left ∧ s' = s) := by
  replace run := token_bind.mp run
  split at run
  · rename_i p binds
    split at run
    · rename_i tighter
      simp only [advance_bind, reads_bind (p := operandAt p), reads_pure] at run
      obtain ⟨right, _, read, rfl, rfl⟩ := run
      exact .inl ⟨p, right, _, binds, tighter, read, rfl⟩
    · rename_i looser
      obtain ⟨rfl, rfl⟩ := reads_pure.mp run
      refine .inr ⟨fun q same => ?_, rfl, rfl⟩
      obtain rfl : p = q := Option.some.inj (binds.symm.trans same)
      exact looser
  · rename_i none
    obtain ⟨rfl, rfl⟩ := reads_pure.mp run
    exact .inr ⟨fun q same => (by cases none.symm.trans same), rfl, rfl⟩

theorem binaryFrom_succ_inv {operand : Parser Expr} {depth : Nat}
    (run : Reads (binaryFrom operand (depth + 1) level) s e s') :
    ∃ left t, Reads operand s left t ∧
      Reads (loop (binaryRound (binaryFrom operand depth) level) left) t e s' :=
  reads_bind.mp run

theorem operand_inv (run : Reads (operand g) s e s') :
    (isPrefixOperator s.kind = true ∧ s.nesting < maxNesting ∧ ∃ inner range t,
        e = .unary ⟨s.kind, s.token.text⟩ inner range ∧
        Reads (prefixOperand s.kind g.operand) ((s.atNesting (s.nesting + 1)).drop 1) inner t ∧
        s' = t.atNesting s.nesting) ∨
      (isPrefixOperator s.kind = false ∧ Reads (accessed g) s e s') := by
  replace run := kind_bind.mp run
  split at run
  · rename_i sign
    obtain ⟨shallow, _, inner, rfl⟩ := reads_nested.mp run
    simp only [prefixed, token_bind, advance_bind] at inner
    obtain ⟨e, t, read, last⟩ := reads_bind.mp inner
    obtain ⟨rfl, rfl⟩ := reads_pure.mp last
    exact .inl ⟨sign, shallow, e, _, t, rfl, read, rfl⟩
  · rename_i plain
    exact .inr ⟨by simpa using plain, run⟩

theorem markUnsupported_inv (run : Reads markUnsupported s u s') : s' = s := by
  obtain ⟨same, quiet⟩ := reads_update.mp run
  unfold State.markUnsupported at same
  split at same
  · rw [← same] at quiet
    exact absurd quiet (s.report_ne _ _)
  · exact same.symm

theorem conditionalRest_inv {test : Expr} (run : Reads (conditionalRest g test) s e s') :
    (s.kind = .questionMark ∧ Reads markUnsupported s () s ∧ ∃ consequent alternate range t,
        e = .conditional test consequent alternate range ∧
        Reads g.expression (s.drop 1) consequent t ∧ t.kind = .colon ∧
        Reads g.expression (t.drop 1) alternate s') ∨
      (s.kind ≠ .questionMark ∧ e = test ∧ s' = s) := by
  simp only [conditionalRest, isAt_ite, reads_bind (p := markUnsupported), advance_bind, expect_bind,
    reads_bind (p := g.expression), reads_pure] at run
  obtain ⟨atMark, _, _, mark, consequent, t, first, colon, alternate, _, second, rfl, rfl⟩ |
    ⟨other, rfl, rfl⟩ := run
  · obtain rfl := mark.markUnsupported_inv
    exact .inl ⟨atMark, mark, consequent, alternate, _, t, rfl, first, colon, second⟩
  · exact .inr ⟨other, rfl, rfl⟩

theorem expression_inv (run : Reads (expression g) s e s') :
    s.nesting < maxNesting ∧ ∃ test t u,
      Reads (binary (operand g) conditionalLevel) (s.atNesting (s.nesting + 1)) test t ∧
      Reads (conditionalRest g test) t e u ∧ s' = u.atNesting s.nesting := by
  obtain ⟨shallow, u, inner, rfl⟩ := reads_nested.mp run
  obtain ⟨test, t, first, second⟩ := reads_bind.mp inner
  exact ⟨shallow, test, t, u, first, second, rfl⟩

theorem assignedValue_bind {α : Type} {f : Kind × Expr → Parser α} {a : α}
    (run : Reads (assignedValue g >>= f) s a s') :
    ∃ value t, Reads g.expression (s.drop 1) value t ∧ Reads (f (s.kind, value)) t a s' := by
  obtain ⟨_, t, first, run⟩ := reads_bind.mp run
  simp only [assignedValue, kind_bind, advance_bind] at first
  simp only [reads_bind, reads_pure] at first
  obtain ⟨value, _, read, rfl, rfl⟩ := first
  exact ⟨value, _, read, run⟩

theorem assignment_inv (run : Reads (assignment g) s st s') :
    ∃ name value range, st = .assign name (s.drop 1).kind value range ∧
      Reads declaredName s name (s.drop 1) ∧ Reads g.expression (s.drop 2) value s' := by
  obtain ⟨name, _, readName, run⟩ := reads_bind.mp run
  obtain ⟨_, _, _, rfl⟩ := readName.declaredName_inv
  obtain ⟨value, _, read, run⟩ := assignedValue_bind run
  obtain ⟨rfl, rfl⟩ := reads_pure.mp run
  rw [State.drop_drop] at read
  exact ⟨name, value, _, rfl, readName, read⟩

theorem setStatement_inv {target : Expr} (run : Reads (setStatement g target) s st s') :
    ∃ value range, Reads g.expression (s.drop 1) value s' ∧
      ((∃ name, target = .var name ∧ st = .assign name s.kind value range) ∨
        (∃ object name span, target = .dotted object name span ∧
          st = .setDotted object name s.kind value range) ∨
        ∃ object index span, target = .indexed object index span ∧
          st = .setIndexed object index s.kind value range) := by
  unfold setStatement at run
  split at run
  · obtain ⟨value, _, read, run⟩ := assignedValue_bind run
    obtain ⟨rfl, rfl⟩ := reads_pure.mp run
    exact ⟨value, _, read, .inl ⟨_, rfl, rfl⟩⟩
  · obtain ⟨value, _, read, run⟩ := assignedValue_bind run
    obtain ⟨rfl, rfl⟩ := reads_pure.mp run
    exact ⟨value, _, read, .inr (.inl ⟨_, _, _, rfl, rfl⟩)⟩
  · obtain ⟨value, _, read, run⟩ := assignedValue_bind run
    obtain ⟨rfl, rfl⟩ := reads_pure.mp run
    exact ⟨value, _, read, .inr (.inr ⟨_, _, _, rfl, rfl⟩)⟩
  · simp at run

theorem callStatement_inv (run : Reads (callStatement e) s st s') :
    e.isCall = true ∧ st = .expression e ∧ s' = s := by
  unfold callStatement at run
  split at run
  · rename_i call
    exact ⟨call, (reads_pure.mp run).1.symm, (reads_pure.mp run).2.symm⟩
  · exact (not_reads_giveUp run).elim

/- An operator leaves no call, whatever it is applied to. -/
theorem binaryRest_isCall {operandAt : Nat → Parser Expr} {left : Expr}
    (other : left.isCall = false) (run : Reads (binaryRest operandAt level left) s e s') :
    e.isCall = false := by
  refine loop_induction (motive := fun left _ => left.isCall = false → e.isCall = false)
    (fun left t read other => ?_) (fun left t next u read _ _ ih _ => ih ?_) run other
  · obtain ⟨_, _, _, _, _, _, ⟨⟩⟩ | ⟨_, ⟨⟩, _⟩ := read.binaryRound_inv
    exact other
  · obtain ⟨_, _, _, _, _, _, ⟨⟩⟩ | ⟨_, ⟨⟩, _⟩ := read.binaryRound_inv
    rfl

theorem conditionalLevel_lt {k : Kind} {p : Nat} (binds : k.precedence? = some p) :
    conditionalLevel < p := by
  unfold conditionalLevel
  cases k <;> simp_all [Kind.precedence?] <;> omega

theorem conditionalRest_isCall {test : Expr} (other : test.isCall = false)
    (run : Reads (conditionalRest g test) s e s') : e.isCall = false := by
  obtain ⟨_, _, _, _, _, _, rfl, _⟩ | ⟨_, rfl, _⟩ := run.conditionalRest_inv
  · rfl
  · exact other

/- What goes on with an operator is no call, so it is not a statement either. -/
theorem expressionStatement_inv (run : Reads (expressionStatement g) s st s') :
    ∃ left t, Reads (operand g) s left t ∧
      ((t.kind.isAssignment = true ∧ Reads (setStatement g left) t st s') ∨
        ((t.kind = .plusPlus ∨ t.kind = .minusMinus) ∧
          (∃ range, st = .increment left t.kind range) ∧ s' = t.drop 1) ∨
        (t.kind.isAssignment = false ∧ t.kind ≠ .plusPlus ∧ t.kind ≠ .minusMinus ∧
          t.kind.precedence? = none ∧ t.kind ≠ .questionMark ∧
          left.isCall = true ∧ st = .expression left ∧ s' = t)) := by
  obtain ⟨left, t, read, run⟩ := reads_bind.mp run
  rw [operandRest, kind_bind] at run
  refine ⟨left, t, read, ?_⟩
  split at run
  · rename_i assigns
    exact .inl ⟨assigns, run⟩
  · rename_i assigns
    split at run
    · rename_i counts
      simp only [incrementStatement, token_bind, advance_bind, reads_pure] at run
      obtain ⟨rfl, rfl⟩ := run
      exact .inr (.inl ⟨by simpa using counts, ⟨_, rfl⟩, rfl⟩)
    · rename_i counts
      split at run
      · rename_i operates
        obtain ⟨test, u, readTest, run⟩ := reads_bind.mp run
        obtain ⟨e, v, readRest, run⟩ := reads_bind.mp run
        obtain ⟨call, _⟩ := run.callStatement_inv
        refine absurd call (Bool.not_eq_true _ ▸ ?_)
        rcases reads_loop.mp readTest with last | ⟨next, w, first, _, more⟩
        · obtain ⟨_, _, _, _, _, _, ⟨⟩⟩ | ⟨loose, ⟨⟩, rfl⟩ := last.binaryRound_inv
          obtain ⟨_, _, _, _, _, _, rfl, _⟩ | ⟨plain, _, _⟩ := readRest.conditionalRest_inv
          · rfl
          · simp only [plain, decide_false, Bool.or_false] at operates
            obtain ⟨p, binds⟩ := Option.isSome_iff_exists.mp operates
            exact absurd (conditionalLevel_lt binds) (loose p binds)
        · obtain ⟨_, _, _, _, _, _, ⟨⟩⟩ | ⟨_, ⟨⟩, _⟩ := first.binaryRound_inv
          exact conditionalRest_isCall (binaryRest_isCall rfl more) readRest
      · rename_i operates
        obtain ⟨call, rfl, rfl⟩ := run.callStatement_inv
        simp only [Bool.or_eq_true, decide_eq_true_eq, not_or, Bool.not_eq_true,
          Option.isSome_eq_false_iff, Option.isNone_iff_eq_none] at counts operates
        exact .inr (.inr ⟨by simpa using assigns, counts.1, counts.2, operates.1, operates.2, call,
          rfl, rfl⟩)

theorem printRound_inv {r : Option (List (PrintItem Expr))} (run : Reads (printRound g) s r s') :
    (endsItems s.kind = true ∧ r = none ∧ s' = s) ∨
      (endsItems s.kind = false ∧ (s.kind = .semicolon ∨ s.kind = .comma) ∧
        r = some [.separator s.kind] ∧ s' = s.drop 1) ∨
      (endsItems s.kind = false ∧ s.kind ≠ .semicolon ∧ s.kind ≠ .comma ∧
        ∃ e, r = some [.expression e] ∧ Reads g.expression s e s') := by
  replace run := kind_bind.mp run
  split at run
  · rename_i ends
    exact .inl ⟨ends, (reads_pure.mp run).1.symm, (reads_pure.mp run).2.symm⟩
  · rename_i more
    split at run
    · rename_i mark
      simp only [advance_bind, reads_pure] at run
      obtain ⟨rfl, rfl⟩ := run
      exact .inr (.inl ⟨by simpa using more, by simpa using mark, rfl, rfl⟩)
    · rename_i mark
      simp only [reads_bind, reads_pure] at run
      obtain ⟨e, _, read, rfl, rfl⟩ := run
      simp only [Bool.or_eq_true, decide_eq_true_eq, not_or] at mark
      exact .inr (.inr ⟨by simpa using more, mark.1, mark.2, e, rfl, read⟩)

theorem printStatement_inv (run : Reads (printStatement g) s st s') :
    ∃ items range, st = .print items range ∧ Reads (many (printRound g)) (s.drop 1) items s' := by
  obtain ⟨_, range, inner, rfl, _⟩ := reads_ranged.mp run
  simp only [advance_bind, reads_bind (p := many _), reads_pure] at inner
  obtain ⟨items, _, read, rfl, rfl⟩ := inner
  exact ⟨items, range, rfl, read⟩

theorem returnStatement_inv (run : Reads (returnStatement g) s st s') :
    ∃ value range, st = .returns value range ∧
      ((endsItems (s.drop 1).kind = true ∧ value = none ∧ s' = s.drop 1) ∨
        (endsItems (s.drop 1).kind = false ∧ ∃ e, value = some e ∧
          Reads g.expression (s.drop 1) e s')) := by
  obtain ⟨_, range, inner, rfl, _⟩ := reads_ranged.mp run
  simp only [advance_bind, kind_bind] at inner
  split at inner
  · rename_i ends
    rw [pure_bind] at inner
    obtain ⟨rfl, rfl⟩ := reads_pure.mp inner
    exact ⟨none, range, rfl, .inl ⟨ends, rfl, rfl⟩⟩
  · rename_i more
    simp only [reads_bind, reads_map, reads_pure] at inner
    obtain ⟨_, _, ⟨e, read, rfl⟩, rfl, rfl⟩ := inner
    exact ⟨some e, range, rfl, .inr ⟨by simpa using more, e, rfl, read⟩⟩

theorem past_inv {k : Kind} {b : Bool} (run : Reads (accept k) s b s') : s' = s.past k := by
  unfold State.past
  obtain ⟨at_k, _, rfl⟩ | ⟨other, _, rfl⟩ := reads_accept.mp run
  · rw [if_pos at_k]
  · rw [if_neg other]

theorem of_past (k : Kind) (s : State) : ∃ b, Reads (accept k) s b (s.past k) := by
  unfold State.past
  split
  · exact ⟨true, reads_accept.mpr (.inl ⟨‹_›, rfl, rfl⟩)⟩
  · exact ⟨false, reads_accept.mpr (.inr ⟨‹_›, rfl, rfl⟩)⟩

theorem elseIf_inv {e : ElseIf Expr Stmt} (run : Reads (elseIf g branches) s e s') :
    ∃ condition body range t, e = ⟨condition, body, range⟩ ∧
      Reads g.expression (s.drop 1) condition t ∧ Reads branches.body (t.past .then_) body s' := by
  obtain ⟨_, range, inner, rfl, _⟩ := reads_ranged.mp run
  rw [advance_bind] at inner
  simp only [reads_bind, reads_pure] at inner
  obtain ⟨condition, t, read, _, _, then_, body, _, readBody, rfl, rfl⟩ := inner
  obtain rfl := then_.past_inv
  exact ⟨condition, body, range, t, rfl, read, readBody⟩

theorem elseIfRound_inv {r : Option (List (ElseIf Expr Stmt))}
    (run : Reads (elseIfRound g branches) s r s') :
    (s.kind = .elseIf ∧ ∃ e, r = some [e] ∧ Reads (elseIf g branches) s e s') ∨
      (s.kind ≠ .elseIf ∧ r = none ∧ s' = s) := by
  simp only [elseIfRound, isAt_ite, reads_bind (p := elseIf _ _), reads_pure] at run
  obtain ⟨atElseIf, e, _, read, rfl, rfl⟩ | ⟨other, rfl, rfl⟩ := run
  · exact .inl ⟨atElseIf, e, rfl, read⟩
  · exact .inr ⟨other, rfl, rfl⟩

theorem ifBranches_inv {body : Block Stmt} {elseIfs : List (ElseIf Expr Stmt)}
    {elseBody : Option (Block Stmt)}
    (run : Reads (ifBranches g branches) s (body, elseIfs, elseBody) s') :
    ∃ t u, Reads branches.body s body t ∧ Reads (many (elseIfRound g branches)) t elseIfs u ∧
      ((u.kind = .else_ ∧ ∃ b, elseBody = some b ∧ Reads branches.lastBody (u.drop 1) b s') ∨
        (u.kind ≠ .else_ ∧ elseBody = none ∧ s' = u)) := by
  unfold ifBranches at run
  obtain ⟨body, t, readBody, run⟩ := reads_bind.mp run
  obtain ⟨elseIfs, u, readMore, run⟩ := reads_bind.mp run
  obtain ⟨elseBody, v, last, run⟩ := option_inv run
  simp only [reads_pure, Prod.mk.injEq] at run
  obtain ⟨⟨rfl, rfl, rfl⟩, rfl⟩ := run
  exact ⟨t, u, readBody, readMore, last⟩

theorem inlineRound_inv {done : List Stmt} {r : Round (List Stmt) (List Stmt)}
    (run : Reads (inlineRound g done) s r s') :
    ∃ st t, Reads g.statement s st t ∧
      ((t.kind = .colon ∧ endsBranch (t.drop 1).kind = true ∧ r = .done (done ++ [st]) ∧
          s' = t.drop 1) ∨
        (t.kind = .colon ∧ endsBranch (t.drop 1).kind = false ∧ r = .again (done ++ [st]) ∧
          s' = t.drop 1) ∨
        (t.kind ≠ .colon ∧ r = .done (done ++ [st]) ∧ s' = t)) := by
  obtain ⟨st, t, read, run⟩ := reads_bind.mp run
  simp only [accept_ite, kind_bind, reads_pure] at run
  refine ⟨st, t, read, ?_⟩
  obtain ⟨colon, run⟩ | ⟨other, rfl, rfl⟩ := run
  · split at run <;> rename_i ends
    · obtain ⟨rfl, rfl⟩ := reads_pure.mp run
      exact .inl ⟨colon, ends, rfl, rfl⟩
    · obtain ⟨rfl, rfl⟩ := reads_pure.mp run
      exact .inr (.inl ⟨colon, by simpa using ends, rfl, rfl⟩)
  · exact .inr (.inr ⟨other, rfl, rfl⟩)

theorem inlineBlock_inv {b : Block Stmt} (run : Reads (inlineBlock g) s b s') :
    ∃ stmts, Reads (loop (inlineRound g) []) s stmts s' ∧ b = makeBlock s.range stmts := by
  replace run := here_bind.mp run
  simp only [reads_bind, reads_pure] at run
  obtain ⟨stmts, _, read, rfl, rfl⟩ := run
  exact ⟨stmts, read, rfl⟩

theorem close_inv {construct : String} (run : Reads (close closer construct) s u s') :
    s.kind = closer ∧ s' = s.drop 1 := by
  simp only [close, accept_ite, reads_pure, not_reads_reportHere, and_false, or_false] at run
  exact ⟨run.1, run.2.2.symm⟩

theorem of_close {construct : String} (closes : s.kind = closer) :
    Reads (close closer construct) s () (s.drop 1) := by
  exact accept_ite.mpr (.inl ⟨closes, reads_pure.mpr ⟨rfl, rfl⟩⟩)

theorem inlineIf_inv {condition : Expr} (run : Reads (inlineIf g condition) s node s') :
    ∃ body elseIfs elseBody, node = .ifThen condition body elseIfs elseBody true ∧
      Reads (ifBranches g ⟨inlineBlock g, inlineBlock g⟩) s (body, elseIfs, elseBody) s' := by
  unfold inlineIf at run
  simp only [reads_bind, reads_withCleanup, reads_pure] at run
  obtain ⟨⟨body, elseIfs, elseBody⟩, _, read, rfl, rfl⟩ := run
  exact ⟨body, elseIfs, elseBody, rfl, read⟩

theorem blockIf_inv {condition : Expr} (run : Reads (blockIf g condition) s node s') :
    ∃ body elseIfs elseBody t, node = .ifThen condition body elseIfs elseBody false ∧
      Reads (ifBranches g ⟨block g ifClosers, block g [.endIf]⟩) s (body, elseIfs, elseBody) t ∧
      t.kind = .endIf ∧ s' = t.drop 1 := by
  unfold blockIf at run
  simp only [reads_bind, reads_pure] at run
  obtain ⟨⟨body, elseIfs, elseBody⟩, t, read, _, _, closed, rfl, rfl⟩ := run
  obtain ⟨closes, rfl⟩ := closed.close_inv
  exact ⟨body, elseIfs, elseBody, t, rfl, read, closes, rfl⟩

theorem ifStatement_inv (run : Reads (ifStatement g) s st s') :
    ∃ condition node range t, st = node range ∧ Reads g.expression (s.drop 1) condition t ∧
      range = ((s.lastTaken s').elim s.range fun last => s.range.union last.range) ∧
      ((opensBlock (t.past .then_).kind = true ∧
          Reads (blockIf g condition) (t.past .then_) node s') ∨
        (opensBlock (t.past .then_).kind = false ∧
          Reads (inlineIf g condition) (t.past .then_) node s')) := by
  obtain ⟨node, range, inner, rfl, spans⟩ := reads_ranged.mp run
  rw [advance_bind] at inner
  simp only [reads_bind (p := g.expression), reads_bind (p := accept _), kind_bind] at inner
  obtain ⟨condition, t, read, _, _, then_, inner⟩ := inner
  obtain rfl := then_.past_inv
  refine ⟨condition, node, range, t, rfl, read, spans, ?_⟩
  split at inner <;> rename_i opens
  · exact .inl ⟨opens, inner⟩
  · exact .inr ⟨by simpa using opens, inner⟩

theorem whileStatement_inv (run : Reads (whileStatement g) s st s') :
    ∃ condition body range t u, st = .whileLoop condition body range ∧
      Reads g.expression (s.drop 1) condition t ∧ Reads (block g [.endWhile]) t body u ∧
      u.kind = .endWhile ∧ s' = u.drop 1 := by
  obtain ⟨_, range, inner, rfl, _⟩ := reads_ranged.mp run
  rw [advance_bind] at inner
  simp only [reads_bind, reads_pure] at inner
  obtain ⟨condition, t, read, body, u, readBody, _, _, closed, rfl, rfl⟩ := inner
  obtain ⟨closes, rfl⟩ := closed.close_inv
  exact ⟨condition, body, range, t, u, rfl, read, readBody, closes, rfl⟩

theorem closeFor_inv (run : Reads closeFor s u s') :
    (s.kind = .next ∧ s' = (s.drop 1).past .identifier) ∨
      (s.kind = .endFor ∧ s' = s.drop 1) := by
  obtain ⟨next, run⟩ | ⟨-, run⟩ := accept_ite.mp run
  · simp only [reads_bind, reads_pure] at run
    obtain ⟨_, _, named, _, rfl⟩ := run
    exact .inl ⟨next, named.past_inv⟩
  · exact .inr run.close_inv

theorem forEachRest_inv (run : Reads (forEachRest g) s node s') :
    ∃ item target body t u, node = .forEach item target body ∧
      Reads declaredName s item (s.drop 1) ∧ (s.drop 1).named "in" = true ∧
      Reads g.expression (s.drop 2) target t ∧ Reads (block g forClosers) t body u ∧
      Reads closeFor u () s' := by
  unfold forEachRest at run
  obtain ⟨item, _, readName, run⟩ := reads_bind.mp run
  obtain ⟨_, _, _, rfl⟩ := readName.declaredName_inv
  replace run := inspect_bind.mp run
  split at run
  · rw [advance_bind] at run
    simp only [reads_bind, reads_pure] at run
    obtain ⟨target, t, read, body, u, readBody, _, _, closed, rfl, rfl⟩ := run
    rw [State.drop_drop] at read
    exact ⟨item, target, body, t, u, rfl, readName, ‹_›, read, readBody, closed⟩
  · simp at run

theorem forRest_inv (run : Reads (forRest g) s node s') :
    ∃ counter first last step body t u v w, node = .forLoop counter first last step body ∧
      Reads declaredName s counter (s.drop 1) ∧ (s.drop 1).kind = .equal ∧
      Reads g.expression (s.drop 2) first t ∧ t.kind = .to_ ∧
      Reads g.expression (t.drop 1) last u ∧
      ((u.kind = .step ∧ ∃ e, step = some e ∧ Reads g.expression (u.drop 1) e v) ∨
        (u.kind ≠ .step ∧ step = none ∧ v = u)) ∧
      Reads (block g forClosers) v body w ∧ Reads closeFor w () s' := by
  unfold forRest at run
  obtain ⟨counter, _, readName, run⟩ := reads_bind.mp run
  obtain ⟨_, _, _, rfl⟩ := readName.declaredName_inv
  obtain ⟨equal, run⟩ := expect_bind.mp run
  obtain ⟨first, t, readFirst, run⟩ := reads_bind.mp run
  obtain ⟨to_, run⟩ := expect_bind.mp run
  obtain ⟨last, u, readLast, run⟩ := reads_bind.mp run
  obtain ⟨step, v, readStep, run⟩ := option_inv run
  simp only [reads_bind, reads_pure] at run
  obtain ⟨body, w, readBody, _, _, closed, rfl, rfl⟩ := run
  rw [State.drop_drop] at readFirst
  exact ⟨counter, first, last, step, body, t, u, v, w, rfl, readName, equal, readFirst, to_,
    readLast, readStep, readBody, closed⟩

theorem forStatement_inv (run : Reads (forStatement g) s st s') :
    ∃ node range, st = node range ∧
      (((s.drop 1).kind = .each ∧ Reads (forEachRest g) (s.drop 2) node s') ∨
        ((s.drop 1).kind ≠ .each ∧ Reads (forRest g) (s.drop 1) node s')) := by
  obtain ⟨node, range, inner, rfl, _⟩ := reads_ranged.mp run
  refine ⟨node, range, rfl, ?_⟩
  simpa only [advance_bind, accept_ite, State.drop_drop] using inner

theorem functionDeclaration_inv (run : Reads (functionDeclaration g) s st s') :
    ∃ name f, st = .declare name f ∧ Reads declaredName (s.drop 1) name (s.drop 2) ∧
      Reads (functionRest g s.token.range (s.token.kind = .sub)) (s.drop 2) f s' := by
  simp only [functionDeclaration, token_bind, advance_bind] at run
  simp only [reads_bind, reads_pure] at run
  obtain ⟨name, _, readName, f, _, read, rfl, rfl⟩ := run
  obtain ⟨_, _, _, rfl⟩ := readName.declaredName_inv
  rw [State.drop_drop] at readName read
  exact ⟨name, f, rfl, readName, read⟩

theorem gotoStatement_inv (run : Reads gotoStatement s st s') :
    ∃ label range, st = .goto label range ∧ Reads declaredName (s.drop 1) label (s.drop 2) ∧
      s' = s.drop 2 := by
  simp only [gotoStatement, here_bind, advance_bind] at run
  simp only [reads_bind, reads_pure] at run
  obtain ⟨label, _, readName, rfl, rfl⟩ := run
  obtain ⟨_, _, _, rfl⟩ := readName.declaredName_inv
  rw [State.drop_drop] at readName ⊢
  exact ⟨label, _, rfl, readName, rfl⟩

theorem labelStatement_inv (run : Reads labelStatement s st s') :
    st = .label ⟨s.token.text, s.token.range⟩ ∧ s' = s.drop 2 := by
  simp only [labelStatement, takeIdent_bind, advance_bind, reads_pure] at run
  obtain ⟨rfl, rfl⟩ := run
  exact ⟨rfl, s.drop_drop 1 1⟩

theorem keywordStatement_inv (run : Reads (keywordStatement node) s st s') :
    st = node s.range ∧ s' = s.drop 1 := by
  simp only [keywordStatement, here_bind, advance_bind, reads_pure] at run
  exact ⟨run.1.symm, run.2.symm⟩

theorem statementBody_inv (run : Reads (statementBody g) s st s') :
    (s.kind.isWord = true ∧ (s.drop 1).kind.isAssignment = true ∧
        Reads (assignment g) s st s') ∨
      (s.atLabel = true ∧ Reads labelStatement s st s') ∨
      ((s.kind.isWord = true → (s.drop 1).kind.isAssignment = false) ∧
        Reads (byKeyword g s.kind) s st s') := by
  replace run := inspect_bind.mp run
  split at run
  · rename_i target
    simp only [State.atTarget, Bool.and_eq_true, State.kindAt_one] at target
    exact .inl ⟨target.1, target.2, run⟩
  · rename_i other
    replace run := inspect_bind.mp run
    split at run
    · exact .inr (.inl ⟨‹_›, run⟩)
    · refine .inr (.inr ⟨fun word => ?_, kind_bind.mp run⟩)
      rwa [State.atTarget, word, Bool.true_and, State.kindAt_one, Bool.not_eq_true] at other

theorem statement_inv (run : Reads (statement g) s st s') :
    s.nesting < maxNesting ∧ ∃ t,
      Reads (statementBody g) ((s.atNesting (s.nesting + 1)).withDiscard false) st t ∧
      s' = (t.withDiscard s.discard).atNesting s.nesting := by
  obtain ⟨shallow, t, dropped, rfl⟩ := reads_nested.mp run
  obtain ⟨u, inner, rfl⟩ := reads_droppable.mp dropped
  exact ⟨shallow, u, inner, rfl⟩

end Reads
end BrightScript.Parser
