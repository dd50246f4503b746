import BrightScript.Proofs.Copy.Loop

/-! Copies of `if` statements.
The branches stand on lines of their own or all on the line of the `if`. Either way a branch, its
`else if`s and its `else` are written one after the other, with a line break or a blank before each
keyword. -/
namespace BrightScript

open BrightScript.Parser BrightScript.Emit

variable {c : Setting} {g : Grammar} {s s' : State} {body : Block Stmt} {inline : Bool}
  {w : List Word} {done : List Stmt} {condition : Expr} {range : Range}
  {elseIfs : List (ElseIf Expr Stmt)} {last : Option (Block Stmt)}

/-- The statements that are read from `s` up to `s'`, with colons between them. -/
structure InlineCopied (c : Setting) (stmts : List Stmt) (s s' : State) : Prop where
  nonempty : stmts ≠ []
  fits : c.exact → stmtsFit c.options stmts (maxNesting - s.nesting) = true
  ends : s'.kind ≠ .colon
  written : ∀ level room, stmtsFit c.options stmts room = true →
    ∃ ws, Phrase c.layout (c.text (inlinePieces c.options level stmts)) ws ∧
      (Word.next ws).opens = true ∧ (Word.next ws = .if_ → s.kind = .if_) ∧
      (∀ k, Word.last k ws ≠ .comment) ∧
      ∀ m w done, room ≤ m → Ends s'.kind w → Word.next w ≠ .colon →
        Yields (loop (inlineRound (unroll m)) done) room (ws ++ w) w fun all =>
          ∃ stmts', all = done ++ stmts' ∧ (c.exact → stmtsBare stmts' = stmtsBare stmts)

theorem Parser.Yields.inlineRound_last {P : Stmt → Prop} {room : Nat} {ws : List Word}
    (h : Yields g.statement room ws w P) (other : Word.next w ≠ .colon) :
    Yields (inlineRound g done) room ws w fun r => ∃ all, r = .done all ∧
      ∃ st, all = done ++ [st] ∧ P st := by
  refine h.bind fun st hst => (Yields.accept_of_ne other).bind fun b hb => ?_
  subst hb
  exact .pure ⟨_, rfl, st, rfl, hst⟩

theorem Parser.Yields.inlineRound_colon {P : Stmt → Prop} {room : Nat} {ws : List Word}
    (h : Yields g.statement room ws (.mark .colon :: w) P) (opens : (Word.next w).opens = true) :
    Yields (inlineRound g done) room ws w fun r => ∃ all, r = .again all ∧
      ∃ st, all = done ++ [st] ∧ P st := by
  refine h.bind fun st hst => (Yields.accept_of_eq rfl).bind fun b hb => ?_
  subst hb
  refine Yields.kind.bind fun k hk => ?_
  rw [← hk] at opens
  have goesOn : endsBranch k = false := by
    cases k <;> first | rfl | cases opens
  rw [goesOn]
  exact .pure ⟨_, rfl, st, rfl, hst⟩

namespace InlineCopied

variable {st : Stmt} {stmts : List Stmt} {t : State}

theorem single
    (copy : StmtCopied c (fun m => (unroll m).statement) (deeper (st.fits c.options)) st s t)
    (other : s'.kind ≠ .colon) (same : t = s' ∨ t.kind = .colon) : InlineCopied c [st] s s' where
  nonempty := by simp
  fits exact := by
    rw [stmtsFit_cons copy.code, copy.fits exact]
    rfl
  ends := other
  written level room fits := by
    rw [stmtsFit_cons copy.code, Bool.and_eq_true] at fits
    obtain ⟨ws, spelled, yields⟩ := copy.written level room fits.1
    refine ⟨ws, spelled.phrase, spelled.opens, spelled.ifs, spelled.code,
      fun m w done le ends colon => ?_⟩
    have ends' : Ends t.kind w := by
      rcases same with rfl | same
      · exact ends
      · exact ends.imp id fun marks => ⟨marks.1, .inr same⟩
    refine (Yields.inlineRound_last (yields m w le ends') colon).loop_done.mono ?_
    rintro _ ⟨st', rfl, echo⟩
    refine ⟨[st'], rfl, fun exact => ?_⟩
    rw [stmtsBare_cons echo.code, stmtsBare_cons copy.code, echo.bare exact]

theorem cons
    (copy : StmtCopied c (fun m => (unroll m).statement) (deeper (st.fits c.options)) st s t)
    (colon : t.kind = .colon) (nesting : t.nesting = s.nesting)
    (rest : InlineCopied c stmts (t.drop 1) s') : InlineCopied c (st :: stmts) s s' where
  nonempty := by simp
  fits exact := by
    have fits := rest.fits exact
    rw [State.nesting_drop, nesting] at fits
    rw [stmtsFit_cons copy.code, copy.fits exact, fits]
    rfl
  ends := rest.ends
  written level room fits := by
    rw [stmtsFit_cons copy.code, Bool.and_eq_true] at fits
    obtain ⟨ws, spelled, yields⟩ := copy.written level room fits.1
    obtain ⟨ws', phrase', opens', _, code', yields'⟩ := rest.written level room fits.2
    refine ⟨ws ++ .mark .colon :: ws', ?_, ?_, ?_, ?_, fun m w done le ends other => ?_⟩
    · obtain ⟨st₂, stmts, rfl⟩ := List.exists_cons_of_ne_nil rest.nonempty
      have text : c.text (inlinePieces c.options level (st :: st₂ :: stmts)) =
          c.text (stmtPieces c.options level st) ++ ((' ' :: Kind.colon.label.toList) ++
            (' ' :: c.text (inlinePieces c.options level (st₂ :: stmts)))) := by
        have spaced : " : ".toList = ' ' :: Kind.colon.label.toList ++ [' '] := by decide +kernel
        simp [inlinePieces, Piece.render, spaced]
      rw [text]
      exact spelled.phrase.append fun k => (Continues.spaced_mark .colon rfl (spelled.code k)).append
        (phrase'.after_loose rfl)
    · rw [spelled.phrase.next_append, spelled.opens]
    · rw [spelled.phrase.next_append]
      exact spelled.ifs
    · intro k
      rw [Word.last_append]
      exact code' _
    · rw [List.append_assoc, List.cons_append]
      have read := yields m (.mark .colon :: (ws' ++ w)) le (.inr ⟨.inl rfl, .inl colon⟩)
      refine Yields.loop_again (Yields.inlineRound_colon read ?_) ?_ ?_
      · rw [phrase'.next_append, opens']
      · simp only [List.length_append, List.length_cons]
        omega
      · rintro _ ⟨st', rfl, echo⟩
        refine (yields' m w _ le ends other).mono ?_
        rintro _ ⟨stmts', rfl, bare⟩
        refine ⟨st' :: stmts', by simp, fun exact => ?_⟩
        rw [stmtsBare_cons echo.code, stmtsBare_cons copy.code, echo.bare exact, bare exact]

end InlineCopied

theorem inlineRound_copied (h : Recovers c g) {all : List Stmt}
    (run : Reads (loop (inlineRound g) done) s all s') (sound : Sound c s) :
    ∃ stmts, all = done ++ stmts ∧ InlineCopied c stmts s s' := by
  revert sound
  refine Reads.loop_induction (motive := fun done s => Sound c s →
    ∃ stmts, all = done ++ stmts ∧ InlineCopied c stmts s s') ?_ ?_ run
  · intro done s round sound
    obtain ⟨st, t, read, ⟨colon, ends, ⟨⟩, rfl⟩ | ⟨_, _, ⟨⟩, _⟩ | ⟨other, ⟨⟩, rfl⟩⟩ :=
      round.inlineRound_inv
    · refine ⟨[st], rfl, .single (h.statement sound read) (fun same => ?_) (.inr colon)⟩
      rw [same] at ends
      cases ends
    · exact ⟨[st], rfl, .single (h.statement sound read) other (.inl rfl)⟩
  · intro done s again u round _ _ ih sound
    obtain ⟨st, t, read, ⟨_, _, ⟨⟩, _⟩ | ⟨colon, _, ⟨⟩, rfl⟩ | ⟨_, ⟨⟩, _⟩⟩ := round.inlineRound_inv
    obtain ⟨stmts, rfl, rest⟩ := ih (sound.reads round)
    exact ⟨st :: stmts, by simp, .cons (h.statement sound read) colon read.advances.nesting rest⟩

namespace Emit

def gapPieces (inline : Bool) (level : Nat) : List Piece :=
  if inline then [.text " "] else [.line level]

def branchBody (o : Options) (inline : Bool) (level : Nat) (b : Block Stmt) : List Piece :=
  if inline then .text " " :: inlinePieces o level b.statements
  else bodyPieces o (level + 1) b.range.start.line b.statements

end Emit

def leadWords (inline : Bool) : List Word := if inline then [] else [.newline]

def Past (inline : Bool) (closers : List Kind) (k : Kind) (w : List Word) : Prop :=
  if inline then Ends k w ∧ Word.next w ≠ .colon else Closing closers w

/-- A branch that is read from `s` up to `s'`, written after `then` or `else`. -/
structure BranchCopied (c : Setting) (inline : Bool) (closers : List Kind)
    (q : Nat → Parser (Block Stmt)) (body : Block Stmt) (s s' : State) : Prop where
  fits : c.exact → blockFits c.options body (maxNesting - s.nesting) = true
  ends : inline = true → s'.kind ≠ .colon
  written : ∀ level room k, (k = .then_ ∨ k = .else_ ∧ Joins .else_ s.token) →
    blockFits c.options body room = true → ∃ ws,
      Continues c.layout k (c.text (branchBody c.options inline level body)) ws ∧
      (inline = true → Word.last k ws ≠ .comment) ∧
      (∀ w, opensBlock (Word.next (ws ++ (leadWords inline ++ w))) = !inline) ∧
      ∀ m w, room ≤ m → Past inline closers s'.kind w →
        Yields (q m) room (ws ++ (leadWords inline ++ w)) w
          fun body' => c.exact → blockBare body' = blockBare body

theorem block_branch (h : Recovers c g) {closers : List Kind}
    (closing : ∀ k ∈ closers, closesBlock k = true) (run : Reads (block g closers) s body s')
    (sound : Sound c s) :
    BranchCopied c false closers (fun m => block (unroll m) closers) body s s' := by
  obtain ⟨copy, _⟩ := block_copied h closing run sound
  refine ⟨copy.fits, fun same => Bool.noConfusion same, fun level room k keyword fits => ?_⟩
  have code : k ≠ .comment := by rcases keyword with rfl | ⟨rfl, _⟩ <;> decide
  obtain ⟨ws, continues, line, yields⟩ := copy.written (level + 1) k room code fits
  refine ⟨ws, continues, fun same => Bool.noConfusion same, fun w => ?_, yields⟩
  have ends := line w
  revert ends
  show _ → opensBlock (Word.next (ws ++ .newline :: w)) = true
  cases Word.next (ws ++ .newline :: w) <;> decide

theorem Kind.combine?_else {k : Kind} (h : k ≠ .if_) : combine? .else_ k = none := by
  cases k <;> first | rfl | exact absurd rfl h

theorem inlineBlock_branch (h : Recovers c g) (closers : List Kind)
    (run : Reads (inlineBlock g) s body s') (sound : Sound c s) :
    BranchCopied c true closers (fun m => inlineBlock (unroll m)) body s s' := by
  obtain ⟨stmts, read, rfl⟩ := run.inlineBlock_inv
  obtain ⟨_, rfl, copy⟩ := inlineRound_copied h read sound
  refine ⟨fun exact => ?_, fun _ => copy.ends, fun level room k keyword fits => ?_⟩
  · rw [blockFits_makeBlock]
    exact copy.fits exact
  rw [blockFits_makeBlock] at fits
  obtain ⟨ws, phrase, opens, ifs, code, yields⟩ := copy.written level room fits
  have before : Kind.combine? k (Word.next ws) = none ∧ Scan.endsOperand (some k) = false ∧
      k ≠ .comment := by
    rcases keyword with rfl | ⟨rfl, joins⟩
    · exact ⟨Kind.combine?_of_not_first rfl _, rfl, by decide⟩
    · -- an `if` right after the `else` would be the same keyword in the source as well
      refine ⟨Kind.combine?_else fun same => ?_, rfl, by decide⟩
      have single := joins.single
      have kind : s.token.kind = .if_ := ifs same
      rw [kind] at single
      cases single
  refine ⟨ws, ?_, fun _ => code _, fun w => ?_, fun m w le past => ?_⟩
  · have text : c.text (branchBody c.options true level (makeBlock s.range stmts)) =
        ' ' :: c.text (inlinePieces c.options level stmts) := by
      rw [branchBody, statements_makeBlock]
      simp [Piece.render, toList_space]
    rw [text]
    refine phrase.after_space before.1 (fun operand => ?_) before.2.2
    rw [before.2.1] at operand
    cases operand
  · rw [phrase.next_append]
    revert opens
    cases Word.next ws <;> decide
  · have past' : Ends s'.kind w ∧ Word.next w ≠ .colon := past
    refine Yields.here.bind fun start _ => ?_
    refine (yields m w [] le past'.1 past'.2).bind fun all hall => .pure fun exact => ?_
    obtain ⟨stmts', rfl, bare⟩ := hall
    rw [blockBare_makeBlock, blockBare_makeBlock, bare exact]

namespace Parser

def branchesOf (g : Grammar) (inline : Bool) : Branches :=
  if inline then ⟨inlineBlock g, inlineBlock g⟩ else ⟨block g ifClosers, block g [.endIf]⟩

end Parser

theorem body_branch (h : Recovers c g) (run : Reads (branchesOf g inline).body s body s')
    (sound : Sound c s) :
    BranchCopied c inline ifClosers (fun m => (branchesOf (unroll m) inline).body) body s s' := by
  cases inline with
  | true => exact inlineBlock_branch h _ run sound
  | false => exact block_branch h (by decide) run sound

theorem lastBody_branch (h : Recovers c g) (run : Reads (branchesOf g inline).lastBody s body s')
    (sound : Sound c s) :
    BranchCopied c inline [.endIf] (fun m => (branchesOf (unroll m) inline).lastBody) body s s' := by
  cases inline with
  | true => exact inlineBlock_branch h _ run sound
  | false => exact block_branch h (by decide) run sound

theorem Sound.past (h : Sound c s) (k : Kind) : Sound c (s.past k) := by
  unfold State.past
  split
  · exact h.drop 1
  · exact h

theorem Parser.State.nesting_past (s : State) (k : Kind) : (s.past k).nesting = s.nesting := by
  unfold State.past
  split <;> rfl

theorem Continues.further (c : Setting) (inline : Bool) (level : Nat) {k k' : Kind}
    (keyword : k' = .else_ ∨ k' = .elseIf) (code : inline = true → k ≠ .comment) :
    Continues c.layout k (c.text (gapPieces inline level) ++ k'.label.toList)
      (leadWords inline ++ [.mark k']) := by
  have fixed : k'.isFixed = true ∧ (k'.isFixed && !k'.isSecond) = true := by
    rcases keyword with rfl | rfl <;> decide
  cases inline with
  | true =>
    have text : c.text (gapPieces true level) = [' '] := by
      simp [gapPieces, Piece.render, toList_space]
    rw [text]
    exact .spaced_mark k' fixed.2 (code rfl)
  | false =>
    have text : c.text (gapPieces false level) = ((Piece.line level).render c.layout).toList := by
      simp [gapPieces]
    rw [text]
    exact .closer c level fixed.1

namespace Emit

def moreBranches (o : Options) (inline : Bool) (level : Nat) : List (ElseIf Expr Stmt) → List Piece
  | [] => []
  | ⟨condition, body, _⟩ :: rest =>
    gapPieces inline level ++ [.text "else if "] ++ exprPieces o level condition ++
      [.text " then"] ++ branchBody o inline level body ++ moreBranches o inline level rest

def lastBranch (o : Options) (inline : Bool) (level : Nat) : Option (Block Stmt) → List Piece
  | some body => gapPieces inline level ++ [.text "else"] ++ branchBody o inline level body
  | none => []

end Emit

/-- The `else if` branches that are read from `s` up to `s'`. -/
structure MoreCopied (c : Setting) (inline : Bool) (es : List (ElseIf Expr Stmt)) (s s' : State) :
    Prop where
  fits : c.exact → elseIfsFit c.options es (maxNesting - s.nesting) = true
  ends : (inline = true → s.kind ≠ .colon) → inline = true → s'.kind ≠ .colon
  last : s'.kind ≠ .elseIf
  written : ∀ level room, elseIfsFit c.options es room = true → ∃ ws,
    (∀ k, (inline = true → k ≠ .comment) →
      Continues c.layout k (c.text (moreBranches c.options inline level es)) ws ∧
        (inline = true → Word.last k ws ≠ .comment)) ∧
    ∀ m w, room ≤ m → Past inline ifClosers s'.kind w → Word.next w ≠ .elseIf →
      ∃ v, ws ++ (leadWords inline ++ w) = leadWords inline ++ v ∧ Past inline ifClosers s.kind v ∧
        Yields (many (elseIfRound (unroll m) (branchesOf (unroll m) inline))) room v w
          fun es' => c.exact → elseIfsBare es' = elseIfsBare es

theorem MoreCopied.cons {es : List (ElseIf Expr Stmt)} {t u : State} (kind : s.kind = .elseIf)
    (test : Copied c (fun m => (unroll m).expression) (deeper (condition.fits c.options)) condition
      (s.drop 1) t)
    (branch : BranchCopied c inline ifClosers (fun m => (branchesOf (unroll m) inline).body) body
      (t.past .then_) u) (rest : MoreCopied c inline es u s') (nesting : t.nesting = s.nesting)
    (nesting' : u.nesting = s.nesting) :
    MoreCopied c inline (⟨condition, body, range⟩ :: es) s s' where
  fits exact := by
    have fits := branch.fits exact
    have fits' := rest.fits exact
    rw [State.nesting_past, nesting] at fits
    rw [nesting'] at fits'
    have fits'' := test.fits exact
    rw [State.nesting_drop] at fits''
    rw [elseIfsFit, fits, fits', fits'']
    rfl
  ends _ := rest.ends branch.ends
  last := rest.last
  written level room fits := by
    simp only [elseIfsFit, Bool.and_eq_true] at fits
    obtain ⟨⟨fits, fits'⟩, fits''⟩ := fits
    obtain ⟨ws, spelled, yields⟩ := test.written level room fits
    obtain ⟨ws', continues', code', _, yields'⟩ := branch.written level room .then_ (.inl rfl) fits'
    obtain ⟨ws'', spelled'', yields''⟩ := rest.written level room fits''
    refine ⟨leadWords inline ++ .mark .elseIf :: (ws ++ .mark .then_ :: (ws' ++ ws'')),
      fun k code => ?_, fun m w le past other => ?_⟩
    · have text : c.text (moreBranches c.options inline level (⟨condition, body, range⟩ :: es)) =
          (c.text (gapPieces inline level) ++ Kind.elseIf.label.toList) ++
            ((' ' :: c.text (exprPieces c.options level condition)) ++
              ((' ' :: Kind.then_.label.toList) ++
                (c.text (branchBody c.options inline level body) ++
                  c.text (moreBranches c.options inline level es)))) := by
        have word : "else if ".toList = Kind.elseIf.label.toList ++ [' '] := by decide +kernel
        have spaced : " then".toList = ' ' :: Kind.then_.label.toList := rfl
        simp [moreBranches, Piece.render, word, spaced]
      have words : leadWords inline ++ .mark .elseIf :: (ws ++ .mark .then_ :: (ws' ++ ws'')) =
          (leadWords inline ++ [.mark .elseIf]) ++ (ws ++ ([.mark .then_] ++ (ws' ++ ws''))) := by
        simp
      obtain ⟨continues'', code''⟩ := spelled'' _ code'
      rw [text, words]
      refine ⟨(Continues.further c inline level (.inr rfl) code).append ?_, ?_⟩
      · rw [Word.last_append]
        exact (spelled.phrase.after_loose rfl).append ((Continues.spaced_mark .then_ rfl
          (Kind.ne_comment_of_isFinal (spelled.final _))).append (continues'.append continues''))
      · simpa using code''
    · obtain ⟨v, same, past', more⟩ := yields'' m w le past other
      refine ⟨.mark .elseIf :: (ws ++ .mark .then_ :: (ws' ++ (leadWords inline ++ v))), ?_, ?_, ?_⟩
      · simp [← same]
      · unfold Past
        split
        · exact ⟨.inr ⟨.inr (.inr rfl), .inl kind⟩, by simp⟩
        · refine .inr ⟨by simp [ifClosers], ?_⟩
          rw [List.drop_one, List.tail_cons, spelled.phrase.next_append]
          exact (Kind.not_endsItems_of_begins spelled.begins).2.1
      · refine Yields.many_cons (v := v) (Q := fun found => ∃ e, found = [e] ∧
          (c.exact → elseIfsBare [e] = elseIfsBare [⟨condition, body, range⟩])) ?_ ?_ more ?_
        · refine Yields.isAt.bind fun b hb => ?_
          obtain rfl : b = true := by simp [hb]
          refine Yields.bind ?_ fun e he => .pure ⟨_, rfl, e, rfl, he⟩
          refine Yields.ranged (Yields.advance.bind fun _ _ => (yields m _ le (.inr rfl)).bind
            fun condition' echo => (Yields.accept_of_eq rfl).bind fun _ _ =>
              (yields' m v le past').bind fun body' bare => .pure fun range' exact => ?_)
          simp only [elseIfsBare, echo.bare exact, bare exact]
        · simp only [List.length_append, List.length_cons]
          omega
        · rintro _ es' ⟨e, rfl, bare⟩ bare' exact
          have head := bare exact
          simp only [elseIfsBare, List.cons.injEq, and_true] at head
          simp only [List.singleton_append, elseIfsBare, head, bare' exact]

theorem elseIfs_copied (h : Recovers c g) {es : List (ElseIf Expr Stmt)}
    (run : Reads (many (elseIfRound g (branchesOf g inline))) s es s') (sound : Sound c s) :
    MoreCopied c inline es s s' := by
  revert sound
  refine Reads.many_induction (motive := fun es s => Sound c s → MoreCopied c inline es s s')
    (fun s round sound => ?_) (fun s first t more round _ _ ih sound => ?_) run
  · obtain ⟨_, _, ⟨⟩, _⟩ | ⟨other, _, rfl⟩ := round.elseIfRound_inv
    refine ⟨fun _ => rfl, fun code => code, other, fun level room _ =>
      ⟨[], fun k code => ⟨.nil, code⟩, fun m w le past last => ⟨w, rfl, past, ?_⟩⟩⟩
    refine .many_nil (fun _ => rfl) (Yields.isAt.bind fun b hb => ?_)
    obtain rfl : b = false := by simp [hb, last]
    exact .pure rfl
  · have rest := ih (sound.reads round)
    obtain ⟨kind, e, same, read⟩ | ⟨_, ⟨⟩, _⟩ := round.elseIfRound_inv
    cases same
    obtain ⟨condition, body, range, u, rfl, readTest, readBody⟩ := read.elseIf_inv
    have sound' := (sound.drop 1).reads readTest
    have branch := body_branch h readBody (sound'.past .then_)
    exact .cons kind (h.expression (sound.drop 1) readTest) branch rest readTest.advances.nesting
      round.advances.nesting

theorem Closing.of_endIf (h : Closing [.endIf] w) :
    Closing ifClosers w ∧ Word.next w ≠ .elseIf ∧ Word.next w ≠ .else_ := by
  rcases h with file | ⟨mem, plain⟩
  · exact ⟨.inl file, by simp [file], by simp [file]⟩
  · rw [List.mem_singleton] at mem
    exact ⟨.inr ⟨by simp [mem, ifClosers], plain⟩, by simp [mem], by simp [mem]⟩

/-- Without an `else` in the source there is none in the copy. -/
theorem Past.ends {k : Kind} (h : Past inline [.endIf] k w) (colon : inline = true → k ≠ .colon)
    (more : k ≠ .elseIf) (last : k ≠ .else_) :
    Past inline ifClosers k w ∧ Word.next w ≠ .elseIf ∧ Word.next w ≠ .else_ := by
  cases inline with
  | false =>
    have closing : Closing [.endIf] w := h
    exact closing.of_endIf
  | true =>
    have ends : Ends k w := h.1
    refine ⟨h, ?_⟩
    rcases ends with line | ⟨_, same | same⟩
    · revert line
      cases Word.next w <;> decide
    · exact ⟨same ▸ more, same ▸ last⟩
    · exact absurd same (colon rfl)

/-- The `else` branch, if any, that is read from `s` up to `s'`. -/
structure LastCopied (c : Setting) (inline : Bool) (last : Option (Block Stmt)) (s s' : State) :
    Prop where
  fits : c.exact → last.all (blockFits c.options · (maxNesting - s.nesting)) = true
  ends : (inline = true → s.kind ≠ .colon) → inline = true → s'.kind ≠ .colon
  written : ∀ level room, last.all (blockFits c.options · room) = true → ∃ ws,
    (∀ k, (inline = true → k ≠ .comment) →
      Continues c.layout k (c.text (lastBranch c.options inline level last)) ws ∧
        (inline = true → Word.last k ws ≠ .comment)) ∧
    ∀ m w, room ≤ m → Past inline [.endIf] s'.kind w →
      ∃ v, ws ++ (leadWords inline ++ w) = leadWords inline ++ v ∧ Past inline ifClosers s.kind v ∧
        Word.next v ≠ .elseIf ∧
        ∀ {α : Type} (f : Option (Block Stmt) → Parser α) (P : α → Prop),
          (∀ last', (c.exact → last'.map blockBare = last.map blockBare) →
            Yields (f last') room w w P) →
          Yields (accept .else_ >>= fun found =>
            if found then some <$> (branchesOf (unroll m) inline).lastBody >>= f
            else pure none >>= f) room v w P

theorem LastCopied.absent (colon : inline = true → s.kind ≠ .colon) (more : s.kind ≠ .elseIf)
    (last : s.kind ≠ .else_) : LastCopied c inline none s s where
  fits _ := rfl
  ends colon := colon
  written level room _ := by
    refine ⟨[], fun k code => ⟨.nil, code⟩, fun m w le past => ?_⟩
    obtain ⟨past', more', last'⟩ := past.ends colon more last
    refine ⟨w, rfl, past', more', fun f P rest => (Yields.accept_of_ne last').bind fun b hb => ?_⟩
    subst hb
    exact (Yields.pure rfl).bind fun last' same => rest last' fun _ => by rw [same]

theorem LastCopied.present (kind : s.kind = .else_) (joins : Joins .else_ (s.drop 1).token)
    (branch : BranchCopied c inline [.endIf] (fun m => (branchesOf (unroll m) inline).lastBody) body
      (s.drop 1) s') : LastCopied c inline (some body) s s' where
  fits exact := branch.fits exact
  ends _ := branch.ends
  written level room fits := by
    obtain ⟨ws, continues, code, opens, yields⟩ :=
      branch.written level room .else_ (.inr ⟨rfl, joins⟩) fits
    refine ⟨leadWords inline ++ .mark .else_ :: ws, fun k before => ?_, fun m w le past => ?_⟩
    · have text : c.text (lastBranch c.options inline level (some body)) =
          (c.text (gapPieces inline level) ++ Kind.else_.label.toList) ++
            c.text (branchBody c.options inline level body) := by
        have word : Kind.else_.label = "else" := rfl
        simp [lastBranch, Piece.render, word]
      have words : leadWords inline ++ .mark .else_ :: ws =
          (leadWords inline ++ [.mark .else_]) ++ ws := by simp
      rw [text, words]
      refine ⟨(Continues.further c inline level (.inl rfl) before).append ?_, ?_⟩
      · rw [Word.last_append]
        exact continues
      · simpa using code
    · refine ⟨.mark .else_ :: (ws ++ (leadWords inline ++ w)), by simp, ?_, by simp, ?_⟩
      · cases inline with
        | true => exact ⟨.inr ⟨.inr (.inl rfl), .inl kind⟩, by simp⟩
        | false =>
          have line := opens w
          refine .inr ⟨by simp [ifClosers], ?_⟩
          revert line
          rw [List.drop_one, List.tail_cons]
          cases Word.next (ws ++ (leadWords false ++ w)) <;> decide
      · intro α f P rest
        refine (Yields.accept_of_eq rfl).bind fun b hb => ?_
        subst hb
        refine Yields.bind ((yields m w le past).map fun body' bare exact => ?_) rest
        exact congrArg some (bare exact)

theorem ifBranches_copied (h : Recovers c g)
    (run : Reads (ifBranches g (branchesOf g inline)) s (body, elseIfs, last) s')
    (sound : Sound c s) : ∃ t u,
      BranchCopied c inline ifClosers (fun m => (branchesOf (unroll m) inline).body) body s t ∧
      MoreCopied c inline elseIfs t u ∧ LastCopied c inline last u s' ∧
      t.nesting = s.nesting ∧ u.nesting = s.nesting := by
  obtain ⟨t, u, readBody, readMore, readLast⟩ := run.ifBranches_inv
  have sound₁ := sound.reads readBody
  have sound₂ := sound₁.reads readMore
  have branch := body_branch h readBody sound
  have more := elseIfs_copied h readMore sound₁
  have nesting := readBody.advances.nesting
  refine ⟨t, u, branch, more, ?_, nesting, readMore.advances.nesting.trans nesting⟩
  obtain ⟨kind, body', rfl, read⟩ | ⟨other, rfl, rfl⟩ := readLast
  · have joins := sound₂.joins_at kind (by decide)
    exact .present kind joins (lastBody_branch h read (sound₂.drop 1))
  · exact .absent (more.ends branch.ends) more.last other

namespace Emit

variable {o : Options} {level : Nat}

theorem chars_inlineElseIfs (l : Layout) (o : Options) (level : Nat)
    (elseIfs : List (ElseIf Expr Stmt)) :
    chars l (inlineElseIfsPieces o level elseIfs) = chars l (moreBranches o true level elseIfs) := by
  induction elseIfs with
  | nil => rfl
  | cons e rest ih =>
    obtain ⟨condition, ⟨stmts, _⟩, _⟩ := e
    have keyword : " else if ".toList = " ".toList ++ "else if ".toList := rfl
    have spaced : " then ".toList = " then".toList ++ " ".toList := rfl
    simp [inlineElseIfsPieces, moreBranches, gapPieces, branchBody, Piece.render, ih, keyword,
      spaced]

theorem elseIfsPieces_eq (o : Options) (level : Nat) (elseIfs : List (ElseIf Expr Stmt)) :
    elseIfsPieces o level elseIfs = moreBranches o false level elseIfs := by
  induction elseIfs with
  | nil => rfl
  | cons e rest ih =>
    obtain ⟨condition, ⟨stmts, _⟩, _⟩ := e
    simp [elseIfsPieces, moreBranches, gapPieces, branchBody, ih]

def endPieces (inline : Bool) (level : Nat) : List Piece :=
  if inline then [] else [.line level, .text Kind.endIf.label]

theorem chars_ifThen (l : Layout) : chars l (stmtPieces o level
    (.ifThen condition body elseIfs last inline range)) =
    Kind.if_.label.toList ++ ((' ' :: chars l (exprPieces o level condition)) ++
      ((' ' :: Kind.then_.label.toList) ++ (chars l (branchBody o inline level body) ++
        (chars l (moreBranches o inline level elseIfs) ++
          (chars l (lastBranch o inline level last) ++ chars l (endPieces inline level)))))) := by
  obtain ⟨stmts, span⟩ := body
  have keyword : "if ".toList = Kind.if_.label.toList ++ [' '] := by decide +kernel
  have spaced : " then".toList = ' ' :: Kind.then_.label.toList := by decide +kernel
  have spaced' : " then ".toList = " then".toList ++ " ".toList := rfl
  have otherwise : " else ".toList = " ".toList ++ "else".toList ++ " ".toList := rfl
  have closer : Kind.endIf.label = "end if" := rfl
  cases inline <;> cases last <;>
    simp [stmtPieces, chars_inlineElseIfs, elseIfsPieces_eq, branchBody, lastBranch, endPieces,
      gapPieces, Piece.render, keyword, spaced, spaced', otherwise, closer]

end Emit

theorem Stmt.fits_ifThen (o : Options) (condition : Expr) (body : Block Stmt)
    (elseIfs : List (ElseIf Expr Stmt)) (last : Option (Block Stmt)) (inline : Bool) (range : Range)
    (room : Nat) : (Stmt.ifThen condition body elseIfs last inline range).fits o room =
      (deeper (condition.fits o) room && blockFits o body room && elseIfsFit o elseIfs room &&
        last.all (blockFits o · room)) := by
  cases last <;> rfl

theorem Stmt.bare_ifThen (condition : Expr) (body : Block Stmt)
    (elseIfs : List (ElseIf Expr Stmt)) (last : Option (Block Stmt)) (inline : Bool) (range : Range) :
    (Stmt.ifThen condition body elseIfs last inline range).bare =
      .ifThen condition.bare (blockBare body) (elseIfsBare elseIfs) (last.map blockBare) inline
        .nowhere := by
  cases last <;> rfl

section

variable {room : Nat} {ws : List Word} {Q : Stmt → Prop}
  {P : Block Stmt × List (ElseIf Expr Stmt) × Option (Block Stmt) → Prop}

theorem Parser.Yields.blockIf
    (branches : Yields (ifBranches g (branchesOf g false)) room ws (.mark .endIf :: w) P)
    (holds : ∀ r, P r → ∀ range, Q (.ifThen condition r.1 r.2.1 r.2.2 false range)) :
    Yields (Parser.blockIf g condition) room ws w fun node => ∀ range, Q (node range) :=
  branches.bind fun r hr => Yields.close.bind fun _ _ => .pure (holds r hr)

theorem Parser.Yields.inlineIf
    (branches : Yields (ifBranches g (branchesOf g true)) room ws w P)
    (holds : ∀ r, P r → ∀ range, Q (.ifThen condition r.1 r.2.1 r.2.2 true range)) :
    Yields (Parser.inlineIf g condition) room ws w fun node => ∀ range, Q (node range) :=
  branches.withCleanup.bind fun r hr => .pure (holds r hr)

end

def BranchesEcho (c : Setting) (body : Block Stmt) (elseIfs : List (ElseIf Expr Stmt))
    (last : Option (Block Stmt)) (r : Block Stmt × List (ElseIf Expr Stmt) × Option (Block Stmt)) :
    Prop :=
  c.exact → blockBare r.1 = blockBare body ∧ elseIfsBare r.2.1 = elseIfsBare elseIfs ∧
    r.2.2.map blockBare = last.map blockBare

theorem BranchesEcho.statement {condition' : Expr} (echo : Echo c condition condition')
    (r : Block Stmt × List (ElseIf Expr Stmt) × Option (Block Stmt))
    (h : BranchesEcho c body elseIfs last r) (range' : Range) :
    StmtEcho c (.ifThen condition body elseIfs last inline range)
      (.ifThen condition' r.1 r.2.1 r.2.2 inline range') := by
  refine ⟨rfl, fun exact => ?_⟩
  obtain ⟨bare₁, bare₂, bare₃⟩ := h exact
  rw [Stmt.bare_ifThen, Stmt.bare_ifThen, echo.bare exact, bare₁, bare₂, bare₃]

def endWords (inline : Bool) : List Word := if inline then [] else [.mark .endIf]

theorem Continues.endPieces (inline : Bool) (level : Nat) {k : Kind} :
    Continues c.layout k (c.text (endPieces inline level)) (leadWords inline ++ endWords inline) := by
  cases inline with
  | true => exact .nil
  | false =>
    have text : c.text (Emit.endPieces false level) =
        ((Piece.line level).render c.layout).toList ++ Kind.endIf.label.toList := by
      simp [Emit.endPieces, Piece.render]
    rw [text]
    exact .closer c level rfl

theorem Ends.past {k k' : Kind} (ends : Ends k' w) (same : inline = true → k' = k)
    (colon : inline = true → k ≠ .colon) : Past inline [.endIf] k (endWords inline ++ w) := by
  cases inline with
  | false => exact .inr ⟨List.mem_singleton_self _, (Kind.kinds_of_endsItems ends.endsItems).2.1⟩
  | true =>
    have ends : Ends k w := same rfl ▸ ends
    refine ⟨ends, fun next : Word.next w = .colon => ?_⟩
    rcases ends with line | ⟨_, same | same⟩
    · rw [next] at line
      cases line
    · exact colon rfl (same.trans next)
    · exact colon rfl same

theorem ifThen_copied (h : Recovers c g) (inline : Bool) {t u : State} (kind : s.kind = .if_)
    (read : Reads g.expression (s.drop 1) condition t)
    (run : Reads (ifBranches g (branchesOf g inline)) (t.past .then_) (body, elseIfs, last) u)
    (same : inline = true → s' = u) (sound : Sound c s) :
    WholeCopied c (.ifThen condition body elseIfs last inline range) s s' := by
  have test := h.expression (sound.drop 1) read
  obtain ⟨v, x, branch, more, final, nesting, nesting'⟩ :=
    ifBranches_copied h run (((sound.drop 1).reads read).past .then_)
  have depth : (t.past .then_).nesting = s.nesting :=
    (State.nesting_past t .then_).trans read.advances.nesting
  rw [depth] at nesting nesting'
  refine ⟨rfl, fun exact => ?_, fun level room fits => ?_⟩
  · have fits₁ := test.fits exact
    have fits₂ := branch.fits exact
    have fits₃ := more.fits exact
    have fits₄ := final.fits exact
    simp only [State.nesting_drop, nesting, nesting', depth] at fits₁ fits₂ fits₃ fits₄
    rw [Stmt.fits_ifThen, fits₁, fits₂, fits₃, fits₄]
    rfl
  · simp only [Stmt.fits_ifThen, Bool.and_eq_true] at fits
    obtain ⟨⟨⟨fits₁, fits₂⟩, fits₃⟩, fits₄⟩ := fits
    obtain ⟨ws, spelled, yields⟩ := test.written level room fits₁
    obtain ⟨ws₁, continues₁, code₁, opens, yields₁⟩ :=
      branch.written level room .then_ (.inl rfl) fits₂
    obtain ⟨ws₂, continues₂, yields₂⟩ := more.written level room fits₃
    obtain ⟨ws₃, continues₃, yields₃⟩ := final.written level room fits₄
    obtain ⟨continues₂, code₂⟩ := continues₂ _ code₁
    obtain ⟨continues₃, code₃⟩ := continues₃ _ code₂
    refine ⟨.mark .if_ :: (ws ++ .mark .then_ :: (ws₁ ++ (ws₂ ++ (ws₃ ++
      (leadWords inline ++ endWords inline))))), ?_, fun m w le ends => ?_⟩
    · refine .of_keyword rfl (fun _ => kind) (chars_ifThen _)
        ((spelled.phrase.after_loose rfl).append ((Continues.spaced_mark .then_ rfl
          (Kind.ne_comment_of_isFinal (spelled.final _))).append
            (continues₁.append (continues₂.append (continues₃.append (.endPieces inline level)))))) ?_
      simp only [Word.last_cons, Word.last_append]
      cases inline with
      | true => exact code₃ rfl
      | false =>
        show Kind.endIf ≠ .comment
        decide
    · have past := ends.past (fun inl => congrArg State.kind (same inl))
        (final.ends (more.ends branch.ends))
      obtain ⟨v₃, words₃, past₃, other, yields₃⟩ := yields₃ m _ le past
      obtain ⟨v₂, words₂, past₂, yields₂⟩ := yields₂ m v₃ le past₃ other
      have yields₁ := yields₁ m v₂ le past₂
      have opens := opens v₂
      rw [← words₂, ← words₃] at yields₁ opens
      have branches : Yields (ifBranches (unroll m) (branchesOf (unroll m) inline)) room
          (ws₁ ++ (ws₂ ++ (ws₃ ++ (leadWords inline ++ (endWords inline ++ w)))))
          (endWords inline ++ w) (BranchesEcho c body elseIfs last) :=
        yields₁.bind fun body' bare₁ => yields₂.bind fun elseIfs' bare₂ =>
          yields₃ _ _ fun last' bare₃ => .pure fun exact =>
            ⟨bare₁ exact, bare₂ exact, bare₃ exact⟩
      simp only [List.cons_append, List.append_assoc]
      refine Yields.statementBody_keyword rfl ?_ ?_
      · rw [spelled.phrase.next_append]
        exact (Kind.not_endsItems_of_begins spelled.begins).2.1
      · refine Yields.ranged (Yields.advance.bind fun _ _ => (yields m _ le (.inr rfl)).bind
          fun condition' echo => (Yields.accept_of_eq rfl).bind fun _ _ => Yields.kind.bind
            fun k hk => ?_)
        rw [hk, opens]
        cases inline with
        | false => exact branches.blockIf (BranchesEcho.statement echo)
        | true => exact branches.inlineIf (BranchesEcho.statement echo)

theorem ifStatement_copied (h : Recovers c g) {st : Stmt} (kind : s.kind = .if_)
    (run : Reads (ifStatement g) s st s') (sound : Sound c s) : WholeCopied c st s s' := by
  obtain ⟨condition, node, range, t, rfl, read, _, ⟨_, inner⟩ | ⟨_, inner⟩⟩ := run.ifStatement_inv
  · obtain ⟨body, elseIfs, last, u, rfl, branches, _, rfl⟩ := inner.blockIf_inv
    exact ifThen_copied h false kind read branches (fun same => Bool.noConfusion same)
      sound
  · obtain ⟨body, elseIfs, last, rfl, branches⟩ := inner.inlineIf_inv
    exact ifThen_copied h true kind read branches (fun _ => rfl) sound

end BrightScript
