import BrightScript.Proofs.Copy.Entries

/-! Copies of statement lists and of blocks.
A comment is written behind the code that ends on its line. That is safe after code, and two
comments never stand on one line, so no comment is written behind another one. -/
namespace BrightScript

open BrightScript.Parser BrightScript.Emit

variable {c : Setting} {g : Grammar}

def Clear (line : Nat) (s : State) : Prop :=
  ∀ t ∈ s.rest.items, t.kind = .comment → t.range.start.line ≠ line

theorem Clear.advances {line : Nat} {s s' : State} (h : Clear line s) (advances : s.Advances s') :
    Clear line s' := fun t mem => h t (advances.suffix.mem mem)

/-- The statements that are read from `s` on, written after a word of kind `k` and after code that
ends on the line `line` of the source. -/
structure BodyCopied (c : Setting) (stmts : List Stmt) (s : State) : Prop where
  fits : c.exact → stmtsFit c.options stmts (maxNesting - s.nesting) = true
  written : ∀ level line k room, (k = .comment → Clear line s) →
    stmtsFit c.options stmts room = true → ∃ ws,
      Continues c.layout k (c.text (bodyPieces c.options level line stmts)) ws ∧
      (ws = [] ∨ Word.next ws = .newline ∨ Word.next ws = .comment ∧ k ≠ .comment) ∧
      ∀ m closers v w all, room ≤ m → (Word.next w = .newline ∨ Word.next w = .endOfFile) →
        Entries c (unroll m).statement room closers v w all →
        Entries c (unroll m).statement room closers v (ws ++ w) (stmtsBare stmts ++ all)

theorem endsLine_of_starts {k : Kind} {ws w : List Word}
    (starts : ws = [] ∨ Word.next ws = .newline ∨ Word.next ws = .comment ∧ k ≠ .comment)
    (ends : Word.next w = .newline ∨ Word.next w = .endOfFile) :
    (Word.next (ws ++ w)).endsLine = true := by
  by_cases empty : ws = []
  · rcases ends with ends | ends <;> rw [empty, List.nil_append, ends] <;> rfl
  · rw [Word.next_append empty]
    rcases starts with none | newline | ⟨comment, _⟩
    · exact absurd none empty
    · rw [newline]
      rfl
    · rw [comment]
      rfl

def lineWords (lines : List String) : List Word :=
  lines.flatMap fun line => [.newline, .comment line.toList]

/- What is known of each line of a comment in the source. -/
def IsLine (c : Setting) (line : String) : Prop :=
  IsComment line.toList ∧ (line.toList.getLast? = some '\r' → c.layout.newline = "\n") ∧
    (c.exact → (Word.comment line.toList).text = line)

theorem isPoint_comment {text : List Char} (h : IsComment text) :
    (Word.comment text).isPoint = false := by
  have first : text.head? ≠ some '.' := by
    rcases h.starts with ⟨cs, rfl⟩ | ⟨d, part, cs, rfl, start, _⟩
    · simp
    · rintro same
      obtain rfl : d = '.' := by simpa using same
      cases start
  have shown : (Comment.shown text).head? ≠ some '.' := by
    unfold Comment.shown
    split
    · cases text with
      | nil => simp
      | cons d ds =>
        cases ds with
        | nil => simp
        | cons e es => simpa using first
    · exact first
  unfold Word.isPoint Word.comment Text.startsWith
  rw [String.toList_ofList]
  cases h : (Comment.shown text).head? with
  | none => simp
  | some d =>
    have : d ≠ '.' := fun same => shown (by rw [h, same])
    simp [this]

theorem continues_lines (level : Nat) {lines : List String} (valid : ∀ l ∈ lines, IsLine c l)
    (k : Kind) :
    Continues c.layout k (c.text (lines.flatMap fun l => [.line level, .text l]))
      (lineWords lines) := by
  induction lines generalizing k with
  | nil => exact .nil
  | cons line lines ih =>
    obtain ⟨isComment, ret, _⟩ := valid line List.mem_cons_self
    have text : c.text ((line :: lines).flatMap fun l => [.line level, .text l]) =
        ((Piece.line level).render c.layout).toList ++ (line.toList ++
          c.text (lines.flatMap fun l => [.line level, .text l])) := by
      simp [Piece.render]
    rw [text]
    exact (Continues.line c.plain level).append
      (((Phrase.comment c.plain isComment ret).after_mark rfl rfl).append
        (ih (fun l mem => valid l (List.mem_cons_of_mem _ mem)) _))

theorem last_lineWords (lines : List String) :
    Word.last .comment (lineWords lines) = .comment := by
  induction lines with
  | nil => rfl
  | cons line lines ih => exact ih

theorem feed_not_mem_comment {text : List Char} (h : IsComment text) :
    '\n' ∉ (Word.comment text).text.toList := by
  intro mem
  rw [Word.comment, String.toList_ofList] at mem
  unfold Comment.shown at mem
  split at mem
  · exact h.line (List.dropLast_subset _ mem)
  · exact h.line mem

theorem Entries.lines {statement : Parser Stmt} {room : Nat} {closers : List Kind}
    {v w : List Word} {all : List Stmt} {lines : List String} (valid : ∀ l ∈ lines, IsLine c l)
    (ends : Word.next w = .newline ∨ Word.next w = .endOfFile)
    (h : Entries c statement room closers v w all) :
    Entries c statement room closers v (lineWords lines ++ w)
        (lines.map (fun l => .comment ⟨l, .nowhere⟩) ++ all) ∧
      (Word.next (lineWords lines ++ w) = .newline ∨
        Word.next (lineWords lines ++ w) = .endOfFile) := by
  induction lines with
  | nil => exact ⟨h, ends⟩
  | cons line lines ih =>
    obtain ⟨isComment, _, kept⟩ := valid line List.mem_cons_self
    obtain ⟨rest, next⟩ := ih fun l mem => valid l (List.mem_cons_of_mem _ mem)
    exact ⟨.newline (.comment rfl (feed_not_mem_comment isComment) kept next rest), .inl rfl⟩

theorem stmtsFit_cons {st : Stmt} (code : st.isComment = false) (o : Options) (rest : List Stmt)
    (room : Nat) :
    stmtsFit o (st :: rest) room = (deeper (st.fits o) room && stmtsFit o rest room) := by
  cases st <;> first | rfl | cases code

namespace BodyCopied

variable {stmts : List Stmt} {s t : State}

theorem nil (c : Setting) (s : State) : BodyCopied c [] s where
  fits _ := rfl
  written _ _ _ _ _ _ := ⟨[], .nil, .inl rfl, fun _ _ _ _ _ _ _ h => h⟩

theorem of_nesting (h : BodyCopied c stmts t) (nesting : t.nesting = s.nesting)
    (clear : ∀ line, Clear line s → Clear line t) : BodyCopied c stmts s where
  fits exact := by rw [← nesting]; exact h.fits exact
  written level line k room safe :=
    h.written level line k room fun comment => clear line (safe comment)

variable {cm : Comment} {line : String} {lines : List String}

theorem text_comment (c : Setting) (level above : Nat)
    (split : splitLines cm.text.toList = (line :: lines).map String.toList) :
    c.text (bodyPieces c.options level above (.comment cm :: stmts)) =
      c.text (lead level above (.comment cm)) ++ (line.toList ++
        (c.text (lines.flatMap fun l => [.line level, .text l]) ++
          c.text (bodyPieces c.options level cm.range.stop.line stmts))) := by
  have pieces : c.text (commentPieces level cm) =
      line.toList ++ c.text (lines.flatMap fun l => [.line level, .text l]) := by
    simp [commentPieces, split, Piece.render]
  rw [bodyPieces, stmtPieces, Setting.text_append, Setting.text_append, pieces]
  simp [Stmt.range]

theorem text_statement (c : Setting) (level above : Nat) {st : Stmt} (code : st.isComment = false) :
    c.text (bodyPieces c.options level above (st :: stmts)) =
      ((Piece.line level).render c.layout).toList ++ (c.text (stmtPieces c.options level st) ++
        c.text (bodyPieces c.options level st.range.stop.line stmts)) := by
  have alone : lead level above st = [.line level] := by
    cases st <;> first | rfl | cases code
  rw [bodyPieces, alone]
  simp

theorem comment (h : BodyCopied c stmts t) (nesting : t.nesting = s.nesting)
    (split : splitLines cm.text.toList = (line :: lines).map String.toList)
    (valid : ∀ l ∈ line :: lines, IsLine c l)
    (start : ∀ n, Clear n s → cm.range.start.line ≠ n) (stop : Clear cm.range.stop.line t) :
    BodyCopied c (.comment cm :: stmts) s where
  fits exact := by
    have rest := h.fits exact
    rw [nesting] at rest
    simpa [stmtsFit] using rest
  written level above k room safe fits := by
    rw [stmtsFit] at fits
    obtain ⟨isComment, ret, kept⟩ := valid line List.mem_cons_self
    have others : ∀ l ∈ lines, IsLine c l := fun l mem => valid l (List.mem_cons_of_mem _ mem)
    obtain ⟨ws, continues, starts, entries⟩ :=
      h.written level cm.range.stop.line .comment room (fun _ => stop) fits
    have phrase := Phrase.comment c.plain isComment ret
    have run : Continues c.layout .comment
        (c.text (lines.flatMap fun l => [.line level, .text l]) ++
          c.text (bodyPieces c.options level cm.range.stop.line stmts))
        (lineWords lines ++ ws) := by
      refine (continues_lines level others _).append ?_
      rwa [last_lineWords]
    have read : ∀ m closers v w all, room ≤ m →
        (Word.next w = .newline ∨ Word.next w = .endOfFile) →
        Entries c (unroll m).statement room closers v w all →
        Entries c (unroll m).statement room closers v
          (.comment line.toList :: (lineWords lines ++ (ws ++ w)))
          (cm.lines ++ (stmtsBare stmts ++ all)) := by
      intro m closers v w all le ends rest
      have after : Word.next (ws ++ w) = .newline ∨ Word.next (ws ++ w) = .endOfFile := by
        rcases starts with rfl | newline | ⟨_, code⟩
        · exact ends
        · cases ws with
          | nil => cases newline
          | cons x ws => exact .inl newline
        · exact absurd rfl code
      obtain ⟨more, next⟩ :=
        Entries.lines others after (entries m closers v w all le ends rest)
      have first := Entries.comment rfl (feed_not_mem_comment isComment) kept next more
      simpa [Comment.lines, split, Function.comp_def] using first
    by_cases same : cm.range.start.line = above
    · -- the comment stands behind the code before it
      have code : k ≠ .comment := fun comment => start above (safe comment) same
      refine ⟨.comment line.toList :: (lineWords lines ++ ws), ?_, .inr (.inr ⟨rfl, code⟩), ?_⟩
      · have gap : c.text (lead level above (.comment cm)) = [' '] := by
          simp [lead, same, Piece.render, toList_space]
        rw [text_comment c level above split, gap, List.singleton_append, ← List.cons_append]
        exact (phrase.after_space (Kind.combine?_eq_none rfl k) (fun _ => isPoint_comment isComment)
          code).append run
      · intro m closers v w all le ends rest
        have := read m closers v w all le ends rest
        simpa [stmtsBare] using this
    · refine ⟨.newline :: .comment line.toList :: (lineWords lines ++ ws), ?_, .inr (.inl rfl), ?_⟩
      · have gap : c.text (lead level above (.comment cm)) =
            ((Piece.line level).render c.layout).toList := by
          simp [lead, same]
        rw [text_comment c level above split, gap]
        exact (Continues.line c.plain level).append ((phrase.after_mark rfl rfl).append run)
      · intro m closers v w all le ends rest
        have := read m closers v w all le ends rest
        simpa [stmtsBare] using Entries.newline this

theorem statement {st : Stmt} {u : State} (h : BodyCopied c stmts t)
    (nesting : t.nesting = s.nesting)
    (copy : StmtCopied c (fun m => (unroll m).statement) (deeper (st.fits c.options)) st s u) :
    BodyCopied c (st :: stmts) s where
  fits exact := by
    have rest := h.fits exact
    rw [nesting] at rest
    rw [stmtsFit_cons copy.code, copy.fits exact, rest]
    rfl
  written level above k room _ fits := by
    rw [stmtsFit_cons copy.code, Bool.and_eq_true] at fits
    obtain ⟨ws, spelled, yields⟩ := copy.written level room fits.1
    obtain ⟨ws', continues, starts, entries⟩ := h.written level st.range.stop.line
      (Word.last .newline ws) room (fun comment => absurd comment (spelled.code _)) fits.2
    refine ⟨.newline :: (ws ++ ws'), ?_, .inr (.inl rfl), ?_⟩
    · rw [text_statement c level above copy.code]
      exact (Continues.line c.plain level).append ((spelled.phrase.after_mark rfl rfl).append continues)
    · intro m closers v w all le ends rest
      have ends' := endsLine_of_starts starts ends
      have read := yields m (ws' ++ w) le (.inl ends')
      have more := entries m closers v w all le ends rest
      rw [stmtsBare_cons copy.code, List.cons_append, List.cons_append, List.append_assoc]
      exact .newline (.statement spelled.phrase.nonempty spelled.opens ends' read more)

end BodyCopied

theorem range_joinComment (first : Comment) (more : List Token) :
    ((more.foldl joinComment first).range.start = first.range.start ∨
        ∃ t ∈ more, (more.foldl joinComment first).range.start = t.range.start) ∧
      ((more.foldl joinComment first).range.stop = first.range.stop ∨
        ∃ t ∈ more, (more.foldl joinComment first).range.stop = t.range.stop) := by
  induction more generalizing first with
  | nil => exact ⟨.inl rfl, .inl rfl⟩
  | cons t more ih =>
    have start : (joinComment first t).range.start = first.range.start ∨
        (joinComment first t).range.start = t.range.start := by
      unfold joinComment Range.union Position.earlier
      dsimp only
      split <;> simp
    have stop : (joinComment first t).range.stop = first.range.stop ∨
        (joinComment first t).range.stop = t.range.stop := by
      unfold joinComment Range.union Position.later
      dsimp only
      split <;> simp
    obtain ⟨starts, stops⟩ := ih (joinComment first t)
    rw [List.foldl_cons]
    refine ⟨?_, ?_⟩
    · rcases starts with same | ⟨u, mem, same⟩
      · rw [same]
        exact start.imp id fun same => ⟨t, List.mem_cons_self, same⟩
      · exact .inr ⟨u, List.mem_cons_of_mem _ mem, same⟩
    · rcases stops with same | ⟨u, mem, same⟩
      · rw [same]
        exact stop.imp id fun same => ⟨t, List.mem_cons_self, same⟩
      · exact .inr ⟨u, List.mem_cons_of_mem _ mem, same⟩

/-- What is needed to write a comment that has been read from `s` up to `s'`. -/
structure CommentCopied (c : Setting) (cm : Comment) (s s' : State) : Prop where
  lines : ∃ line lines, splitLines cm.text.toList = (line :: lines).map String.toList ∧
    ∀ l ∈ line :: lines, IsLine c l
  start : ∀ n, Clear n s → cm.range.start.line ≠ n
  stop : Clear cm.range.stop.line s'

theorem joinComment_copied {s s' : State} (first : Token) (more taken : List Token)
    (sound : Sound c s) (items : s.rest.items = taken ++ s'.rest.items)
    (comments : ∀ t ∈ first :: more, t ∈ taken ∧ t.kind = .comment) :
    CommentCopied c (more.foldl joinComment ⟨first.text, first.range⟩) s s' := by
  have valid : ∀ t ∈ first :: more, t ∈ s.rest.items ∧ IsLine c t.text := by
    intro t mem
    obtain ⟨taken, comment⟩ := comments t mem
    have mem : t ∈ s.rest.items := by rw [items]; exact List.mem_append_left _ taken
    exact ⟨mem, sound.comment_of_mem mem comment⟩
  obtain ⟨starts, stops⟩ := range_joinComment ⟨first.text, first.range⟩ more
  refine ⟨⟨first.text, more.map (·.text), ?_, ?_⟩, ?_, ?_⟩
  · have feed : ∀ t ∈ first :: more, '\n' ∉ t.text.toList := fun t mem => (valid t mem).2.1.line
    rw [splitLines_joinComment fun t mem => feed t (List.mem_cons_of_mem _ mem),
      splitLines_line (feed first List.mem_cons_self)]
    simp
  · intro l mem
    rw [← List.map_cons] at mem
    obtain ⟨t, member, rfl⟩ := List.mem_map.mp mem
    exact (valid t member).2
  · intro n clear
    have apart : ∀ t ∈ first :: more, t.range.start.line ≠ n :=
      fun t mem => clear t (valid t mem).1 (comments t mem).2
    rcases starts with same | ⟨t, mem, same⟩
    · rw [same]
      exact apart first List.mem_cons_self
    · rw [same]
      exact apart t (List.mem_cons_of_mem _ mem)
  · intro u after comment
    have lines := sound.scanned.lines
    rw [items, List.pairwise_append] at lines
    have apart : ∀ t ∈ first :: more, u.range.start.line ≠ t.range.stop.line := fun t mem =>
      Nat.ne_of_gt (lines.2.2 t (comments t mem).1 u after (comments t mem).2 comment)
    rcases stops with same | ⟨t, mem, same⟩
    · rw [same]
      exact apart first List.mem_cons_self
    · rw [same]
      exact apart t (List.mem_cons_of_mem _ mem)

theorem commentRun_copied {s s' : State} {cm : Comment} (run : Reads commentRun s cm s')
    (comment : s.kind = .comment) (sound : Sound c s) : CommentCopied c cm s s' := by
  obtain ⟨_, rfl, rfl, rfl⟩ := run.commentRun_inv
  obtain ⟨more, found, items, kinds⟩ :=
    followingComments_items s.token.range (s.drop 1).rest.items
  have file : s.kind ≠ .endOfFile := by rw [comment]; decide
  rw [found, List.length_map]
  refine joinComment_copied _ _ (s.token :: more.flatMap fun p => [p.1, p.2]) sound ?_ ?_
  · rw [State.items_eq file, items]
    rfl
  · intro t mem
    rcases List.mem_cons.mp mem with rfl | mem
    · exact ⟨List.mem_cons_self, comment⟩
    · obtain ⟨p, member, rfl⟩ := List.mem_map.mp mem
      refine ⟨List.mem_cons_of_mem _ (List.mem_flatMap.mpr ⟨p, member, ?_⟩), (kinds p member).2⟩
      simp

theorem BodyCopied.trailingComment {s t : State} {comments stmts : List Stmt} (sound : Sound c s)
    (run : Reads trailingComment s comments t) (h : BodyCopied c stmts t) :
    BodyCopied c (comments ++ stmts) s := by
  rcases run.trailingComment_inv with ⟨_, rfl, rfl⟩ | ⟨comment, rfl, rfl⟩
  · exact h
  · have copy : CommentCopied c ⟨s.token.text, s.token.range⟩ s (s.drop 1) := by
      refine joinComment_copied s.token [] [s.token] sound ?_ ?_
      · exact State.items_eq (by rw [comment]; decide)
      · intro t mem
        obtain rfl : t = s.token := by simpa using mem
        exact ⟨List.mem_cons_self, comment⟩
    obtain ⟨line, lines, split, valid⟩ := copy.lines
    exact h.comment rfl split valid copy.start copy.stop

theorem statements_copied (h : Recovers c g) {closers : List Kind} {stmts : List Stmt}
    {s s' : State} (run : Reads (statements g closers) s stmts s') (sound : Sound c s) :
    BodyCopied c stmts s ∧ (s'.kind = .endOfFile ∨ s'.closes closers = true) := by
  revert sound
  refine Reads.many_induction (motive := fun stmts s => Sound c s → BodyCopied c stmts s ∧
    (s'.kind = .endOfFile ∨ s'.closes closers = true)) ?_ ?_ run
  · intro s round sound
    rcases round.statementRound_inv sound.unmarked with ⟨_, some, _⟩ | ⟨file, _, rfl⟩ |
      ⟨_, _, some, _⟩ | ⟨_, _, _, _, ⟨closes, _, rfl⟩ | ⟨_, _, _, _, some, _⟩⟩
    · cases some
    · exact ⟨.nil c _, .inl file⟩
    · cases some
    · exact ⟨.nil c _, .inr closes⟩
    · cases some
  · intro s first t more round _ _ ih sound
    obtain ⟨rest, ends⟩ := ih (sound.reads round)
    refine ⟨?_, ends⟩
    rcases round.statementRound_inv sound.unmarked with ⟨_, same, rfl⟩ | ⟨_, none, _⟩ |
      ⟨comment, cm, same, read⟩ |
      ⟨_, _, _, _, ⟨_, none, _⟩ | ⟨_, st, comments, u, same, read, finish⟩⟩
    · cases same
      exact rest.of_nesting rfl fun _ clear => clear.advances (.drop 1 s)
    · cases none
    · cases same
      have copy := commentRun_copied read comment sound
      obtain ⟨line, lines, split, valid⟩ := copy.lines
      exact rest.comment read.advances.nesting split valid copy.start copy.stop
    · cases none
    · cases same
      have body :=
        BodyCopied.trailingComment (sound.reads read) finish.finishStatement_inv.1 rest
      exact body.statement read.advances.nesting (h.statement sound read)

/-- The body of a construct, which is read from `s` on. -/
structure BlockCopied (c : Setting) (body : Block Stmt) (closers : List Kind) (depth : Nat) :
    Prop where
  fits : c.exact → blockFits c.options body (maxNesting - depth) = true
  written : ∀ level k room, k ≠ .comment → blockFits c.options body room = true → ∃ ws,
    Continues c.layout k
      (c.text (bodyPieces c.options level body.range.start.line body.statements)) ws ∧
    (∀ w, (Word.next (ws ++ .newline :: w)).endsLine = true) ∧
    ∀ m w, room ≤ m → Closing closers w →
      Yields (block (unroll m) closers) room (ws ++ .newline :: w) w
        fun body' => c.exact → blockBare body' = blockBare body

theorem block_copied (h : Recovers c g) {closers : List Kind}
    (closing : ∀ k ∈ closers, closesBlock k = true) {body : Block Stmt} {s s' : State}
    (run : Reads (block g closers) s body s') (sound : Sound c s) :
    BlockCopied c body closers s.nesting ∧
      (s'.kind = .endOfFile ∨ s'.closes closers = true) := by
  obtain ⟨header, t, stmts, trailing, list, rfl⟩ := run.block_inv
  obtain ⟨rest, ends⟩ := statements_copied h list (sound.reads trailing)
  have copy := BodyCopied.trailingComment sound trailing rest
  refine ⟨?_, ends⟩
  generalize header ++ stmts = all at copy
  refine ⟨fun exact => by rw [blockFits_makeBlock]; exact copy.fits exact,
    fun level k room code fits => ?_⟩
  rw [blockFits_makeBlock] at fits
  rw [statements_makeBlock, blockBare_makeBlock]
  obtain ⟨ws, continues, starts, entries⟩ := copy.written level
    (makeBlock s.range all).range.start.line k room (fun comment => absurd comment code) fits
  refine ⟨ws, continues, fun w => endsLine_of_starts starts (.inl rfl), fun m w le close => ?_⟩
  have all := entries m closers w (.newline :: w) [] le (.inl rfl) (.newline (.nil close))
  have read := all.block closing (endsLine_of_starts starts (.inl rfl))
  rwa [List.append_nil] at read

end BrightScript
