import BrightScript.Proofs.Copy.Lists

/-! Reading the statement list of a copy.
A list is made of entries: statements, and comments that stand at the end of a line or on lines of
their own. Comments on lines right below each other are read as one statement, so how many entries
a round takes depends on where they stand, but the lines are read in order all the same. -/
namespace BrightScript

open BrightScript.Parser BrightScript.Emit

/-- The statements end here: the file does, or a keyword closes them. -/
def Closing (closers : List Kind) (w : List Word) : Prop :=
  Word.next w = .endOfFile ∨
    Word.next w ∈ closers ∧ (Word.next (w.drop 1)).isAssignment = false

/-- The words up to `w` are entries, and the bare statements `all` are read from them. -/
inductive Entries (c : Setting) (statement : Parser Stmt) (room : Nat) (closers : List Kind)
    (w : List Word) : List Word → List Stmt → Prop where
  | nil : Closing closers w → Entries c statement room closers w w []
  | newline {ws : List Word} {all : List Stmt} :
      Entries c statement room closers w ws all →
      Entries c statement room closers w (.newline :: ws) all
  | comment {x : Word} {line : String} {ws : List Word} {all : List Stmt} :
      x.kind = .comment → '\n' ∉ x.text.toList → (c.exact → x.text = line) →
      Word.next ws = .newline ∨ Word.next ws = .endOfFile →
      Entries c statement room closers w ws all →
      Entries c statement room closers w (x :: ws) (.comment ⟨line, .nowhere⟩ :: all)
  | statement {st : Stmt} {u ws : List Word} {all : List Stmt} :
      u ≠ [] → (Word.next u).opens = true → (Word.next ws).endsLine = true →
      Yields statement room (u ++ ws) ws (StmtEcho c st) →
      Entries c statement room closers w ws all →
      Entries c statement room closers w (u ++ ws) (st.bare :: all)

namespace Entries

variable {c : Setting} {statement : Parser Stmt} {room : Nat} {closers : List Kind}
  {w ws : List Word} {all : List Stmt} {x : Word}

theorem of_newline (h : Entries c statement room closers w (x :: ws) all)
    (newline : x.kind = .newline) (closing : ∀ k ∈ closers, closesBlock k = true) :
    Entries c statement room closers w ws all := by
  generalize same : x :: ws = whole at h
  cases h with
  | nil close =>
    subst same
    rw [Closing, Word.next_cons, newline] at close
    rcases close with file | ⟨mem, _⟩
    · cases file
    · cases closing _ mem
  | newline rest =>
    cases same
    exact rest
  | comment isComment =>
    cases same
    rw [newline] at isComment
    cases isComment
  | @statement st u ws' _ nonempty opens =>
    cases u with
    | nil => exact absurd rfl nonempty
    | cons y u =>
      cases same
      rw [Word.next_cons, newline] at opens
      cases opens

theorem of_comment (h : Entries c statement room closers w (x :: ws) all)
    (comment : x.kind = .comment) (closing : ∀ k ∈ closers, closesBlock k = true) :
    ∃ line rest, all = .comment ⟨line, .nowhere⟩ :: rest ∧ '\n' ∉ x.text.toList ∧
      (c.exact → x.text = line) ∧ (Word.next ws = .newline ∨ Word.next ws = .endOfFile) ∧
      Entries c statement room closers w ws rest := by
  generalize same : x :: ws = whole at h
  cases h with
  | nil close =>
    subst same
    rw [Closing, Word.next_cons, comment] at close
    rcases close with file | ⟨mem, _⟩
    · cases file
    · cases closing _ mem
  | newline rest =>
    cases same
    cases comment
  | comment _ line kept ends rest =>
    cases same
    exact ⟨_, _, rfl, line, kept, ends, rest⟩
  | @statement st u ws' _ nonempty opens =>
    cases u with
    | nil => exact absurd rfl nonempty
    | cons y u =>
      cases same
      rw [Word.next_cons, comment] at opens
      cases opens

theorem of_comments {more : List (Word × Word)} {v : List Word}
    (h : Entries c statement room closers w (more.flatMap (fun p => [p.1, p.2]) ++ v) all)
    (kinds : ∀ p ∈ more, p.1.kind = .newline ∧ p.2.kind = .comment)
    (closing : ∀ k ∈ closers, closesBlock k = true) :
    ∃ rest, Entries c statement room closers w v rest ∧
      (∀ p ∈ more, '\n' ∉ p.2.text.toList) ∧
      (c.exact → all = more.map (fun p => .comment ⟨p.2.text, .nowhere⟩) ++ rest) := by
  induction more generalizing all with
  | nil => exact ⟨all, h, by simp, fun _ => rfl⟩
  | cons p more ih =>
    obtain ⟨newline, comment⟩ := kinds p List.mem_cons_self
    obtain ⟨line, rest, rfl, feed, kept, _, tail⟩ :=
      (h.of_newline newline closing).of_comment comment closing
    obtain ⟨last, entries, feeds, bare⟩ := ih tail fun q mem => kinds q (List.mem_cons_of_mem _ mem)
    refine ⟨last, entries, ?_, fun exact => ?_⟩
    · intro q mem
      rcases List.mem_cons.mp mem with rfl | mem
      · exact feed
      · exact feeds q mem
    · rw [bare exact, ← kept exact]
      rfl

end Entries

namespace Parser

theorem Reads.exists_commentRun {s : State} {x : Word} {ws : List Word} (words : s.words = x :: ws) :
    ∃ (cm : Comment) (s' : State) (more : List (Word × Word)), Reads commentRun s cm s' ∧
      ws = more.flatMap (fun p => [p.1, p.2]) ++ s'.words ∧
      (∀ p ∈ more, p.1.kind = .newline ∧ p.2.kind = .comment) ∧
      ((∀ p ∈ more, '\n' ∉ p.2.text.toList) →
        splitLines cm.text.toList =
          splitLines x.text.toList ++ more.map fun p => p.2.text.toList) := by
  obtain ⟨more, found, items, kinds⟩ :=
    followingComments_items s.token.range (s.drop 1).rest.items
  have text : s.token.text = x.text := by rw [← s.token_word words]; rfl
  refine ⟨(more.map (·.2)).foldl joinComment ⟨s.token.text, s.token.range⟩,
    (s.drop 1).drop (2 * more.length), more.map fun p => (p.1.word, p.2.word), ?_, ?_, ?_, ?_⟩
  · unfold commentRun Parser.comment
    simp only [reads_bind, reads_token, reads_advance, reads_take, reads_pure]
    refine ⟨_, _, ⟨_, _, ⟨rfl, rfl⟩, (), _, rfl, rfl, rfl⟩, _, _,
      reads_inspect.mpr ⟨found, rfl⟩, (), _, ?_, rfl, rfl⟩
    rw [List.length_map]
  · have tail : ws = (s.drop 1).words := by rw [State.words_drop, words]; rfl
    have last : ((s.drop 1).drop (2 * more.length)).words =
        ((s.drop 1).rest.items.drop (2 * more.length)).map Token.word := rfl
    rw [tail, last, State.words]
    conv_lhs => rw [items]
    simp [List.flatMap_map, List.map_flatMap]
  · intro p mem
    obtain ⟨q, member, rfl⟩ := List.mem_map.mp mem
    exact kinds q member
  · intro lines
    rw [splitLines_joinComment, text]
    · simp
    · intro t mem
      obtain ⟨p, member, rfl⟩ := List.mem_map.mp mem
      exact lines (p.1.word, p.2.word) (List.mem_map_of_mem member)

variable {g : Grammar} {closers : List Kind} {room : Nat} {ws w : List Word}

theorem Yields.statementRound_code {P : Option (List Stmt) → Prop}
    (h : Yields (codeRound g closers) room ws w P)
    (separator : (Word.next ws).isSeparator = false) (comment : Word.next ws ≠ .comment) :
    Yields (statementRound g closers) room ws w P := by
  refine Yields.kind.bind fun k hk => ?_
  rw [← hk] at separator comment
  cases k <;> first | exact h | exact absurd rfl comment | cases separator

theorem Yields.statementRound_newline :
    Yields (statementRound g closers) room (.newline :: w) w fun r => ∃ found, r = some found ∧
      found = [] := by
  refine Yields.kind.bind fun k hk => ?_
  subst hk
  exact Yields.advance.bind fun _ _ => .pure ⟨_, rfl, rfl⟩

theorem State.closes_eq {s : State} (words : s.words = w) :
    s.closes closers = ((closers.contains (Word.next w) ||
      (0 < s.functions && closesFunction (Word.next w))) &&
        !(Word.next (w.drop 1)).isAssignment) := by
  rw [State.closes, s.kind_eq_next, s.kindAt_eq_next, words]

theorem Yields.statementRound_close (closing : ∀ k ∈ closers, closesBlock k = true)
    (h : Closing closers w) : Yields (statementRound g closers) room w w (· = none) := by
  by_cases file : Word.next w = .endOfFile
  · refine Yields.kind.bind fun k hk => ?_
    rw [file] at hk
    subst hk
    exact .pure rfl
  · obtain ⟨mem, plain⟩ : Word.next w ∈ closers ∧ _ := by simpa [Closing, file] using h
    have closes := closing _ mem
    refine Yields.statementRound_code ?_ ?_ ?_
    · refine (Yields.inspect (P := (· = true)) fun s words => ?_).bind fun b hb => ?_
      · rw [State.closes_eq words]
        simp [mem, plain]
      · subst hb
        exact .pure rfl
    · cases kind : Word.next w <;> rw [kind] at closes <;> first | rfl | cases closes
    · intro comment
      rw [comment] at closes
      cases closes

theorem Yields.trailingComment_none (code : Word.next w ≠ .comment) :
    Yields trailingComment room w w (· = []) := by
  refine Yields.isAt.bind fun b hb => ?_
  obtain rfl : b = false := by simp [hb, code]
  exact .pure rfl

theorem Yields.trailingComment_some {x : Word} (comment : x.kind = .comment) :
    Yields trailingComment room (x :: w) w fun cs => ∃ range, cs = [.comment ⟨x.text, range⟩] := by
  refine Yields.isAt.bind fun b hb => ?_
  obtain rfl : b = true := by simp [hb, comment]
  exact Yields.comment.bind fun cm hcm => .pure ⟨cm.range, by rw [← hcm]⟩

theorem Yields.finishStatement {st : Stmt} {P : List Stmt → Prop}
    (h : Yields trailingComment room ws w P)
    (ends : Word.next w = .newline ∨ Word.next w = .endOfFile) :
    Yields (finishStatement st) room ws w P := by
  refine h.bind fun cs hcs => Yields.kind.bind fun k hk => ?_
  have ends' : (k.isSeparator || closesBlock k) = true := by
    rcases ends with ends | ends <;> rw [hk, ends] <;> rfl
  simp only [ends', if_true]
  exact .pure hcs

theorem Yields.statementRound_statement {P : Stmt → Prop} {Q : List Stmt → Prop} {u v : List Word}
    (closing : ∀ k ∈ closers, closesBlock k = true) (nonempty : u ≠ [])
    (opens : (Word.next u).opens = true) (h : Yields g.statement room (u ++ v) v P)
    (finish : ∀ st, Yields (Parser.finishStatement st) room v w Q) :
    Yields (statementRound g closers) room (u ++ v) w fun r => ∃ found, r = some found ∧
      ∃ st comments, found = st :: comments ∧ P st ∧ Q comments := by
  have next := Word.next_append nonempty v
  simp only [Kind.opens, Bool.and_eq_true, Bool.not_eq_true', decide_eq_true_eq] at opens
  obtain ⟨⟨separator, comment⟩, closes⟩ := opens
  refine Yields.statementRound_code ?_ (by rwa [next]) (by rwa [next])
  refine (Yields.inspect (P := (· = false)) fun s words => ?_).bind fun b hb => ?_
  · have outside : Word.next u ∉ closers := fun mem => by
      rw [closing _ mem] at closes
      cases closes
    have inside : closesFunction (Word.next u) = false := by
      cases kind : Word.next u <;> rw [kind] at closes <;> first | rfl | cases closes
    rw [State.closes_eq words, next]
    simp [outside, inside]
  · subst hb
    refine h.attemptPast.bind fun r hr => ?_
    obtain ⟨st, rfl, holds⟩ := hr
    exact (finish st).bind fun comments hc => .pure ⟨_, rfl, st, comments, rfl, holds, hc⟩

end Parser

theorem stmtsBare_cons {st : Stmt} (code : st.isComment = false) (rest : List Stmt) :
    stmtsBare (st :: rest) = st.bare :: stmtsBare rest := by
  cases st <;> first | rfl | cases code

theorem stmtsBare_comment {text : String} (line : '\n' ∉ text.toList) (range : Range)
    (rest : List Stmt) :
    stmtsBare (.comment ⟨text, range⟩ :: rest) = .comment ⟨text, .nowhere⟩ :: stmtsBare rest := by
  simp [stmtsBare, Comment.lines, splitLines_line line]

namespace Parser

variable (start : Range) (stmts : List Stmt)

theorem statements_makeBlock : (makeBlock start stmts).statements = stmts := by
  unfold makeBlock
  split <;> rfl

theorem blockFits_makeBlock (o : Options) (room : Nat) :
    blockFits o (makeBlock start stmts) room = stmtsFit o stmts room := by
  unfold makeBlock
  split <;> rfl

theorem blockBare_makeBlock : blockBare (makeBlock start stmts) = ⟨stmtsBare stmts, .nowhere⟩ := by
  unfold makeBlock
  split <;> rfl

end Parser

namespace Entries

variable {c : Setting} {g : Grammar} {room : Nat} {closers : List Kind} {w ws : List Word}
  {all : List Stmt}

theorem yields (h : Entries c g.statement room closers w ws all)
    (closing : ∀ k ∈ closers, closesBlock k = true) :
    Yields (statements g closers) room ws w fun stmts => c.exact → stmtsBare stmts = all := by
  -- a round may take several entries, so the induction is on the number of words
  induction size : ws.length using Nat.strongRecOn generalizing ws all with
  | ind n ih =>
    cases h with
    | nil close => exact Yields.many_nil (fun _ => rfl) (.statementRound_close closing close)
    | newline rest =>
      refine Yields.many_cons .statementRound_newline (by simp)
        (ih _ (by simp [← size]) rest rfl) ?_
      rintro _ more rfl bare
      exact bare
    | @comment x line ws all isComment feed kept _ rest =>
      intro s fits words
      obtain ⟨cm, t, more, run, rfl, kinds, lines⟩ := Reads.exists_commentRun words
      obtain ⟨last, entries, feeds, bare⟩ := rest.of_comments kinds closing
      have fewer : t.words.length < n := by
        rw [← size]
        simp only [List.length_append, List.length_cons]
        omega
      obtain ⟨stmts, s', run', words', bare'⟩ :=
        ih _ fewer entries rfl t (by rwa [run.advances.nesting]) rfl
      have round : Reads (statementRound g closers) s (some [.comment cm]) t := by
        have kind : s.kind = .comment := by rw [s.kind_eq_next, words, Word.next_cons, isComment]
        unfold statementRound
        refine reads_bind.mpr ⟨_, s, reads_kind.mpr ⟨kind, rfl⟩, ?_⟩
        exact reads_bind.mpr ⟨cm, t, run, reads_pure.mpr ⟨rfl, rfl⟩⟩
      have shorter : t.rest.size < s.rest.size := by
        rw [t.size_eq_length_words, s.size_eq_length_words, words, size]
        exact fewer
      refine ⟨[.comment cm] ++ stmts, s',
        reads_many.mpr (.inr ⟨_, _, t, rfl, round, shorter, run'⟩), words', fun exact => ?_⟩
      rw [List.singleton_append, stmtsBare, Comment.lines, lines feeds, bare' exact, bare exact,
        splitLines_line feed, kept exact]
      simp [← kept exact, Function.comp_def]
    | @statement st u ws all nonempty opens ends read rest =>
      have shorter := Word.length_lt_append nonempty ws
      by_cases comment : Word.next ws = .comment
      · -- the comment on the same line is taken with the statement
        obtain ⟨x, ws, rfl⟩ : ∃ x tail, ws = x :: tail := by
          cases ws with
          | nil => cases comment
          | cons x tail => exact ⟨x, tail, rfl⟩
        obtain ⟨line, last, rfl, feed, kept, after, entries⟩ := rest.of_comment comment closing
        have round := Yields.statementRound_statement closing nonempty opens read fun st =>
          Yields.finishStatement (.trailingComment_some comment) after
        refine Yields.many_cons round ?_ (ih _ ?_ entries rfl) ?_
        · simp only [List.length_append, List.length_cons]
          omega
        · rw [← size]
          simp only [List.length_append, List.length_cons]
          omega
        · rintro _ more ⟨st', _, rfl, echo, range, rfl⟩ bare exact
          rw [List.cons_append, stmtsBare_cons echo.code, List.singleton_append,
            stmtsBare_comment feed, bare exact, echo.bare exact, kept exact]
      · have line : Word.next ws = .newline ∨ Word.next ws = .endOfFile := by
          simpa [Kind.endsLine, comment] using ends
        have round := Yields.statementRound_statement closing nonempty opens read fun st =>
          Yields.finishStatement (.trailingComment_none comment) line
        refine Yields.many_cons round shorter (ih _ (size ▸ shorter) rest rfl) ?_
        rintro _ more ⟨st', _, rfl, echo, rfl⟩ bare exact
        rw [List.singleton_append, stmtsBare_cons echo.code, bare exact, echo.bare exact]

theorem block (h : Entries c g.statement room closers w ws all)
    (closing : ∀ k ∈ closers, closesBlock k = true) (ends : (Word.next ws).endsLine = true) :
    Yields (block g closers) room ws w fun body => c.exact →
      blockBare body = ⟨all, .nowhere⟩ := by
  refine Yields.here.bind fun start _ => ?_
  by_cases comment : Word.next ws = .comment
  · obtain ⟨x, ws, rfl⟩ : ∃ x tail, ws = x :: tail := by
      cases ws with
      | nil => cases comment
      | cons x tail => exact ⟨x, tail, rfl⟩
    obtain ⟨line, last, rfl, feed, kept, after, entries⟩ := h.of_comment comment closing
    refine (Yields.trailingComment_some comment).bind fun header hh =>
      (entries.yields closing).bind fun stmts bare => .pure fun exact => ?_
    obtain ⟨range, rfl⟩ := hh
    rw [blockBare_makeBlock, List.singleton_append, stmtsBare_comment feed, bare exact, kept exact]
  · refine (Yields.trailingComment_none comment).bind fun header hh =>
      (h.yields closing).bind fun stmts bare => .pure fun exact => ?_
    rw [blockBare_makeBlock, hh, List.nil_append, bare exact]

end Entries

end BrightScript
