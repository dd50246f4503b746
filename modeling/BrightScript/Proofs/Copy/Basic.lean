import BrightScript.Proofs.Emit.Fits
import BrightScript.Proofs.Parser.Yields
import BrightScript.Proofs.Token.Phrase
import BrightScript.Proofs.Token.Scanned
import BrightScript.Proofs.Tree.Bare

/-! The copy of a tree: what the text that is written for it is read as.
A quiet run over the tokens of a source gives a tree, and the words of its copy are read by the
same routines in the same order. Where the run looks ahead, the copy has the same kind of word
next, or one that ends whatever is being read. -/
namespace BrightScript

open BrightScript.Parser BrightScript.Emit

/-- How copies are made and what is asked of them. -/
structure Setting where
  options : Options
  /- The copy has to be the same tree. This is asked of BrightScript only. -/
  exact : Prop
  plain : options.layout.Plain
  helpers : ¬ exact → ∀ name ∈ ["simpleTernary", "scopeSafeTernary"],
    (⟨.identifier, options.stem ++ name, none⟩ : Word).Genuine

theorem toList_space : " ".toList = [' '] := rfl

theorem Word.length_lt_append {u : List Word} (nonempty : u ≠ []) (w : List Word) :
    w.length < (u ++ w).length := by
  have some := List.length_pos_iff.mpr nonempty
  rw [List.length_append]
  omega

namespace Setting

abbrev layout (c : Setting) : Layout := c.options.layout

abbrev text (c : Setting) (pieces : List Piece) : List Char := chars c.layout pieces

theorem text_append (c : Setting) (first second : List Piece) :
    c.text (first ++ second) = c.text first ++ c.text second := chars_append _ _ _

end Setting

/-- The word `k` may stand before the token, also where only a blank is between them. -/
structure Joins (k : Kind) (t : Token) : Prop where
  single : Kind.combine? k t.kind = none
  point : Scan.endsOperand (some k) = true → t.word.isPoint = false

theorem Joins.of_loose {k : Kind} (loose : k.isLoose = true) (t : Token) : Joins k t := by
  simp only [Kind.isLoose, Bool.and_eq_true, Bool.not_eq_true'] at loose
  refine ⟨Kind.combine?_of_not_first loose.1.1 _, fun operand => ?_⟩
  rw [loose.1.2] at operand
  cases operand

/-- What is known of a state in a quiet run over the tokens of a text. -/
structure Sound (c : Setting) (s : State) : Prop where
  scanned : Scanned s.rest.items
  separate : Separate s.rest.items
  unmarked : s.discard = false
  mode : c.exact → s.mode = .brightScript
  returns : ∀ t ∈ s.rest.items, t.kind = .comment → t.text.toList.getLast? = some '\r' →
    ¬ c.exact ∧ c.layout.newline = "\n"

namespace Sound

variable {c : Setting} {s s' : State}

theorem advances (h : Sound c s) (advances : s.Advances s') (unmarked : s'.discard = s.discard) :
    Sound c s' where
  scanned := h.scanned.suffix advances.suffix
  separate := h.separate.suffix advances.suffix
  unmarked := unmarked.trans h.unmarked
  mode exact := advances.mode.trans (h.mode exact)
  returns t mem := h.returns t (advances.suffix.mem mem)

theorem reads {α : Type} {p : Parser α} {a : α} (h : Sound c s) (run : Reads p s a s') :
    Sound c s' := h.advances run.advances run.discard_eq

theorem drop (h : Sound c s) (n : Nat) : Sound c (s.drop n) :=
  h.advances (.drop n s) rfl

theorem atNesting (h : Sound c s) (n : Nat) : Sound c (s.atNesting n) :=
  ⟨h.scanned, h.separate, h.unmarked, h.mode, h.returns⟩

theorem atFunctions (h : Sound c s) (n : Nat) : Sound c (s.atFunctions n) :=
  ⟨h.scanned, h.separate, h.unmarked, h.mode, h.returns⟩

theorem withDiscard (h : Sound c s) : Sound c (s.withDiscard false) :=
  ⟨h.scanned, h.separate, rfl, h.mode, h.returns⟩

theorem genuine (h : Sound c s) (file : s.kind ≠ .endOfFile) (code : s.kind ≠ .comment) :
    s.token.word.Genuine := h.scanned.genuine _ (State.token_mem file) file code

theorem genuine_word (h : Sound c s) (word : s.kind.isWord = true) : s.token.word.Genuine := by
  refine h.genuine ?_ ?_
  · intro same
    rw [same] at word
    cases word
  · intro same
    rw [same] at word
    cases word

/- In an exact copy comments stay as they are. -/
theorem comment_of_mem (h : Sound c s) {t : Token} (mem : t ∈ s.rest.items)
    (comment : t.kind = .comment) :
    IsComment t.text.toList ∧ (t.text.toList.getLast? = some '\r' → c.layout.newline = "\n") ∧
      (c.exact → (Word.comment t.text.toList).text = t.text) := by
  refine ⟨(h.scanned.comment _ mem comment).1, fun ret => (h.returns _ mem comment ret).2,
    fun exact => ?_⟩
  have plain : t.text.toList.getLast? ≠ some '\r' :=
    fun ret => (h.returns _ mem comment ret).1 exact
  simp [Word.comment, Comment.shown, plain]

theorem comment (h : Sound c s) (comment : s.kind = .comment) :
    IsComment s.token.text.toList ∧
      (s.token.text.toList.getLast? = some '\r' → c.layout.newline = "\n") ∧
      (c.exact → (Word.comment s.token.text.toList).text = s.token.text) :=
  h.comment_of_mem (State.token_mem (by rw [comment]; decide)) comment

theorem joins (h : Sound c s) (file : s.kind ≠ .endOfFile) : Joins s.kind (s.drop 1).token := by
  have items := State.items_eq file
  have separate := h.separate
  have point := h.scanned.point
  rw [items] at point
  unfold Separate at separate
  rw [items] at separate
  cases rest : (s.drop 1).rest.items with
  | nil =>
    have : (s.drop 1).token = .endOfFile s.finish := by
      unfold State.token Input.head?
      rw [rest]
      rfl
    rw [this]
    exact ⟨Kind.combine?_eq_none rfl _, fun _ => rfl⟩
  | cons t rest' =>
    have : (s.drop 1).token = t := by
      unfold State.token Input.head?
      rw [rest]
      rfl
    rw [rest] at separate point
    rw [this]
    exact ⟨(List.isChain_cons_cons.mp separate).1, (List.isChain_cons_cons.mp point).1⟩

theorem joins_at {k : Kind} (h : Sound c s) (at_ : s.kind = k) (open_ : k ≠ .endOfFile) :
    Joins k (s.drop 1).token := at_ ▸ h.joins (at_ ▸ open_)

end Sound

namespace Kind

def isFinal (k : Kind) : Bool :=
  k.isWord || k.isLiteral || k = .rightParen || k = .rightSquare || k = .rightCurly

/-- Kinds that go on with an operand before them. -/
def accesses (k : Kind) : Bool := k = .leftParen || k = .leftSquare || k = .dot

def prolongs (k : Kind) : Bool := k.accesses || k.precedence?.isSome || k = .questionMark

/-- Kinds that never go on with an operand or an expression before them. -/
def stops (k : Kind) : Bool := !k.prolongs && !k.isAssignment

/-- Kinds with which an expression begins. -/
def begins (k : Kind) : Bool :=
  k = .identifier || k.isLiteral || k = .leftParen || k = .leftSquare || k = .leftCurly ||
    k = .function || k = .sub || isPrefixOperator k

theorem ne_comment_of_isFinal {k : Kind} (h : k.isFinal = true) : k ≠ .comment := by
  rintro rfl
  cases h

theorem ne_of_begins {k : Kind} (h : k.begins = true) (k' : Kind) (other : k'.begins = false) :
    k ≠ k' := by
  rintro rfl
  rw [h] at other
  cases other

end Kind

/-- The copy begins as the source does at the token `t`, or else with a name. -/
def Leads (t : Token) (text : List Char) (ws : List Word) : Prop :=
  ∃ x tail more, ws = x :: tail ∧ text = x.text.toList ++ more ∧ x.Genuine ∧
    (x.kind = t.kind ∧ (t.word.isPoint = false → x.isPoint = false) ∨ x.kind = .identifier)

theorem Leads.joins {t : Token} {text : List Char} {ws : List Word} {k : Kind}
    (h : Leads t text ws) (joins : Joins k t) :
    Kind.combine? k (Word.next ws) = none ∧
      (Scan.endsOperand (some k) = true → Word.startsWithPoint ws = false) := by
  obtain ⟨x, tail, more, rfl, _, genuine, ⟨same, point⟩ | name⟩ := h
  · exact ⟨by rw [Word.next_cons, same, joins.single], fun operand => point (joins.point operand)⟩
  · exact ⟨Kind.combine?_eq_none (by rw [Word.next_cons, name]; rfl) k,
      fun _ => genuine.isPoint_eq_false (by rw [name]; rfl)⟩

/-- After what the source has before a token of kind `k`, the copy has the words `w`. -/
def Follow (k : Kind) (w : List Word) : Prop := Word.next w = k ∨ (Word.next w).stops = true

theorem Follow.of_eq {k : Kind} {w : List Word} (h : Word.next w = k) : Follow k w := .inl h

/- A name in front of an assignment or a colon would begin a statement of another kind. -/
def Inner (ws : List Word) : Prop :=
  ∀ x y tail, ws = x :: y :: tail → x.kind.isWord = true →
    y.kind.isAssignment = false ∧ y.kind ≠ .colon

/-- What routines look at in an expression that has been read. -/
inductive Outline where
  | literal (kind : Kind)
  | dotted
  | indexed
  | call
  | other
  deriving DecidableEq

/- A conditional is written as a call. -/
def Expr.outline : Expr → Outline
  | .literal l => .literal l.kind
  | .dotted _ _ _ => .dotted
  | .indexed _ _ _ => .indexed
  | .call _ _ _ | .conditional _ _ _ _ => .call
  | _ => .other

def Expr.isOperand : Expr → Bool
  | .binary _ _ _ _ | .conditional _ _ _ _ => false
  | _ => true

def Expr.isAccess : Expr → Bool
  | .dotted _ _ _ | .indexed _ _ _ | .call _ _ _ => true
  | _ => false

theorem Expr.isConditional_of_isOperand {e : Expr} (h : e.isOperand = true) :
    e.isConditional = false := by
  cases e <;> first | rfl | cases h

structure Echo (c : Setting) (e e' : Expr) : Prop where
  outline : e'.outline = e.outline
  bare : c.exact → e'.bare = e.bare

/-- The name of a variable as it is written. -/
def IsName (name : String) : Prop := ∃ v, (⟨.identifier, name, v⟩ : Word).Genuine

/-- The text of an expression that is read from the token `first` up to `next`. -/
structure Spelled (c : Setting) (level : Nat) (e : Expr) (first next : Token) (ws : List Word) :
    Prop where
  phrase : Phrase c.layout (c.text (exprPieces c.options level e)) ws
  leads : Leads first (c.text (exprPieces c.options level e)) ws
  begins : (Word.next ws).begins = true
  inner : e.isOperand = true → Inner ws
  long : e.isAccess = true → 2 ≤ ws.length
  final : ∀ k, (Word.last k ws).isFinal = true
  joins : e.isConditional = false → ∀ k, Joins (Word.last k ws) next
  closed : e.isConditional = true → ∀ k, Word.last k ws = .rightParen
  point : Word.startsWithPoint ws = true → e.startsWithPoint = true

theorem Emit.commentPieces_line (level : Nat) {text : String} (line : '\n' ∉ text.toList)
    (range : Range) : commentPieces level ⟨text, range⟩ = [.text text] := by
  simp [commentPieces, splitLines_line line]

namespace Spelled

variable {c : Setting} {level : Nat} {e e' : Expr} {first mid next : Token} {ws ws' : List Word}

theorem of_word {x : Word} {more : List Char} (genuine : x.Genuine)
    (same : x.kind = first.kind ∧ (first.word.isPoint = false → x.isPoint = false) ∨
      x.kind = .identifier)
    (pieces : c.text (exprPieces c.options level e) = x.text.toList ++ more)
    (tail : Continues c.layout x.kind more ws) (begins : x.kind.begins = true)
    (inner : x.kind.isWord = true →
      (Word.next ws).isAssignment = false ∧ Word.next ws ≠ .colon)
    (final : (Word.last x.kind ws).isFinal = true)
    (joins : e.isConditional = false → Joins (Word.last x.kind ws) next)
    (closed : e.isConditional = true → Word.last x.kind ws = .rightParen)
    (point : x.isPoint = true → e.startsWithPoint = true) (simple : e.isAccess = false) :
    Spelled c level e first next (x :: ws) where
  phrase := pieces ▸ (Phrase.word genuine).append fun _ => tail
  leads := ⟨x, ws, more, rfl, pieces, genuine, same⟩
  begins := begins
  inner _ y z rest eq word := by
    obtain ⟨rfl, rfl⟩ := List.cons.inj eq
    exact inner word
  long access := by
    rw [simple] at access
    cases access
  final _ := final
  joins plain _ := joins plain
  closed isConditional _ := closed isConditional
  point := point

theorem extend {more : List Piece} (h : Spelled c level e first mid ws)
    (pieces : exprPieces c.options level e' = exprPieces c.options level e ++ more)
    (plain : e'.isConditional = false) (point : e'.startsWithPoint = e.startsWithPoint)
    (tail : ∀ k, k.isFinal = true → Continues c.layout k (c.text more) ws') (nonempty : ws' ≠ [])
    (inner : e'.isOperand = true → e.isOperand = true ∧
      (Word.next ws').isAssignment = false ∧ Word.next ws' ≠ .colon)
    (final : ∀ k, (Word.last k ws').isFinal = true) (joins : ∀ k, Joins (Word.last k ws') next) :
    Spelled c level e' first next (ws ++ ws') where
  phrase := by
    rw [Setting.text, pieces, chars_append]
    exact h.phrase.append fun k => tail _ (h.final k)
  leads := by
    obtain ⟨x, rest, more', rfl, text, genuine, same⟩ := h.leads
    refine ⟨x, rest ++ ws', more' ++ c.text more, rfl, ?_, genuine, same⟩
    rw [Setting.text, pieces, chars_append, ← List.append_assoc, ← text]
  begins := by rw [h.phrase.next_append, h.begins]
  inner operand x y rest eq word := by
    obtain ⟨operand', next⟩ := inner operand
    obtain ⟨z, zs, _, rfl, _⟩ := h.leads
    cases zs with
    | nil =>
      cases ws' with
      | nil => exact absurd rfl nonempty
      | cons y' rest' =>
        simp only [List.singleton_append, List.cons.injEq] at eq
        rw [← eq.2.1]
        exact next
    | cons y' rest' =>
      simp only [List.cons_append, List.cons.injEq] at eq
      obtain ⟨rfl, rfl, _⟩ := eq
      exact h.inner operand' z y' rest' rfl word
  long _ := by
    have before := List.length_pos_iff.mpr h.phrase.nonempty
    have after := List.length_pos_iff.mpr nonempty
    simp only [List.length_append]
    omega
  final k := by rw [Word.last_append]; exact final _
  joins _ k := by rw [Word.last_append]; exact joins _
  closed isConditional := by rw [plain] at isConditional; cases isConditional
  point starts := by
    obtain ⟨z, zs, _, rfl, _⟩ := h.leads
    rw [point]
    exact h.point starts

end Spelled

/-- What reading an expression from `s` up to `s'` says about its copy, if there is room for it. The
routines `q` read it. -/
structure Copied (c : Setting) (q : Nat → Parser Expr) (need : Nat → Bool) (e : Expr)
    (s s' : State) : Prop where
  names : ∀ x ∈ e.occurrences, IsName x.name
  fits : c.exact → need (maxNesting - s.nesting) = true
  written : ∀ level room, need room = true → ∃ ws, Spelled c level e s.token s'.token ws ∧
    ∀ m w, room ≤ m → Follow s'.kind w → Yields (q m) room (ws ++ w) w (Echo c e)

/- The same while a loop still goes on from the expression. -/
structure Opened (c : Setting) (q : Nat → Parser Expr) (goOn : Nat → Expr → Parser Expr) (e : Expr)
    (s s' : State) : Prop where
  plain : e.isConditional = false
  names : ∀ x ∈ e.occurrences, IsName x.name
  fits : c.exact → e.fits c.options (maxNesting - s.nesting) = true
  written : ∀ level room, e.fits c.options room = true →
    ∃ ws, Spelled c level e s.token s'.token ws ∧ ∀ m w v P, room ≤ m → Follow s'.kind w →
      (∀ e', Echo c e e' → Yields (goOn m e') room w v P) → Yields (q m) room (ws ++ w) v P

section

variable {c : Setting} {q : Nat → Parser Expr} {round : Nat → Expr → Parser (Round Expr Expr)}
  {e next : Expr} {s t u : State}

theorem Copied.opened (h : Copied c q (e.fits c.options) e s t) (plain : e.isConditional = false)
    (goOn : Nat → Expr → Parser Expr) : Opened c (fun m => q m >>= goOn m) goOn e s t where
  plain := plain
  names := h.names
  fits := h.fits
  written level room fits := by
    obtain ⟨ws, spelled, yields⟩ := h.written level room fits
    exact ⟨ws, spelled, fun m w v P le follow rest => (yields m w le follow).bind rest⟩

theorem Opened.again (more : Nat → List Piece) (h : Opened c q (fun m => loop (round m)) e s t)
    (pieces : ∀ level,
      exprPieces c.options level next = exprPieces c.options level e ++ more level)
    (plain : next.isConditional = false) (point : next.startsWithPoint = e.startsWithPoint)
    (inner : next.isOperand = true →
      e.isOperand = true ∧ t.kind.isAssignment = false ∧ t.kind ≠ .colon)
    (names : ∀ x ∈ next.occurrences, IsName x.name)
    (fits : c.exact → next.fits c.options (maxNesting - s.nesting) = true)
    (less : ∀ room, next.fits c.options room = true → e.fits c.options room = true)
    (written : ∀ level room, next.fits c.options room = true →
      ∃ ws, ws ≠ [] ∧ Word.next ws = t.kind ∧
        (∀ k, k.isFinal = true → Continues c.layout k (c.text (more level)) ws) ∧
        (∀ k, (Word.last k ws).isFinal = true ∧ Joins (Word.last k ws) u.token) ∧
        ∀ m w e', room ≤ m → Follow u.kind w → Echo c e e' →
          Yields (round m e') room (ws ++ w) w fun r =>
            ∃ next', r = .again next' ∧ Echo c next next') :
    Opened c q (fun m => loop (round m)) next s u where
  plain := plain
  names := names
  fits := fits
  written level room fits := by
    obtain ⟨ws, spelled, yields⟩ := h.written level room (less room fits)
    obtain ⟨ws', nonempty, start, tail, last, yields'⟩ := written level room fits
    refine ⟨ws ++ ws', spelled.extend (pieces level) plain point tail nonempty (start ▸ inner)
      (fun k => (last k).1) (fun k => (last k).2), fun m w v P le follow goOn => ?_⟩
    rw [List.append_assoc]
    have follow' : Follow t.kind (ws' ++ w) := .of_eq (by rw [Word.next_append nonempty, start])
    refine yields m (ws' ++ w) v P le follow' fun e' echo => ?_
    refine Yields.loop_again (yields' m w e' le follow echo) ?_ goOn
    simpa using List.length_pos_of_ne_nil nonempty

theorem Opened.done (h : Opened c q (fun m => loop (round m)) e s t)
    (stop : ∀ m room w e', Follow t.kind w →
      Yields (round m e') room w w fun r => r = .done e') :
    Copied c q (e.fits c.options) e s t where
  names := h.names
  fits := h.fits
  written level room fits := by
    obtain ⟨ws, spelled, yields⟩ := h.written level room fits
    refine ⟨ws, spelled, fun m w le follow => ?_⟩
    refine yields m w w _ le follow fun e' echo => Yields.loop_done ?_
    exact (stop m room w e' follow).mono fun r done => ⟨e', done, echo⟩

end

namespace Kind

def endsLine (k : Kind) : Bool := k = .newline || k = .endOfFile || k = .comment

/-- Kinds with which a statement may begin. -/
def opens (k : Kind) : Bool := !k.isSeparator && k ≠ .comment && !closesBlock k

end Kind

/-- After a statement a line ends in the copy, or a colon or an `else` follows as in the source, where
there may be a colon before the `else` as well. -/
def Ends (k : Kind) (w : List Word) : Prop :=
  (Word.next w).endsLine = true ∨
    ((Word.next w = .colon ∨ Word.next w = .else_ ∨ Word.next w = .elseIf) ∧
      (k = Word.next w ∨ k = .colon))

def Stmt.isComment : Stmt → Bool
  | .comment _ => true
  | _ => false

structure StmtEcho (c : Setting) (st st' : Stmt) : Prop where
  code : st'.isComment = false
  bare : c.exact → st'.bare = st.bare

structure StmtSpelled (c : Setting) (level : Nat) (st : Stmt) (first : Token) (ws : List Word) :
    Prop where
  phrase : Phrase c.layout (c.text (stmtPieces c.options level st)) ws
  opens : (Word.next ws).opens = true
  /- An `else` before it would make one keyword with this `if`. -/
  ifs : Word.next ws = .if_ → first.kind = .if_
  code : ∀ k, Word.last k ws ≠ .comment

structure StmtCopied (c : Setting) (q : Nat → Parser Stmt) (need : Nat → Bool) (st : Stmt)
    (s s' : State) : Prop where
  code : st.isComment = false
  fits : c.exact → need (maxNesting - s.nesting) = true
  written : ∀ level room, need room = true → ∃ ws, StmtSpelled c level st s.token ws ∧
    ∀ m w, room ≤ m → Ends s'.kind w → Yields (q m) room (ws ++ w) w (StmtEcho c st)

/-- A statement that is read from `s` up to `s'`. -/
abbrev WholeCopied (c : Setting) (st : Stmt) (s s' : State) : Prop :=
  StmtCopied c (fun m => Parser.statementBody (unroll m)) (st.fits c.options) st s s'

/-- An operand that is read from `s` up to `s'`. -/
structure OperandCopied (c : Setting) (e : Expr) (s s' : State) : Prop where
  operand : e.isOperand = true
  sign : startsWithSign e = false → s.kind ≠ .minus ∧ s.kind ≠ .plus
  copied : Copied c (fun m => Parser.operand (unroll m)) (e.fits c.options) e s s'

/-- Everything that the routines of a grammar read has a copy. -/
structure Recovers (c : Setting) (g : Grammar) : Prop where
  expression : ∀ {s e s'}, Sound c s → Reads g.expression s e s' →
    Copied c (fun m => (unroll m).expression) (deeper (e.fits c.options)) e s s'
  operand : ∀ {s e s'}, Sound c s → Reads g.operand s e s' → OperandCopied c e s s'
  statement : ∀ {s st s'}, Sound c s → Reads g.statement s st s' →
    StmtCopied c (fun m => (unroll m).statement) (deeper (st.fits c.options)) st s s'
  /- What could go on has been read. -/
  operandEnds : ∀ {s e s'}, Reads g.operand s e s' → s'.kind.accesses = false
  expressionEnds : ∀ {s e s'}, Reads g.expression s e s' → s'.kind.prolongs = false
  /- In BrightScript there are no conditionals. -/
  expressionPlain : ∀ {s e s'}, c.exact → Sound c s → Reads g.expression s e s' →
    e.isConditional = false

end BrightScript
