import BrightScript.Proofs.Parser.Accounts

/-! A tree read without a report keeps what its tokens keep, in the same order. -/
namespace BrightScript.Parser

variable {g : Grammar} {p : Context} {s s' : State} {l : List Enclosure} {m : Mark}

def Ground (l : List Enclosure) : Prop := l.head? = none ∨ l.head? = some .body

theorem Ground.ne (ground : Ground l) {f : Enclosure} (other : f ≠ .body) : l.head? ≠ some f := by
  rcases ground with none | body
  · simp [none]
  · simpa [body] using other.symm

namespace Accounts

/- The line breaks between comments that are read together keep nothing. -/
theorem contentsFrom_pairs (ground : Ground l) {pairs : List (Token × Token)}
    (kinds : ∀ p ∈ pairs, p.1.kind = .newline ∧ p.2.kind = .comment) (rest : List Token) :
    contentsFrom ⟨l, .plain⟩ (pairs.flatMap (fun p => [p.1, p.2]) ++ rest) =
      pairs.map (fun p => .comment p.2.text) ++ contentsFrom ⟨l, .plain⟩ rest := by
  induction pairs with
  | nil => rfl
  | cons p pairs ih =>
    obtain ⟨newline, comment⟩ := kinds p List.mem_cons_self
    have curly := ground.ne (f := .curly) (by decide)
    have square := ground.ne (f := .square) (by decide)
    have first : Context.contents ⟨l, .plain⟩ p.1 = [] ∧ Context.step ⟨l, .plain⟩ p.1 = ⟨l, .plain⟩ := by
      simp [Context.contents, Context.step, Context.pass, newline, curly, Kind.isValue, Mark.takesWord]
    have second : Context.contents ⟨l, .plain⟩ p.2 = [.comment p.2.text] ∧
        Context.step ⟨l, .plain⟩ p.2 = ⟨l, .plain⟩ := by
      simp [Context.contents, Context.step, Context.pass, comment, curly, square, Mark.takesWord]
    have later := ih fun q mem => kinds q (List.mem_cons_of_mem _ mem)
    simp only [List.flatMap_cons, List.cons_append, List.nil_append, contentsFrom, first, second,
      later, List.map_cons]

theorem remarks (ground : Ground l) (here : s.token.kind = .comment) {c : Comment}
    (run : Reads commentRun s c s') : Accounts ⟨l, m⟩ s c.contents ⟨l, .plain⟩ s' := by
  have curly := ground.ne (f := .curly) (by decide)
  have square := ground.ne (f := .square) (by decide)
  obtain ⟨more, found, rfl, rfl⟩ := run.commentRun_inv
  obtain ⟨pairs, same, items, kinds⟩ :=
    followingComments_items s.token.range (s.drop 1).rest.items
  have first := Accounts.remark (p := ⟨l, m⟩) here
  simp only [Context.pass, curly, square, if_false] at first
  intro faithful
  obtain ⟨⟨unmarked, tokens⟩, before⟩ := first faithful
  have drops : ((s.drop 1).drop (2 * more.length)).rest.items =
      (s.drop 1).rest.items.drop (2 * pairs.length) := by
    rw [found, same, List.length_map]
    rfl
  refine ⟨⟨unmarked, fun t mem => tokens t (List.mem_of_mem_drop mem)⟩, ?_⟩
  have lines : ∀ t ∈ more, '\n' ∉ t.text.toList := by
    intro t mem
    rw [found, same] at mem
    obtain ⟨q, member, rfl⟩ := List.mem_map.mp mem
    refine (tokens q.2 ?_).line (kinds q member).2
    rw [items]
    exact List.mem_append_left _ (List.mem_flatMap.mpr ⟨q, member, by simp⟩)
  rw [before, items, contentsFrom_pairs ground kinds, drops, ← List.append_assoc]
  congr 1
  rw [Comment.contents, Comment.contents, splitLines_joinComment lines, found, same]
  simp

end Accounts

/-- The tokens from one statement's start to where another one may stand. -/
def Runs (l : List Enclosure) (m : Mark) (s : State) (cs : List Content) (s' : State) : Prop :=
  ∃ n, Accounts ⟨l, m⟩ s cs ⟨l, n⟩ s' ∧ Starts ⟨l, n⟩ s'.token

namespace Runs

variable {cs : List Content}

theorem trans {s s' s'' : State} {a b : List Content} (first : Runs l m s a s')
    (second : ∀ n, Starts ⟨l, n⟩ s'.token → Runs l n s' b s'') : Runs l m s (a ++ b) s'' := by
  obtain ⟨n, before, starts⟩ := first
  obtain ⟨n', after, starts'⟩ := second n starts
  exact ⟨n', before.trans after, starts'⟩

theorem of_plain {s s' : State} (h : Accounts ⟨l, m⟩ s cs ⟨l, .plain⟩ s') :
    Runs l m s cs s' := ⟨.plain, h, .plain _ _⟩

theorem of_operand {s s' : State} (ground : Ground l) (h : Accounts ⟨l, m⟩ s cs ⟨l, .operand⟩ s') :
    Runs l m s cs s' :=
  ⟨.operand, h, .operand (ground.ne (by decide)) _⟩

theorem after {s s' s'' : State} {a b : List Content} {n : Mark}
    (first : Accounts ⟨l, m⟩ s a ⟨l, n⟩ s') (rest : Runs l n s' b s'') :
    Runs l m s (a ++ b) s'' := by
  obtain ⟨n', later, starts⟩ := rest
  exact ⟨n', first.trans later, starts⟩

theorem skip {s s' s'' : State} {n : Mark} (first : Accounts ⟨l, m⟩ s [] ⟨l, n⟩ s')
    (rest : Runs l n s' cs s'') :
    Runs l m s cs s'' := after first rest

theorem before {s s' s'' : State} (first : Runs l m s cs s')
    (last : ∀ n, Starts ⟨l, n⟩ s'.token → Runs l n s' [] s'') : Runs l m s cs s'' := by
  have whole := first.trans last
  rwa [List.append_nil] at whole

theorem of_unmarked {s s' : State} (h : s.discard = false → Runs l m s cs s') :
    Runs l m s cs s' := by
  cases unmarked : s.discard with
  | false => exact h unmarked
  | true =>
    refine ⟨.plain, fun faithful => ?_, .plain _ _⟩
    exact absurd (unmarked.symm.trans faithful.1) (by decide)

end Runs

/-- An expression that is read accounts for its tokens. -/
def Counts (q : Parser Expr) : Prop :=
  ∀ ⦃p s e s'⦄, Reads q s e s' → Starts p s.token → Accounts p s e.contents ⟨p.around, .operand⟩ s'

/-- The routines one level further in account for all that they read. -/
structure Counted (g : Grammar) : Prop where
  expression : Counts g.expression
  operand : Counts g.operand
  statement : ∀ {l m s st s'}, Reads g.statement s st s' → Ground l → Starts ⟨l, m⟩ s.token →
    Runs l m s st.contents s'

namespace Counted

variable {st : Stmt}

theorem trailingComment (ground : Ground l) (starts : Starts ⟨l, m⟩ s.token) {comments : List Stmt}
    (run : Reads trailingComment s comments s') : Runs l m s (stmtsContents comments) s' := by
  obtain ⟨_, rfl, rfl⟩ | ⟨here, rfl, rfl⟩ := run.trailingComment_inv
  · exact ⟨m, .refl _ _, starts⟩
  · have curly := ground.ne (f := .curly) (by decide)
    have square := ground.ne (f := .square) (by decide)
    have remark := Accounts.remark (p := ⟨l, m⟩) here
    simp only [Context.pass, curly, square, if_false] at remark
    exact ⟨.plain, remark.cast (List.append_nil _).symm, .plain _ _⟩

theorem blockContents_makeBlock (range : Range) (stmts : List Stmt) :
    blockContents (makeBlock range stmts) = stmtsContents stmts := by
  unfold makeBlock
  split <;> rfl

/- The name `as` is only looked for where it begins a type. -/
theorem asType {missing type : Ty} (run : Reads (asType missing) s type s')
    (opens : p.mark = .headerEnd ∨ p.mark = .operand ∧ p.around.head? = some .header) :
    ∃ n, Accounts p s [] ⟨p.around, n⟩ s' ∧
      (n = .plain ∨ n = p.mark ∧ s.named "as" = false ∧ s' = s) := by
  obtain ⟨named, read⟩ | ⟨other, _, rfl⟩ := run.asType_inv
  · obtain ⟨word, _, rfl⟩ := read.typeName_inv
    rw [State.named, Bool.and_eq_true, decide_eq_true_eq] at named
    have type : p.opensType s.token = true := by
      rcases opens with mark | ⟨mark, header⟩
      · simp [Context.opensType, mark, named.2]
      · simp [Context.opensType, mark, header, named.2]
    have free : p.mark.takesWord = false ∧ p.afterName s.token = .as_ := by
      rcases opens with mark | ⟨mark, _⟩ <;> simp [Context.afterName, mark, type, Mark.takesWord]
    have as_ := Accounts.skipped named.1 free.1 (by simp [Context.skips, type])
    rw [free.2] at as_
    exact ⟨.plain, as_.skip (.type word rfl), .inl rfl⟩
  · exact ⟨p.mark, .refl _ _, .inr ⟨rfl, other, rfl⟩⟩

theorem operator {k : Kind} (here : s.kind = k)
    (operates : (k.precedence?.isSome || k.isAssignment || isPrefixOperator k) = true)
    (loose : p.mark.isLoose = true) : Accounts p s [] ⟨p.around, .plain⟩ (s.drop 1) := by
  have plain : k.isKept = false ∧ p.pass k = ⟨p.around, .plain⟩ := by
    cases k <;> first | exact ⟨rfl, rfl⟩ | cases operates
  exact (Accounts.keyword here plain.1 loose).at_ plain.2

theorem binaryLoop {operandAt : Nat → Parser Expr} (h : ∀ level, Counts (operandAt level))
    {level : Nat} {left e : Expr} (run : Reads (loop (binaryRound operandAt level) left) s e s') :
    ∃ more, e.contents = left.contents ++ more ∧
      Accounts ⟨l, .operand⟩ s more ⟨l, .operand⟩ s' := by
  refine Reads.loop_induction (motive := fun left s => ∃ more,
    e.contents = left.contents ++ more ∧ Accounts ⟨l, .operand⟩ s more ⟨l, .operand⟩ s')
    (fun left s read => ?_) (fun left s next t read _ _ ih => ?_) run
  · obtain ⟨_, _, _, _, _, _, ⟨⟩⟩ | ⟨_, ⟨⟩, rfl⟩ := read.binaryRound_inv
    exact ⟨[], (List.append_nil _).symm, .refl _ _⟩
  · obtain ⟨more, same, rest⟩ := ih
    obtain ⟨level, right, range, binds, _, readRight, ⟨⟩⟩ | ⟨_, ⟨⟩, _⟩ := read.binaryRound_inv
    refine ⟨right.contents ++ more, by simp [same, Expr.contents], ?_⟩
    exact (operator rfl (by simp [binds]) rfl).skip ((h level readRight (.plain _ _)).trans rest)

theorem binary {operand : Parser Expr} (h : Counts operand) (level : Nat) :
    Counts (binary operand level) := by
  have from_ : ∀ depth level, Counts (binaryFrom operand depth level) := by
    intro depth
    induction depth with
    | zero => exact fun _ => h
    | succ depth ih =>
      intro level p s e s' run starts
      obtain ⟨left, t, readLeft, readRest⟩ := run.binaryFrom_succ_inv
      obtain ⟨more, same, rest⟩ := binaryLoop ih (l := p.around) readRest
      rw [same]
      exact (h readLeft starts).trans rest
  exact from_ _ level

/- A name after `next` only repeats the counter. -/
theorem closeFor (starts : Starts ⟨l, m⟩ s.token) (run : Reads closeFor s () s') :
    Runs l m s [] s' := by
  obtain ⟨here, rfl⟩ | ⟨here, rfl⟩ := run.closeFor_inv
  · have next : Accounts ⟨l, m⟩ s [] ⟨l, .next⟩ (s.drop 1) :=
      Accounts.keyword here rfl starts.loose
    unfold State.past
    split
    · rename_i name
      exact .of_plain (next.skip (Accounts.skipped name rfl rfl))
    · rename_i other
      exact ⟨.next, next, .of_ne rfl other⟩
  · exact .of_plain (Accounts.keyword here rfl starts.loose)

theorem gotoStatement (ground : Ground l) (starts : Starts ⟨l, m⟩ s.token) (here : s.kind = .goto)
    (run : Reads gotoStatement s st s') : Runs l m s st.contents s' := by
  obtain ⟨label, range, rfl, readName, rfl⟩ := run.gotoStatement_inv
  obtain ⟨atName, _, rfl, _⟩ := readName.declaredName_inv
  have whole : Accounts ⟨l, m⟩ s (nameContents (s.drop 1).token.text) ⟨l, .operand⟩
      ((s.drop 1).drop 1) :=
    (Accounts.keyword here rfl starts.loose).skip (Accounts.operandName atName (.plain l _))
  rw [State.drop_drop] at whole
  exact .of_operand ground whole

theorem labelStatement (starts : Starts ⟨l, m⟩ s.token) (label : s.atLabel = true)
    (run : Reads labelStatement s st s') : Runs l m s st.contents s' := by
  obtain ⟨rfl, rfl⟩ := run.labelStatement_inv
  simp only [State.atLabel, Bool.and_eq_true, decide_eq_true_eq, State.kindAt_one] at label
  have whole := (Accounts.operandName label.1.1 starts).before
    (Accounts.punctuation label.1.2 rfl)
  rw [State.drop_drop] at whole
  exact .of_plain whole

section

variable (h : Counted g)
include h

theorem argumentLoop {done args : List Expr}
    (run : Reads (loop (argumentRound g) done) s args s') :
    ∃ more m, args = done ++ more ∧
      Accounts ⟨.parens :: l, .plain⟩ s (exprsContents more) ⟨.parens :: l, m⟩ s' := by
  refine Reads.loop_induction (motive := fun done s => ∃ more m, args = done ++ more ∧
    Accounts ⟨.parens :: l, .plain⟩ s (exprsContents more) ⟨.parens :: l, m⟩ s')
    (fun done s read => ?_) (fun done s next t read _ _ ih => ?_) run
  · obtain ⟨e, t, readE, ⟨_, ⟨⟩, _⟩ | ⟨_, ⟨⟩, rfl⟩⟩ := read.argumentRound_inv
    have value := (h.expression readE (.plain (.parens :: l) _)).before (.newlines _ _ t)
    exact ⟨[e], _, rfl, value.cast (List.append_nil _).symm⟩
  · obtain ⟨e, u, readE, ⟨comma, ⟨⟩, rfl⟩ | ⟨_, ⟨⟩, _⟩⟩ := read.argumentRound_inv
    obtain ⟨more, m, rfl, rest⟩ := ih
    refine ⟨e :: more, m, by simp, (h.expression readE (.plain _ _)).trans ?_⟩
    exact (Accounts.newlines _ _ u).skip <| (Accounts.punctuation comma rfl).skip <|
      (Accounts.newlines_plain (by simp) _).skip rest

theorem arguments {args : List Expr} (run : Reads (arguments g) s args s') :
    Accounts ⟨.parens :: l, .plain⟩ s (exprsContents args) ⟨l, .operand⟩ s' := by
  have close {m : Mark} {t : State} (here : t.kind = .rightParen) :
      Accounts ⟨.parens :: l, m⟩ t [] ⟨l, .operand⟩ (t.drop 1) := Accounts.punctuation here rfl
  obtain ⟨t, ⟨_, rfl, rfl⟩ | ⟨_, read⟩, here, rfl⟩ := run.arguments_inv
  · exact (Accounts.newlines_plain (by simp) s).skip (close here)
  · obtain ⟨more, m, rfl, whole⟩ := h.argumentLoop (l := l) read
    exact (Accounts.newlines_plain (by simp) s).skip (whole.before (close here))

theorem elements {es : List Expr} (run : Reads (many (elementRound g)) s es s')
    (mark : m = .plain ∨ m = .operand) :
    ∃ n, Accounts ⟨.square :: l, m⟩ s (exprsContents es) ⟨.square :: l, n⟩ s' := by
  refine Reads.many_induction (motive := fun es s => ∀ m, m = .plain ∨ m = .operand →
    ∃ n, Accounts ⟨.square :: l, m⟩ s (exprsContents es) ⟨.square :: l, n⟩ s')
    (fun s read m mark => ?_) (fun s first t more read _ _ ih m mark => ?_) run m mark
  · obtain ⟨_, _, rfl⟩ | ⟨_, _, _, ⟨⟩, _⟩ := read.elementRound_inv
    exact ⟨_, .gap l m s⟩
  · obtain ⟨_, ⟨⟩, _⟩ | ⟨_, e, u, ⟨⟩, readE, separates⟩ := read.elementRound_inv
    have between (c : Prop) [Decidable c] : (if c then Mark.plain else m) = .plain ∨
        (if c then Mark.plain else m) = .operand := by
      split
      · exact .inl rfl
      · exact mark
    have value := (Accounts.gap l m s).skip (h.expression readE (.either (by simp) (between _) _))
    obtain ⟨comma, rfl⟩ | ⟨_, _, rfl⟩ := separates.separator_inv
    · obtain ⟨n, rest⟩ := ih .plain (.inl rfl)
      exact ⟨n, value.trans ((Accounts.punctuation comma rfl).skip rest)⟩
    · obtain ⟨n, rest⟩ := ih .operand (.inr rfl)
      exact ⟨n, value.trans rest⟩

theorem members {ms : List (Member Expr)} (run : Reads (many (memberRound g)) s ms s') :
    ∃ n, Accounts ⟨.curly :: l, .entry⟩ s (membersContents ms) ⟨.curly :: l, n⟩ s' := by
  refine Reads.many_induction (motive := fun ms s => ∀ m,
    m = .entry ∨ (s.kind = .newline ∨ s.kind = .comment ∨ s.kind = .rightCurly) →
    ∃ n, Accounts ⟨.curly :: l, m⟩ s (membersContents ms) ⟨.curly :: l, n⟩ s')
    (fun s read m mark => ?_) (fun s first t more read _ _ ih m mark => ?_) run .entry (.inl rfl)
  · obtain ⟨_, _, rfl⟩ | ⟨_, ⟨⟩, _⟩ | ⟨_, _, _, _, _, _, _, ⟨⟩, _⟩ := read.memberRound_inv
    exact ⟨_, .newlines _ _ s⟩
  · have lines := Accounts.newlines (.curly :: l) m s
    obtain ⟨_, ⟨⟩, _⟩ | ⟨remark, ⟨⟩, rfl⟩ |
      ⟨close, code, key, quoted, value, range, u, ⟨⟩, readKey, colon, readValue, separates⟩ :=
      read.memberRound_inv
    · obtain ⟨n, rest⟩ := ih .entry (.inl rfl)
      exact ⟨n, lines.skip ((Accounts.remark remark).trans rest)⟩
    · have entry : (if s.kind = .newline then (if (Enclosure.curly :: l).head? = some .curly then
          Mark.entry else .plain) else m) = .entry := by
        by_cases newline : s.kind = .newline
        · rw [if_pos newline]
          rfl
        · rw [if_neg newline]
          have same : s.skipWhile (· = .newline) = s :=
            State.skipWhile_of_stop (decide_eq_false newline)
          rw [same] at close code
          rcases mark with mark | newline' | comment | curly
          · exact mark
          · exact absurd newline' newline
          · exact absurd comment code
          · exact absurd curly close
      have value := (lines.skip (.key readKey entry)).before (Accounts.punctuation colon rfl)
      rw [State.drop_drop] at value
      have whole := value.trans (h.expression readValue (.plain _ _))
      obtain ⟨comma, rfl⟩ | ⟨_, ends, rfl⟩ := separates.separator_inv
      · obtain ⟨n, rest⟩ := ih .entry (.inl rfl)
        exact ⟨n, whole.trans ((Accounts.punctuation comma rfl).skip rest)⟩
      · obtain ⟨n, rest⟩ := ih .operand (.inr ends)
        exact ⟨n, whole.trans rest⟩

theorem statements (ground : Ground l) (starts : Starts ⟨l, m⟩ s.token) {closers : List Kind}
    {stmts : List Stmt} (run : Reads (statements g closers) s stmts s') :
    Runs l m s (stmtsContents stmts) s' := by
  refine .of_unmarked fun unmarked => ?_
  refine Reads.many_induction (motive := fun stmts s => s.discard = false → ∀ m,
    Starts ⟨l, m⟩ s.token → Runs l m s (stmtsContents stmts) s')
    (fun s read unmarked m starts => ?_)
    (fun s first t more read _ _ ih unmarked m starts => ?_) run unmarked m starts
  · obtain ⟨_, ⟨⟩, _⟩ | ⟨_, _, rfl⟩ | ⟨_, _, ⟨⟩, _⟩ |
      ⟨_, _, _, _, ⟨_, _, rfl⟩ | ⟨_, _, _, _, ⟨⟩, _⟩⟩ := read.statementRound_inv unmarked
    · exact ⟨m, .refl _ _, starts⟩
    · exact ⟨m, .refl _ _, starts⟩
  · have rest := ih (read.discard_eq.trans unmarked)
    obtain ⟨here, ⟨⟩, rfl⟩ | ⟨_, ⟨⟩, _⟩ | ⟨here, c, ⟨⟩, readC⟩ |
      ⟨_, _, _, _, ⟨_, ⟨⟩, _⟩ | ⟨_, st, comments, u, ⟨⟩, readSt, finish⟩⟩ :=
      read.statementRound_inv unmarked
    · have separator : Accounts ⟨l, m⟩ s [] ⟨l, .plain⟩ (s.drop 1) := by
        rcases here with here | here
        · refine (Accounts.punctuation here rfl).at_ ?_
          simp [Context.pass, ground.ne (f := .curly) (by decide)]
        · exact Accounts.punctuation here rfl
      exact Runs.trans ⟨.plain, separator, .plain _ _⟩ rest
    · exact Runs.trans ⟨.plain, .remarks ground here readC, .plain _ _⟩ rest
    · rw [List.cons_append, stmtsContents, stmtsContents_append]
      exact (h.statement readSt ground starts).trans fun _ starts =>
        (trailingComment ground starts finish.finishStatement_inv.1).trans rest

theorem block (ground : Ground l) (starts : Starts ⟨l, m⟩ s.token) {closers : List Kind}
    {b : Block Stmt} (run : Reads (block g closers) s b s') : Runs l m s (blockContents b) s' := by
  obtain ⟨header, t, stmts, trailing, read, rfl⟩ := run.block_inv
  rw [blockContents_makeBlock, stmtsContents_append]
  exact (trailingComment ground starts trailing).trans fun _ starts =>
    h.statements ground starts read

theorem parameter {x : Parameter Expr} (run : Reads (parameter g) s x s') :
    ∃ n, Accounts ⟨.header :: l, .plain⟩ s (nameContents x.name.name ++ optionContents x.fallback)
      ⟨.header :: l, n⟩ s' := by
  obtain ⟨name, fallback, type, range, t, u, rfl, readName, value, readType, check⟩ :=
    run.parameter_inv
  obtain ⟨rfl, _⟩ := check.checkFallback_inv
  obtain ⟨here, _, rfl, _⟩ := readName.declaredName_inv
  have first := Accounts.operandName here (.plain (.header :: l) s.token)
  have whole : Accounts ⟨.header :: l, .plain⟩ s
      (nameContents s.token.text ++ optionContents fallback) ⟨.header :: l, .operand⟩ t := by
    obtain ⟨equal, e, rfl, readE⟩ | ⟨_, rfl, rfl⟩ := value
    · have sign := first.before (Accounts.punctuation equal rfl)
      rw [State.drop_drop] at sign
      exact sign.trans (h.expression readE (.plain _ _))
    · exact first.cast (List.append_nil _).symm
  obtain ⟨n, typed, _⟩ := asType (p := ⟨.header :: l, .operand⟩) readType (.inr ⟨rfl, rfl⟩)
  exact ⟨n, whole.before typed⟩

theorem parameterLoop {seen : List (Parameter Expr) × Bool}
    {ps : List (Parameter Expr)} (run : Reads (loop (parameterRound g) seen) s ps s') :
    ∃ more n, ps = seen.1 ++ more ∧
      Accounts ⟨.header :: l, .plain⟩ s (parametersContents more) ⟨.header :: l, n⟩ s' := by
  refine Reads.loop_induction (motive := fun seen s => ∃ more n, ps = seen.1 ++ more ∧
    Accounts ⟨.header :: l, .plain⟩ s (parametersContents more) ⟨.header :: l, n⟩ s')
    (fun seen s read => ?_) (fun seen s next t read _ _ ih => ?_) run
  · obtain ⟨x, t, readX, _, ⟨_, ⟨⟩, _⟩ | ⟨_, ⟨⟩, rfl⟩⟩ := read.parameterRound_inv
    obtain ⟨n, whole⟩ := h.parameter (l := l) readX
    exact ⟨[x], n, rfl, whole.cast (by simp [parametersContents])⟩
  · obtain ⟨x, u, readX, _, ⟨comma, ⟨⟩, rfl⟩ | ⟨_, ⟨⟩, _⟩⟩ := read.parameterRound_inv
    obtain ⟨n, whole⟩ := h.parameter (l := l) readX
    obtain ⟨more, n', rfl, rest⟩ := ih
    refine ⟨x :: more, n', by simp, ?_⟩
    exact (whole.trans ((Accounts.punctuation comma rfl).skip rest)).cast
      (by simp [parametersContents])

theorem parameters {ps : List (Parameter Expr)} (run : Reads (parameters g) s ps s') :
    Accounts ⟨.header :: l, .plain⟩ s (parametersContents ps) ⟨.body :: l, .headerEnd⟩ s' := by
  have close {n : Mark} {t : State} (here : t.kind = .rightParen) :
      Accounts ⟨.header :: l, n⟩ t [] ⟨.body :: l, .headerEnd⟩ (t.drop 1) :=
    Accounts.punctuation here rfl
  obtain ⟨t, ⟨_, rfl, rfl⟩ | ⟨_, read⟩, here, rfl⟩ := run.parameters_inv
  · exact close here
  · obtain ⟨more, n, rfl, whole⟩ := h.parameterLoop (l := l) read
    exact whole.before (close here)

theorem functionRest {first : Range} {isSub : Bool} {f : Function Expr Stmt}
    (run : Reads (functionRest g first isSub) s f s') :
    Accounts ⟨l, .opener⟩ s (functionContents f) ⟨l, .operand⟩ s' := by
  obtain ⟨params, returns, body, range, t, u, v, rfl, open_, readParams, readType, readBody, close,
    rfl⟩ := run.functionRest_inv
  obtain ⟨n, typed, mark⟩ := asType (p := ⟨.body :: l, .headerEnd⟩) readType (.inl rfl)
  have starts : Starts ⟨.body :: l, n⟩ u.token := by
    obtain rfl | ⟨rfl, other, rfl⟩ := mark
    · exact .plain _ _
    · refine ⟨rfl, fun name => ?_⟩
      have kind : u.kind = .identifier := name
      simp only [State.named, kind, decide_true, Bool.true_and] at other
      simp [Context.skips, Context.opensType, other]
  obtain ⟨n', inner, loose⟩ :=
    h.block (s := u.atFunctions (u.functions + 1)) (.inr rfl) starts readBody
  have header : Accounts ⟨l, .opener⟩ s (parametersContents params) ⟨.body :: l, n⟩ u :=
    (Accounts.punctuation open_ rfl).skip ((h.parameters readParams).before typed)
  have last : Accounts ⟨.body :: l, n'⟩ v [] ⟨l, .operand⟩ (v.drop 1) := by
    cases isSub with
    | true => exact Accounts.keyword close rfl loose.loose
    | false => exact Accounts.keyword close rfl loose.loose
  exact header.trans (inner.before last)

theorem primary : Counts (primary g) := by
  intro p s e s' run starts
  obtain ⟨here, rfl, rfl⟩ | ⟨here, run⟩ | ⟨here, run⟩ | ⟨here, run⟩ | ⟨here, run⟩ |
    ⟨here, rfl, rfl⟩ := run.primary_inv
  · exact .operandName here starts
  · obtain ⟨inner, range, t, rfl, read, close, rfl⟩ := run.grouping_inv
    have open_ : Accounts p s [] ⟨(if p.mark = .opener then .header else .parens) :: p.around, .plain⟩
      (s.drop 1) := Accounts.punctuation here rfl
    have parens : p.mark ≠ .opener := fun mark => by simpa [mark, Mark.isLoose] using starts.loose
    rw [if_neg parens] at open_
    exact open_.skip ((h.expression read (.plain _ _)).before (Accounts.punctuation close rfl))
  · obtain ⟨es, range, t, rfl, read, close, rfl⟩ := run.arrayLiteral_inv
    obtain ⟨n, whole⟩ := h.elements (l := p.around) read (.inl rfl)
    exact (Accounts.punctuation here rfl).skip (whole.before (Accounts.punctuation close rfl))
  · obtain ⟨ms, range, t, rfl, read, close, rfl⟩ := run.assocLiteral_inv
    obtain ⟨n, whole⟩ := h.members (l := p.around) read
    exact (Accounts.punctuation here rfl).skip (whole.before (Accounts.punctuation close rfl))
  · obtain ⟨f, rfl, read⟩ := run.anonymousFunction_inv
    have opener : Accounts p s [] ⟨p.around, .opener⟩ (s.drop 1) := by
      rcases here with here | here <;> exact Accounts.keyword here rfl starts.loose
    exact opener.skip (h.functionRest read)
  · exact .literal here starts.loose

theorem accesses {first e : Expr} (run : Reads (loop (accessRound g) first) s e s') :
    ∃ more, e.contents = first.contents ++ more ∧
      Accounts ⟨l, .operand⟩ s more ⟨l, .operand⟩ s' := by
  refine Reads.loop_induction (motive := fun first s => ∃ more,
    e.contents = first.contents ++ more ∧ Accounts ⟨l, .operand⟩ s more ⟨l, .operand⟩ s')
    (fun first s read => ?_) (fun first s next t read _ _ ih => ?_) run
  · obtain ⟨_, _, _, ⟨⟩, _⟩ | ⟨_, _, _, _, ⟨⟩⟩ | ⟨_, _, _, _, ⟨⟩, _⟩ | ⟨_, _, _, ⟨⟩, rfl⟩ :=
      read.accessRound_inv
    exact ⟨[], (List.append_nil _).symm, .refl _ _⟩
  · obtain ⟨more, same, rest⟩ := ih
    obtain ⟨here, args, range, ⟨⟩, readArgs⟩ | ⟨here, word, rfl, range, ⟨⟩⟩ |
      ⟨here, index, range, u, ⟨⟩, readIndex, close, rfl⟩ | ⟨_, _, _, ⟨⟩, _⟩ := read.accessRound_inv
    · refine ⟨exprsContents args ++ more, by simp [same, Expr.contents], ?_⟩
      exact (Accounts.punctuation here rfl).skip ((h.arguments readArgs).trans rest)
    · refine ⟨nameContents (s.drop 1).token.text ++ more, by simp [same, Expr.contents], ?_⟩
      have member : Accounts ⟨l, .dot⟩ (s.drop 1) (nameContents (s.drop 1).token.text)
        ⟨l, .operand⟩ ((s.drop 1).drop 1) := .word word (.inl rfl)
      rw [State.drop_drop] at member
      exact (Accounts.punctuation here rfl).skip (member.trans rest)
    · refine ⟨index.contents ++ more, by simp [same, Expr.contents], ?_⟩
      exact (Accounts.punctuation here rfl).skip <| ((h.expression readIndex (.plain _ _)).before
        (Accounts.punctuation close rfl)).trans rest

theorem accessed : Counts (accessed g) := by
  intro p s e s' run starts
  obtain ⟨first, t, read, rest⟩ := run.accessed_inv
  obtain ⟨more, same, whole⟩ := h.accesses (l := p.around) rest
  rw [same]
  exact (h.primary read starts).trans whole

theorem operandStep : Counts (Parser.operand g) := by
  intro p s e s' run starts
  obtain ⟨sign, _, inner, range, t, rfl, read, rfl⟩ | ⟨_, read⟩ := run.operand_inv
  · have first : Accounts p s [] ⟨p.around, .plain⟩ (s.drop 1) :=
      operator rfl (by simp [sign]) starts.loose
    have rest : Accounts ⟨p.around, .plain⟩ ((s.atNesting (s.nesting + 1)).drop 1) inner.contents
        ⟨p.around, .operand⟩ t := by
      unfold prefixOperand at read
      split at read
      · exact binary h.operand notLevel read (.plain _ _)
      · exact h.operand read (.plain _ _)
    exact first.skip rest
  · exact h.accessed read starts

theorem conditionalRest {test e : Expr}
    (run : Reads (conditionalRest g test) s e s') :
    ∃ more, e.contents = test.contents ++ more ∧
      Accounts ⟨l, .operand⟩ s more ⟨l, .operand⟩ s' := by
  obtain ⟨here, _, consequent, alternate, range, t, rfl, first, colon, second⟩ | ⟨_, rfl, rfl⟩ :=
    run.conditionalRest_inv
  · refine ⟨_, rfl, (Accounts.punctuation here rfl).skip ?_⟩
    exact (h.expression first (.plain l _)).trans
      ((Accounts.punctuation colon rfl).skip (h.expression second (.plain l _)))
  · exact ⟨[], (List.append_nil _).symm, .refl _ _⟩

theorem expressionStep : Counts (Parser.expression g) := by
  intro p s e s' run starts
  obtain ⟨_, test, t, u, readTest, readRest, rfl⟩ := run.expression_inv
  obtain ⟨more, same, rest⟩ := h.conditionalRest (l := p.around) readRest
  have first : Accounts p (s.atNesting (s.nesting + 1)) test.contents ⟨p.around, .operand⟩ t :=
    binary h.operandStep conditionalLevel readTest starts
  rw [same]
  exact first.trans rest

theorem setStatement (assigns : s.kind.isAssignment = true) {target : Expr}
    (run : Reads (setStatement g target) s st s') :
    ∃ more, st.contents = target.contents ++ more ∧
      Accounts ⟨l, .operand⟩ s more ⟨l, .operand⟩ s' := by
  obtain ⟨value, range, read, node⟩ := run.setStatement_inv
  have rest : Accounts ⟨l, .operand⟩ s value.contents ⟨l, .operand⟩ s' :=
    (operator rfl (by simp [assigns]) rfl).skip (h.expression read (.plain _ _))
  refine ⟨value.contents, ?_, rest⟩
  obtain ⟨name, rfl, rfl⟩ | ⟨object, name, span, rfl, rfl⟩ | ⟨object, index, span, rfl, rfl⟩ := node
  · rfl
  · rfl
  · rfl

theorem printItems (ground : Ground l) {items : List (PrintItem Expr)}
    (run : Reads (many (printRound g)) s items s') (starts : Starts ⟨l, m⟩ s.token) :
    Runs l m s (itemsContents items) s' := by
  refine Reads.many_induction (motive := fun items s => ∀ m, Starts ⟨l, m⟩ s.token →
    Runs l m s (itemsContents items) s') (fun s read m starts => ?_)
    (fun s first t more read _ _ ih m starts => ?_) run m starts
  · obtain ⟨_, _, rfl⟩ | ⟨_, _, ⟨⟩, _⟩ | ⟨_, _, _, _, ⟨⟩, _⟩ := read.printRound_inv
    exact ⟨m, .refl _ _, starts⟩
  · obtain ⟨_, ⟨⟩, _⟩ | ⟨_, here, ⟨⟩, rfl⟩ | ⟨_, _, _, e, ⟨⟩, readE⟩ := read.printRound_inv
    · have separator : Accounts ⟨l, m⟩ s [] ⟨l, .plain⟩ (s.drop 1) := by
        rcases here with here | here
        · exact Accounts.punctuation here rfl
        · refine (Accounts.punctuation here rfl).at_ ?_
          simp [Context.pass, ground.ne (f := .curly) (by decide)]
      exact .skip separator (ih _ (.plain _ _))
    · exact .after (h.expression readE starts) (ih _ (.operand (ground.ne (by decide)) _))

theorem forEachRest (ground : Ground l) {node : Range → Stmt}
    (run : Reads (forEachRest g) s node s') (range : Range) :
    Runs l .each s (node range).contents s' := by
  obtain ⟨item, target, body, t, u, rfl, readName, named, read, readBody, closed⟩ :=
    run.forEachRest_inv
  obtain ⟨here, _, rfl, _⟩ := readName.declaredName_inv
  simp only [State.named, Bool.and_eq_true, decide_eq_true_eq] at named
  have name : Accounts ⟨l, .each⟩ s (nameContents s.token.text) ⟨l, .item⟩ (s.drop 1) :=
    Accounts.name here rfl (by simp [Context.skips, Context.opensType])
  have header : Accounts ⟨l, .each⟩ s (nameContents s.token.text) ⟨l, .plain⟩ (s.drop 2) := by
    have whole := name.before (Accounts.skipped named.1 rfl rfl)
    rwa [State.drop_drop] at whole
  refine .after header (.after (h.expression read (.plain _ _)) ?_)
  exact (h.block ground (.operand (ground.ne (by decide)) _) readBody).before
    fun _ ends => closeFor ends closed

theorem forRest (ground : Ground l) {node : Range → Stmt} (run : Reads (forRest g) s node s')
    (range : Range) : Runs l .plain s (node range).contents s' := by
  obtain ⟨counter, first, last, step, body, t, u, v, w, rfl, readName, equal, readFirst, to_,
    readLast, readStep, readBody, closed⟩ := run.forRest_inv
  obtain ⟨here, _, rfl, _⟩ := readName.declaredName_inv
  have header : Accounts ⟨l, .plain⟩ s (nameContents s.token.text) ⟨l, .plain⟩ (s.drop 2) := by
    have whole := (Accounts.operandName here (.plain l _)).before (Accounts.punctuation equal rfl)
    rwa [State.drop_drop] at whole
  have bound : Accounts ⟨l, .operand⟩ t last.contents ⟨l, .operand⟩ u :=
    (Accounts.keyword to_ rfl rfl).skip (h.expression readLast (.plain l _))
  have stride : Accounts ⟨l, .operand⟩ u (optionContents step) ⟨l, .operand⟩ v := by
    obtain ⟨atStep, e, rfl, readE⟩ | ⟨_, rfl, rfl⟩ := readStep
    · exact (Accounts.keyword atStep rfl rfl).skip (h.expression readE (.plain l _))
    · exact .refl _ _
  refine .after header (.after (h.expression readFirst (.plain _ _)) (.after bound (.after stride ?_)))
  exact (h.block ground (.operand (ground.ne (by decide)) _) readBody).before
    fun _ ends => closeFor ends closed

def CountsBody (l : List Enclosure) (q : Parser (Block Stmt)) : Prop :=
  ∀ ⦃m s b s'⦄, Reads q s b s' → Starts ⟨l, m⟩ s.token → Runs l m s (blockContents b) s'

theorem condition (ground : Ground l) {condition : Expr} (run : Reads g.expression s condition s') :
    Runs l .plain s condition.contents (s'.past .then_) := by
  refine (Runs.of_operand ground (h.expression run (.plain l _))).before fun n starts => ?_
  unfold State.past
  split
  · exact .of_plain (Accounts.keyword ‹_› rfl starts.loose)
  · exact ⟨n, .refl _ _, starts⟩

theorem elseIfs (ground : Ground l) {branches : Branches} (body : CountsBody l branches.body)
    {es : List (ElseIf Expr Stmt)}
    (run : Reads (many (elseIfRound g branches)) s es s') (starts : Starts ⟨l, m⟩ s.token) :
    Runs l m s (elseIfsContents es) s' := by
  refine Reads.many_induction (motive := fun es s => ∀ m, Starts ⟨l, m⟩ s.token →
    Runs l m s (elseIfsContents es) s') (fun s read m starts => ?_)
    (fun s first t more read _ _ ih m starts => ?_) run m starts
  · obtain ⟨_, _, ⟨⟩, _⟩ | ⟨_, _, rfl⟩ := read.elseIfRound_inv
    exact ⟨m, .refl _ _, starts⟩
  · obtain ⟨here, e, ⟨⟩, readE⟩ | ⟨_, ⟨⟩, _⟩ := read.elseIfRound_inv
    obtain ⟨condition, b, range, u, rfl, readCondition, readBody⟩ := readE.elseIf_inv
    have header : Runs l m s condition.contents (u.past .then_) :=
      .skip (Accounts.keyword here rfl starts.loose) (h.condition ground readCondition)
    exact (header.trans fun _ starts => body readBody starts).trans ih

theorem ifBranches (ground : Ground l) {branches : Branches} (reader : CountsBody l branches.body)
    (lastReader : CountsBody l branches.lastBody) {body : Block Stmt} {es : List (ElseIf Expr Stmt)}
    {elseBody : Option (Block Stmt)} (run : Reads (ifBranches g branches) s (body, es, elseBody) s')
    (starts : Starts ⟨l, m⟩ s.token) :
    Runs l m s (blockContents body ++ (elseIfsContents es ++ elseContents elseBody)) s' := by
  obtain ⟨t, u, readBody, readMore, rest⟩ := run.ifBranches_inv
  refine (reader readBody starts).trans fun _ starts => (h.elseIfs ground reader readMore starts).trans
    fun n starts => ?_
  obtain ⟨here, last, rfl, readLast⟩ | ⟨_, rfl, rfl⟩ := rest
  · exact .skip (Accounts.keyword here rfl starts.loose) (lastReader readLast (.plain _ _))
  · exact ⟨n, .refl _ _, starts⟩

theorem inlineLoop (ground : Ground l) {done stmts : List Stmt}
    (run : Reads (loop (inlineRound g) done) s stmts s') :
    ∃ more, stmts = done ++ more ∧
      ∀ m, Starts ⟨l, m⟩ s.token → Runs l m s (stmtsContents more) s' := by
  refine Reads.loop_induction (motive := fun done s => ∃ more, stmts = done ++ more ∧
    ∀ m, Starts ⟨l, m⟩ s.token → Runs l m s (stmtsContents more) s')
    (fun done s read => ?_) (fun done s next t read _ _ ih => ?_) run
  · obtain ⟨st, t, readSt, rest⟩ := read.inlineRound_inv
    obtain ⟨same, ends⟩ : stmts = done ++ [st] ∧
        ∀ n, Starts ⟨l, n⟩ t.token → Runs l n t [] s' := by
      obtain ⟨colon, _, ⟨⟩, rfl⟩ | ⟨_, _, ⟨⟩, _⟩ | ⟨_, ⟨⟩, rfl⟩ := rest
      · exact ⟨rfl, fun _ _ => .of_plain (Accounts.punctuation colon rfl)⟩
      · exact ⟨rfl, fun n starts => ⟨n, .refl _ _, starts⟩⟩
    exact ⟨[st], same, fun m starts => (h.statement readSt ground starts).trans ends⟩
  · obtain ⟨st, u, readSt, ⟨_, _, ⟨⟩, _⟩ | ⟨colon, _, ⟨⟩, rfl⟩ | ⟨_, ⟨⟩, _⟩⟩ := read.inlineRound_inv
    obtain ⟨more, rfl, rest⟩ := ih
    refine ⟨st :: more, by simp, fun m starts => ?_⟩
    exact (h.statement readSt ground starts).trans fun _ _ =>
      .skip (Accounts.punctuation colon rfl) (rest _ (.plain _ _))

theorem inlineBody (ground : Ground l) : CountsBody l (inlineBlock g) := by
  intro m s b s' run starts
  obtain ⟨stmts, read, rfl⟩ := run.inlineBlock_inv
  obtain ⟨more, rfl, whole⟩ := h.inlineLoop ground read
  rw [blockContents_makeBlock]
  exact whole m starts

section

variable (ground : Ground l) (starts : Starts ⟨l, m⟩ s.token)
include ground starts

theorem assignment
    (assigns : (s.drop 1).kind.isAssignment = true) (run : Reads (assignment g) s st s') :
    Runs l m s st.contents s' := by
  obtain ⟨name, value, range, rfl, readName, read⟩ := run.assignment_inv
  obtain ⟨here, _, rfl, _⟩ := readName.declaredName_inv
  have target := (Accounts.operandName here starts).before (operator rfl (by simp [assigns]) rfl)
  rw [State.drop_drop] at target
  exact .of_operand ground (target.trans (h.expression read (.plain _ _)))

theorem expressionStatement (run : Reads (expressionStatement g) s st s') :
    Runs l m s st.contents s' := by
  obtain ⟨left, t, read, rest⟩ := run.expressionStatement_inv
  have target := h.operandStep read starts
  obtain ⟨assigns, set⟩ | ⟨counts, ⟨range, rfl⟩, rfl⟩ | ⟨_, _, _, _, _, _, rfl, rfl⟩ := rest
  · obtain ⟨more, same, whole⟩ := h.setStatement assigns set
    rw [same]
    exact .of_operand ground (target.trans whole)
  · refine .of_plain (target.before ?_)
    rcases counts with counts | counts <;> exact Accounts.punctuation counts rfl
  · exact .of_operand ground target

theorem printStatement
    (here : s.kind = .print ∨ s.kind = .questionMark) (run : Reads (printStatement g) s st s') :
    Runs l m s st.contents s' := by
  obtain ⟨items, range, rfl, read⟩ := run.printStatement_inv
  have first : Accounts ⟨l, m⟩ s [] ⟨l, .plain⟩ (s.drop 1) := by
    rcases here with here | here <;> exact Accounts.keyword here rfl starts.loose
  exact .skip first (h.printItems ground read (.plain _ _))

theorem returnStatement (here : s.kind = .return_) (run : Reads (returnStatement g) s st s') :
    Runs l m s st.contents s' := by
  have first : Accounts ⟨l, m⟩ s [] ⟨l, .plain⟩ (s.drop 1) :=
    Accounts.keyword here rfl starts.loose
  obtain ⟨_, range, rfl, ⟨_, rfl, rfl⟩ | ⟨_, e, rfl, read⟩⟩ := run.returnStatement_inv
  · exact .of_plain first
  · exact .of_operand ground (first.skip (h.expression read (.plain _ _)))

theorem whileStatement (here : s.kind = .while_) (run : Reads (whileStatement g) s st s') :
    Runs l m s st.contents s' := by
  obtain ⟨condition, body, range, t, u, rfl, read, readBody, close, rfl⟩ := run.whileStatement_inv
  have header : Accounts ⟨l, m⟩ s condition.contents ⟨l, .operand⟩ t :=
    (Accounts.keyword here rfl starts.loose).skip (h.expression read (.plain l _))
  exact .after header <| (h.block ground (.operand (ground.ne (by decide)) _) readBody).before
    fun _ ends => .of_plain (Accounts.keyword close rfl ends.loose)

theorem forStatement
    (here : s.kind = .for_) (run : Reads (forStatement g) s st s') : Runs l m s st.contents s' := by
  have first : Accounts ⟨l, m⟩ s [] ⟨l, .plain⟩ (s.drop 1) :=
    Accounts.keyword here rfl starts.loose
  obtain ⟨node, range, rfl, ⟨each, read⟩ | ⟨_, read⟩⟩ := run.forStatement_inv
  · have second : Accounts ⟨l, m⟩ s [] ⟨l, .each⟩ (s.drop 2) := by
      have whole := first.skip (Accounts.keyword each rfl rfl)
      rwa [State.drop_drop] at whole
    exact .skip second (h.forEachRest ground read range)
  · exact .skip first (h.forRest ground read range)

theorem functionDeclaration (here : s.kind = .function ∨ s.kind = .sub)
    (run : Reads (functionDeclaration g) s st s') : Runs l m s st.contents s' := by
  obtain ⟨name, f, rfl, readName, read⟩ := run.functionDeclaration_inv
  obtain ⟨atName, _, rfl, _⟩ := readName.declaredName_inv
  have first : Accounts ⟨l, m⟩ s [] ⟨l, .opener⟩ (s.drop 1) := by
    rcases here with here | here <;> exact Accounts.keyword here rfl starts.loose
  have named : Accounts ⟨l, .opener⟩ (s.drop 1) (nameContents (s.drop 1).token.text) ⟨l, .opener⟩
      (s.drop 2) := by
    have whole : Accounts ⟨l, .opener⟩ (s.drop 1) (nameContents (s.drop 1).token.text)
        ⟨l, .opener⟩ ((s.drop 1).drop 1) :=
      Accounts.name atName rfl (by simp [Context.skips, Context.opensType])
    rwa [State.drop_drop] at whole
  exact .of_operand ground (first.skip (named.trans (h.functionRest read)))

theorem ifStatement
    (here : s.kind = .if_) (run : Reads (ifStatement g) s st s') : Runs l m s st.contents s' := by
  obtain ⟨condition, node, range, t, rfl, read, _, ⟨_, layout⟩ | ⟨_, layout⟩⟩ :=
    run.ifStatement_inv
  · obtain ⟨body, es, elseBody, u, rfl, readBranches, close, rfl⟩ := layout.blockIf_inv
    have reader (closers : List Kind) : CountsBody l (Parser.block g closers) :=
      fun _ _ _ _ run starts => h.block ground starts run
    have header : Runs l m s condition.contents (t.past .then_) :=
      .skip (Accounts.keyword here rfl starts.loose) (h.condition ground read)
    refine header.trans fun _ starts => ?_
    exact (h.ifBranches ground (reader _) (reader _) readBranches starts).before
      fun _ starts => .of_plain (Accounts.keyword close rfl starts.loose)
  · obtain ⟨body, es, elseBody, rfl, readBranches⟩ := layout.inlineIf_inv
    have reader := h.inlineBody ground
    have header : Runs l m s condition.contents (t.past .then_) :=
      .skip (Accounts.keyword here rfl starts.loose) (h.condition ground read)
    exact header.trans fun _ starts => h.ifBranches ground reader reader readBranches starts

theorem statementBody (run : Reads (statementBody g) s st s') : Runs l m s st.contents s' := by
  have keyword {node : Range → Stmt} {k : Kind} (here : s.kind = k) (plain : k.isKept = false)
      (pass : Context.pass ⟨l, m⟩ k = ⟨l, .plain⟩) (run : Reads (keywordStatement node) s st s')
      (none : ∀ range, (node range).contents = []) : Runs l m s st.contents s' := by
    obtain ⟨rfl, rfl⟩ := run.keywordStatement_inv
    rw [none]
    exact .of_plain ((Accounts.keyword here plain starts.loose).at_ pass)
  rcases run.statementBody_inv with ⟨-, assigns, run⟩ | ⟨label, run⟩ | ⟨-, run⟩
  · exact h.assignment ground starts assigns run
  · exact labelStatement starts label run
  unfold byKeyword at run
  split at run
  · exact h.ifStatement ground starts ‹_› run
  · exact h.whileStatement ground starts ‹_› run
  · exact h.forStatement ground starts ‹_› run
  · exact h.functionDeclaration ground starts (.inl ‹_›) run
  · exact h.functionDeclaration ground starts (.inr ‹_›) run
  · exact h.returnStatement ground starts ‹_› run
  · exact h.printStatement ground starts (.inl ‹_›) run
  · exact h.printStatement ground starts (.inr ‹_›) run
  · exact gotoStatement ground starts ‹_› run
  · exact keyword ‹_› rfl rfl run fun _ => rfl
  · exact keyword ‹_› rfl rfl run fun _ => rfl
  · exact keyword ‹_› rfl rfl run fun _ => rfl
  · exact keyword ‹_› rfl rfl run fun _ => rfl
  · split at run
    · exact absurd run not_reads_giveUp
    · exact h.expressionStatement ground starts run

end

theorem statementStep (run : Reads (Parser.statement g) s st s') (ground : Ground l)
    (starts : Starts ⟨l, m⟩ s.token) : Runs l m s st.contents s' := by
  refine .of_unmarked fun unmarked => ?_
  obtain ⟨_, t, read, rfl⟩ := run.statement_inv
  have inner : ((s.atNesting (s.nesting + 1)).withDiscard false) = s.atNesting (s.nesting + 1) := by
    rw [State.withDiscard, ← unmarked]
    rfl
  have outer : t.withDiscard s.discard = t := by
    have still : t.discard = false := read.discard_eq
    rw [unmarked, State.withDiscard, ← still]
  rw [inner] at read
  rw [outer]
  have whole : Runs l m (s.atNesting (s.nesting + 1)) st.contents t :=
    h.statementBody (s := s.atNesting (s.nesting + 1)) ground starts read
  exact whole

end

end Counted

theorem counted_unroll (n : Nat) : Counted (unroll n) := by
  induction n with
  | zero =>
    exact ⟨fun _ _ _ _ run => absurd run not_reads_tooDeep,
      fun _ _ _ _ run => absurd run not_reads_tooDeep, fun run => absurd run not_reads_tooDeep⟩
  | succ n ih => exact ⟨ih.expressionStep, ih.operandStep, ih.statementStep⟩

end BrightScript.Parser
