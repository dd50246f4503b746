import BrightScript.Proofs.Parser.InOrder
import BrightScript.Proofs.Parser.Traced

/-! What the conditional operator costs in BrightScript.
A text that is valid BrighterScript is read in BrightScript with the statements that use a
conditional left out. Main statement: nothing but their conditionals is reported, as long as
recovery finds the end of every single-line `if` that loses a branch. -/
namespace BrightScript
namespace Parser
namespace Traced

variable {tokens : List Token} {g : Grammar} {s s' : State} {st : Stmt} {node : Range → Stmt}
  {inline : Bool} {es : List (ElseIf Expr Stmt)}

/-- The body of a statement from `s` to `s'`, before its mark is looked at. -/
structure Body (tokens : List Token) (p : Parser Stmt) (s s' : State) (st : Stmt) : Prop where
  whole : st.cutAt = none → Retraces tokens p s s' st.uses fun _ => True
  cut : ∀ position, st.cutAt = some position → s.Settled tokens →
    st.range = ((s.lastTaken s').elim s.range fun last => s.range.union last.range) ∧
      s'.kind ≠ .colon ∧ s'.After position ∧
      (Clear position s s' → Drops tokens p s (· = pastLine s'.rest.items))

theorem Body.of_retraces {p : Parser Stmt} (none : st.cutAt = none)
    (h : Retraces tokens p s s' st.uses fun _ => True) : Body tokens p s s' st :=
  ⟨fun _ => h, fun _ cut => nomatch none.symm.trans cut⟩

theorem assignedValue (h : Traced tokens g) {value : Expr}
    (read : Reads g.expression (s.drop 1) value s') (flat : Flat tokens value.listed) :
    Retraces tokens (assignedValue g) s s' value.uses fun _ => True :=
  .kind (.advance ((h.expression read flat).then_ fun _ _ => .pure trivial))

theorem assignment (h : Traced tokens g) (run : Reads (assignment g) s st s')
    (flat : Flat tokens st.listed) : Body tokens (assignment g) s s' st := by
  obtain ⟨name, value, range, rfl, readName, read⟩ := run.assignment_inv
  rw [← State.drop_drop 1 1 s] at read
  refine .of_retraces rfl (.neutral_bind .declaredName readName ?_)
  exact (h.assignedValue read flat).then_ fun _ _ => .pure trivial

/- The object and the index of the target have been read before. -/
theorem setStatement (h : Traced tokens g) {target : Expr}
    (run : Reads (setStatement g target) s st s') :
    (Flat tokens st.listed → Flat tokens target.listed) ∧ st.cutAt = none ∧
      ∃ m, st.uses = (target.uses || m) ∧ (Flat tokens st.listed → ∀ other : Expr, other.head = target.head →
        Retraces tokens (setStatement g other) s s' m fun _ => True) := by
  obtain ⟨value, range, read, ⟨name, rfl, rfl⟩ | ⟨object, name, span, rfl, rfl⟩ |
    ⟨object, index, span, rfl, rfl⟩⟩ := run.setStatement_inv
  · refine ⟨fun _ => by simp [Flat, Expr.listed], rfl, value.uses, rfl, fun flat other head => ?_⟩
    cases other <;> simp only [Expr.head, reduceCtorEq] at head
    exact (h.assignedValue read flat).then_ fun _ _ => .pure trivial
  all_goals
    refine ⟨fun flat => (flat_append.mp flat).1, rfl, value.uses, rfl, fun flat other head => ?_⟩
    cases other <;> simp only [Expr.head, reduceCtorEq] at head
    exact (h.assignedValue read (flat_append.mp flat).2).then_ fun _ _ => .pure trivial

theorem isCall_of_head {e other : Expr} (head : other.head = e.head) (call : e.isCall = true) :
    other.isCall = true := by
  cases e <;> simp only [Expr.isCall, Bool.false_eq_true] at call
  cases other <;> simp only [Expr.head, reduceCtorEq] at head
  rfl

theorem expressionStatement (h : Traced tokens g) (ordered : Ordered tokens)
    (run : Reads (expressionStatement g) s st s') (flat : Flat tokens st.listed) :
    Body tokens (expressionStatement g) s s' st := by
  obtain ⟨left, t, read, ⟨assigns, set⟩ | ⟨counts, ⟨range, rfl⟩, rfl⟩ |
    ⟨assigns, plus, minus, operates, mark, call, rfl, rfl⟩⟩ := run.expressionStatement_inv
  · obtain ⟨flatTarget, none, m, uses, rest⟩ := h.setStatement set
    refine .of_retraces none ?_
    rw [uses]
    refine (h.operandStep ordered read (flatTarget flat)).bind fun other head => .kind ?_
    rw [if_pos assigns]
    exact rest flat other head
  · refine .of_retraces rfl ((h.operandStep ordered read flat).then_ fun other head => .kind ?_)
    have plain : t.kind.isAssignment = false := by rcases counts with k | k <;> rw [k] <;> rfl
    rw [if_neg (by simp [plain]), if_pos (by simpa using counts)]
    exact .token (.advance (.pure trivial))
  · refine .of_retraces rfl ((h.operandStep ordered read flat).then_ fun other head => .kind ?_)
    rw [if_neg (by simp [assigns]), if_neg (by simp [plus, minus]),
      if_neg (by simp [operates, mark]), callStatement, if_pos (isCall_of_head head call)]
    exact .pure trivial

theorem printItems (h : Traced tokens g) {items : List (PrintItem Expr)}
    (run : Reads (many (printRound g)) s items s') (flat : Flat tokens (itemsListed items)) :
    Retraces tokens (many (printRound g)) s s' (itemsUse items) fun _ => True := by
  refine Reads.many_induction (motive := fun items s => Flat tokens (itemsListed items) → ∀ found,
    Retraces tokens (loop (manyRound (printRound g)) found) s s' (itemsUse items) fun _ => True)
    (fun s read _ found => .many_none (.kind ?_))
    (fun s first t more read less _ ih flat found => ?_) run flat []
  · obtain ⟨ends, _, rfl⟩ | ⟨_, _, ⟨⟩, _⟩ | ⟨_, _, _, _, ⟨⟩, _⟩ := read.printRound_inv
    rw [if_pos ends]
    exact .pure rfl
  · obtain ⟨_, ⟨⟩, _⟩ | ⟨ends, mark, ⟨⟩, rfl⟩ | ⟨ends, semicolon, comma, e, ⟨⟩, readE⟩ :=
      read.printRound_inv
    · refine (Retraces.many_some (m := false) (.kind ?_) less (ih flat)).cast (Bool.false_or _)
      rw [if_neg (by simp [ends]), if_pos (by simpa using mark)]
      exact .advance (.pure ⟨_, rfl⟩)
    · obtain ⟨flatE, flatRest⟩ := flat_append.mp flat
      refine (Retraces.many_some (.kind ?_) less (ih flatRest)).cast rfl
      rw [if_neg (by simp [ends]), if_neg (by simp [semicolon, comma])]
      exact (h.expression readE flatE).then_ fun _ _ => .pure ⟨_, rfl⟩

theorem printStatement (h : Traced tokens g) (run : Reads (printStatement g) s st s')
    (flat : Flat tokens st.listed) : Body tokens (printStatement g) s s' st := by
  obtain ⟨items, range, rfl, read⟩ := run.printStatement_inv
  refine .of_retraces rfl (.ranged (.advance ?_))
  exact (h.printItems read flat).then_ fun _ _ => .pure fun _ => trivial

theorem returnStatement (h : Traced tokens g) (run : Reads (returnStatement g) s st s')
    (flat : Flat tokens st.listed) : Body tokens (returnStatement g) s s' st := by
  obtain ⟨value, range, rfl, ⟨ends, rfl, rfl⟩ | ⟨more, e, rfl, read⟩⟩ := run.returnStatement_inv
  · refine .of_retraces rfl (.ranged (.advance (.kind ?_)))
    rw [if_pos ends]
    exact .neutral_bind .pure (reads_pure.mpr ⟨rfl, rfl⟩) (.pure fun _ => trivial)
  · refine .of_retraces rfl (.ranged (.advance (.kind ?_)))
    rw [if_neg (by simp [more])]
    exact ((h.expression read flat).map (Q := fun _ => True) fun _ _ => trivial).then_ fun _ _ =>
      .pure fun _ => trivial

theorem whileStatement (h : Traced tokens g) (ordered : Ordered tokens)
    (run : Reads (whileStatement g) s st s') (flat : Flat tokens st.listed) :
    Body tokens (whileStatement g) s s' st := by
  obtain ⟨condition, ⟨body, _⟩, range, t, u, rfl, read, readBody, close, rfl⟩ :=
    run.whileStatement_inv
  obtain ⟨flatCondition, flatBody⟩ := flat_append.mp flat
  refine .of_retraces rfl (.ranged (.advance ?_))
  refine (h.expression read flatCondition).then_ fun _ _ => ?_
  refine (h.block ordered readBody flatBody).then_ fun _ _ => ?_
  exact .neutral_bind .close (Reads.of_close close) (.pure fun _ => trivial)

theorem option {opener : Kind} {value : Option Expr} {β : Type} {f : Option Expr → Parser β}
    {Q : β → Prop} {n : Bool} {t : State} (h : Traced tokens g)
    (read : (s.kind = opener ∧ ∃ e, value = some e ∧ Reads g.expression (s.drop 1) e t) ∨
      (s.kind ≠ opener ∧ value = none ∧ t = s)) (flat : Flat tokens (optionListed value))
    (rest : ∀ value, Retraces tokens (f value) t s' n Q) :
    Retraces tokens (do
      let value ← if ← accept opener then some <$> g.expression else pure none
      f value) s s' (optionUses value || n) Q := by
  obtain ⟨opens, e, rfl, readE⟩ | ⟨other, rfl, rfl⟩ := read
  · refine .accept opens ?_
    exact ((h.expression readE flat).map (Q := fun _ => True) fun _ _ => trivial).bind
      fun value _ => rest value
  · refine (Retraces.accept_not other ?_).cast (Bool.false_or n).symm
    exact .neutral_bind .pure (reads_pure.mpr ⟨rfl, rfl⟩) (rest none)

theorem forEachRest (h : Traced tokens g) (ordered : Ordered tokens) {range : Range}
    (run : Reads (forEachRest g) s node s') (flat : Flat tokens (node range).listed) :
    (node range).cutAt = none ∧
      Retraces tokens (forEachRest g) s s' (node range).uses fun _ => True := by
  obtain ⟨item, target, ⟨body, _⟩, t, u, rfl, readName, named, read, readBody, close⟩ :=
    run.forEachRest_inv
  obtain ⟨flatTarget, flatBody⟩ := flat_append.mp flat
  rw [← State.drop_drop 1 1 s] at read
  refine ⟨rfl, .neutral_bind .declaredName readName ?_⟩
  refine .neutral_bind (.inspect fun _ _ _ => rfl) (reads_atName.mpr ⟨named, rfl⟩) (.advance ?_)
  refine (h.expression read flatTarget).then_ fun _ _ => ?_
  refine (h.block ordered readBody flatBody).then_ fun _ _ => ?_
  exact .neutral_bind .closeFor close (.pure trivial)

theorem forRest (h : Traced tokens g) (ordered : Ordered tokens) {range : Range}
    (run : Reads (forRest g) s node s') (flat : Flat tokens (node range).listed) :
    (node range).cutAt = none ∧
      Retraces tokens (forRest g) s s' (node range).uses fun _ => True := by
  obtain ⟨counter, first, last, step, ⟨body, _⟩, t, u, v, w, rfl, readName, equal, readFirst, to_,
    readLast, readStep, readBody, close⟩ := run.forRest_inv
  obtain ⟨flatHeader, flatBody⟩ := flat_append.mp flat
  obtain ⟨flatBounds, flatStep⟩ := flat_append.mp flatHeader
  obtain ⟨flatFirst, flatLast⟩ := flat_append.mp flatBounds
  rw [← State.drop_drop 1 1 s] at readFirst
  refine ⟨rfl, .neutral_bind .declaredName readName (.expect equal ?_)⟩
  refine Retraces.cast ((h.expression readFirst flatFirst).bind fun _ _ => .expect to_
    ((h.expression readLast flatLast).bind fun _ _ => h.option readStep flatStep fun _ =>
      (h.block ordered readBody flatBody).then_ fun _ _ =>
        .neutral_bind .closeFor close (.pure trivial))) ?_
  simp [Stmt.uses, Bool.or_assoc]

theorem forStatement (h : Traced tokens g) (ordered : Ordered tokens)
    (run : Reads (forStatement g) s st s') (flat : Flat tokens st.listed) :
    Body tokens (forStatement g) s s' st := by
  obtain ⟨node, range, rfl, ⟨each, read⟩ | ⟨other, read⟩⟩ := run.forStatement_inv
  · rw [← State.drop_drop 1 1 s] at read
    obtain ⟨none, rest⟩ := h.forEachRest ordered read flat
    refine .of_retraces none (.ranged (.advance (.accept each ?_)))
    exact rest.mono fun _ _ _ => trivial
  · obtain ⟨none, rest⟩ := h.forRest ordered read flat
    refine .of_retraces none (.ranged (.advance (.accept_not other ?_)))
    exact rest.mono fun _ _ _ => trivial

theorem functionDeclaration (h : Traced tokens g) (ordered : Ordered tokens)
    (run : Reads (functionDeclaration g) s st s') (flat : Flat tokens st.listed) :
    Body tokens (functionDeclaration g) s s' st := by
  obtain ⟨name, f, rfl, readName, read⟩ := run.functionDeclaration_inv
  rw [← State.drop_drop 1 1 s] at readName read
  refine .of_retraces rfl (.token (.advance (.neutral_bind .declaredName readName ?_)))
  exact (h.functionRest ordered read flat).then_ fun _ _ => .pure trivial

theorem gotoStatement (run : Reads gotoStatement s st s') : Body tokens gotoStatement s s' st := by
  obtain ⟨label, range, rfl, readName, rfl⟩ := run.gotoStatement_inv
  rw [← State.drop_drop 1 1 s] at readName ⊢
  refine .of_retraces rfl (.here (.advance ?_))
  exact .neutral_bind .declaredName readName (.pure trivial)

theorem labelStatement (run : Reads labelStatement s st s') :
    Body tokens labelStatement s s' st := by
  obtain ⟨rfl, rfl⟩ := run.labelStatement_inv
  refine .of_retraces rfl ?_
  refine .neutral_bind .takeIdent (reads_takeIdent.mpr ⟨rfl, rfl⟩) (.advance ?_)
  rw [State.drop_drop]
  exact .pure trivial

theorem keywordStatement (plain : ∀ range, (node range).uses = false)
    (whole : ∀ range, (node range).cutAt = none) (run : Reads (keywordStatement node) s st s') :
    Body tokens (keywordStatement node) s s' st := by
  obtain ⟨rfl, rfl⟩ := run.keywordStatement_inv
  refine .of_retraces (whole _) ?_
  rw [plain]
  exact .here (.advance (.pure trivial))

/-- Where a branch is given up: only a single-line `if` gives up with a statement in it. -/
def cutIn (inline : Bool) (stmts : List Stmt) : Option Position :=
  bif inline then stmtsCutAt stmts else none

def cutInElseIfs (inline : Bool) (es : List (ElseIf Expr Stmt)) : Option Position :=
  bif inline then elseIfsCutAt es else none

/-- What the branches of an `if` are read with makes branches of that layout. -/
def Reader (tokens : List Token) (inline : Bool) (p : Parser (Block Stmt)) : Prop :=
  ∀ ⦃s b s'⦄, Reads p s b s' → Flat tokens (stmtsListed inline b.statements) →
    Branch tokens p s s' false (cutIn inline b.statements) fun _ => True

theorem elseIf (h : Traced tokens g) {branches : Branches}
    (reader : Reader tokens inline branches.body) {e : ElseIf Expr Stmt}
    (run : Reads (elseIf g branches) s e s') (flatCondition : Flat tokens e.condition.listed)
    (flatBody : Flat tokens (stmtsListed inline e.body.statements)) :
    Branch tokens (elseIf g branches) s s' e.condition.uses (cutIn inline e.body.statements)
      fun _ => True := by
  obtain ⟨condition, body, range, t, rfl, read, readBody⟩ := run.elseIf_inv
  have inner := reader readBody flatBody
  have rest : s'.rest.items <:+ t.rest.items := by
    obtain ⟨_, then_⟩ := Reads.of_past .then_ t
    exact inner.onward.trans then_.advances.suffix
  refine .ranged (.advance ?_)
  refine (Branch.retraces_bind read.advances.suffix rest (h.expression read flatCondition)
    fun _ _ => .past fun _ => inner.then_ (List.suffix_refl _) fun _ _ => .pure trivial).cast
    (Bool.or_false _) rfl

theorem elseIfs (h : Traced tokens g) {branches : Branches}
    (reader : Reader tokens inline branches.body)
    (run : Reads (many (elseIfRound g branches)) s es s')
    (flat : Flat tokens (elseIfsListed inline es)) :
    Branch tokens (many (elseIfRound g branches)) s s' (elseIfsUse es) (cutInElseIfs inline es)
      fun _ => True := by
  refine Reads.many_induction (motive := fun es s => Flat tokens (elseIfsListed inline es) →
    ∀ found, Branch tokens (loop (manyRound (elseIfRound g branches)) found) s s' (elseIfsUse es)
      (cutInElseIfs inline es) fun _ => True) (fun s read _ found => ?_)
    (fun s first t more read less rest ih flat found => ?_) run flat []
  · obtain ⟨_, _, ⟨⟩, _⟩ | ⟨other, _, rfl⟩ := read.elseIfRound_inv
    have last : Retraces tokens (elseIfRound g branches) s' s' false (· = none) :=
      .isAt_not other (.pure rfl)
    refine (Branch.of_retraces (List.suffix_refl _) (Retraces.many_none last)).cast rfl ?_
    cases inline <;> rfl
  · obtain ⟨here, ⟨condition, ⟨body, _⟩, range⟩, ⟨⟩, readE⟩ | ⟨_, ⟨⟩, _⟩ := read.elseIfRound_inv
    obtain ⟨flatE, flatRest⟩ := flat_append.mp flat
    obtain ⟨flatCondition, flatBody⟩ := flat_append.mp flatE
    have first : Branch tokens (elseIfRound g branches) s t condition.uses (cutIn inline body)
        fun r => ∃ more, r = some more :=
      .neutral_bind (.inspect fun _ _ _ => rfl) (reads_isAt.mpr ⟨decide_eq_true here, rfl⟩)
        ((h.elseIf reader readE flatCondition flatBody).then_ (List.suffix_refl _) fun _ _ =>
          .pure ⟨_, rfl⟩)
    refine (Branch.many_some first less rest.advances.suffix (ih flatRest)).cast rfl ?_
    cases inline <;> rfl

def cutInBranches (inline : Bool) (body : Block Stmt) (es : List (ElseIf Expr Stmt))
    (elseBody : Option (Block Stmt)) : Option Position :=
  (cutIn inline body.statements).or ((cutInElseIfs inline es).or
    (elseBody.elim none fun last => cutIn inline last.statements))

theorem ifBranches (h : Traced tokens g) (branches : Branches)
    (reader : Reader tokens inline branches.body)
    (lastReader : Reader tokens inline branches.lastBody) {body : Block Stmt}
    {elseBody : Option (Block Stmt)} (run : Reads (ifBranches g branches) s (body, es, elseBody) s')
    (flatBody : Flat tokens (stmtsListed inline body.statements))
    (flatElseIfs : Flat tokens (elseIfsListed inline es))
    (flatElse : ∀ last, elseBody = some last → Flat tokens (stmtsListed inline last.statements)) :
    Branch tokens (ifBranches g branches) s s' (elseIfsUse es)
      (cutInBranches inline body es elseBody) fun _ => True := by
  obtain ⟨t, u, readBody, readMore, ⟨else_, last, rfl, readLast⟩ | ⟨other, rfl, rfl⟩⟩ :=
    run.ifBranches_inv
  · have final := lastReader readLast (flatElse last rfl)
    have rest : s'.rest.items <:+ u.rest.items := final.onward.trans (List.drop_suffix 1 _)
    refine ((reader readBody flatBody).bind (rest.trans readMore.advances.suffix) fun _ _ =>
      (h.elseIfs reader readMore flatElseIfs).bind rest fun _ _ =>
        .neutral_bind .accept (reads_accept.mpr (.inl ⟨else_, rfl, rfl⟩)) ?_).cast
      (by rw [Bool.false_or, Bool.or_false]) rfl
    have value : Branch tokens (some <$> branches.lastBody) (u.drop 1) s' false
        (cutIn inline last.statements) fun _ => True :=
      final.then_ (List.suffix_refl _) fun _ _ => .pure trivial
    exact value.then_ (List.suffix_refl _) fun _ _ => .pure trivial
  · refine ((reader readBody flatBody).bind readMore.advances.suffix fun _ _ =>
      (h.elseIfs reader readMore flatElseIfs).then_ (List.suffix_refl _) fun _ _ => ?_).cast
      (by rw [Bool.false_or]) (by simp [cutInBranches])
    exact .accept_not other (.neutral_bind .pure (reads_pure.mpr ⟨rfl, rfl⟩) (.pure trivial))

theorem blockReader (h : Traced tokens g) (ordered : Ordered tokens) (closers : List Kind) :
    Reader tokens false (Parser.block g closers) :=
  fun _ _ _ run flat => .of_retraces run.advances.suffix (h.block ordered run flat)

theorem branchStatement (h : Traced tokens g) (orderly : OrderlyGrammar g)
    (ordered : Ordered tokens) (run : Reads g.statement s st s') (flat : Flat tokens st.listed) :
    Branch tokens g.statement s s' false st.lostAt fun _ => True := by
  have outcome := h.statement run flat
  refine ⟨run.advances.suffix, outcome.kept, fun position lost settled => ?_⟩
  cases at_ : st.cutAt with
  | some here =>
    obtain rfl : here = position := by simpa [Stmt.lostAt, at_] using lost
    have cut := outcome.cut here at_ settled
    exact ⟨cut.after, fun clear => (cut.loses clear).drops (pastLine_pastLine _)⟩
  | none =>
    obtain ⟨uses, rfl⟩ : st.uses = true ∧ st.range.stop = position := by
      cases uses : st.uses <;> simp_all [Stmt.lostAt]
    refine ⟨?_, fun _ => (outcome.lost at_ uses).drops rfl⟩
    have laid := (orderly.statement s (settled.sound ordered)).2 st s' run.1
    exact laid.after List.mem_cons_self List.mem_cons_self

theorem inlineLoop (h : Traced tokens g) (orderly : OrderlyGrammar g) (ordered : Ordered tokens)
    {done stmts : List Stmt} (run : Reads (loop (inlineRound g) done) s stmts s') :
    ∃ more, stmts = done ++ more ∧ (Flat tokens (stmtsListed true more) → ∀ done',
      Branch tokens (loop (inlineRound g) done') s s' false (stmtsCutAt more) fun _ => True) := by
  refine Reads.loop_induction (motive := fun done s => ∃ more, stmts = done ++ more ∧
    (Flat tokens (stmtsListed true more) → ∀ done',
      Branch tokens (loop (inlineRound g) done') s s' false (stmtsCutAt more) fun _ => True))
    (fun done s read => ?_) (fun done s next t read less rest ih => ?_) run
  · obtain ⟨st, t, readSt, ⟨colon, ends, ⟨⟩, rfl⟩ | ⟨_, _, ⟨⟩, _⟩ | ⟨other, ⟨⟩, rfl⟩⟩ :=
      read.inlineRound_inv
    all_goals
      refine ⟨[st], rfl, fun flat done' => .loop_done (.cast (c := st.lostAt) ?_ rfl
        (Option.or_none).symm)⟩
      have flatSt : Flat tokens st.listed := by simpa [stmtsListed] using flat
      have first := h.branchStatement orderly ordered readSt flatSt
    · refine first.then_ (List.drop_suffix 1 _) fun _ _ => .accept colon (.kind ?_)
      rw [if_pos ends]
      exact .pure ⟨_, rfl, trivial⟩
    · exact first.then_ (List.suffix_refl _) fun _ _ =>
        .accept_not other (.pure ⟨_, rfl, trivial⟩)
  · obtain ⟨st, u, readSt, ⟨_, _, ⟨⟩, _⟩ | ⟨colon, goes, ⟨⟩, rfl⟩ | ⟨_, ⟨⟩, _⟩⟩ :=
      read.inlineRound_inv
    obtain ⟨more, rfl, tail⟩ := ih
    refine ⟨st :: more, by simp, fun flat done' => ?_⟩
    obtain ⟨flatSt, flatRest⟩ := flat_append.mp flat
    refine (Branch.loop_again (m := false) (c := st.lostAt) (I := fun _ => True) ?_ less
      rest.advances.suffix fun done' _ => tail flatRest done').cast rfl rfl
    refine (h.branchStatement orderly ordered readSt flatSt).then_ (List.drop_suffix 1 _)
      fun _ _ => .accept colon (.kind ?_)
    rw [goes]
    exact .pure ⟨_, rfl, trivial⟩

theorem inlineReader (h : Traced tokens g) (orderly : OrderlyGrammar g) (ordered : Ordered tokens) :
    Reader tokens true (inlineBlock g) := by
  intro s b s' run flat
  obtain ⟨stmts, read, rfl⟩ := run.inlineBlock_inv
  rw [makeBlock_statements] at flat ⊢
  obtain ⟨more, rfl, loop⟩ := h.inlineLoop orderly ordered read
  exact .neutral_bind (.inspect fun _ _ _ => rfl) (reads_here.mpr ⟨rfl, rfl⟩)
    ((loop flat []).then_ (List.suffix_refl _) fun _ _ => .pure trivial)

theorem inlineBlock_colon {b : Block Stmt} (run : Reads (inlineBlock g) s b s') :
    s'.kind ≠ .colon := by
  obtain ⟨stmts, read, rfl⟩ := run.inlineBlock_inv
  refine Reads.loop_induction (motive := fun _ _ => s'.kind ≠ .colon) (fun done s read => ?_)
    (fun _ _ _ _ _ _ _ ih => ih) read
  obtain ⟨st, t, _, ⟨_, ends, _, rfl⟩ | ⟨_, _, ⟨⟩, _⟩ | ⟨other, _, rfl⟩⟩ := read.inlineRound_inv
  · intro colon
    rw [colon] at ends
    cases ends
  · exact other

theorem elseIfs_colon {lastBody : Parser (Block Stmt)}
    (run : Reads (many (elseIfRound g ⟨inlineBlock g, lastBody⟩)) s es s') (start : s.kind ≠ .colon) :
    s'.kind ≠ .colon := by
  refine Reads.many_induction (motive := fun _ s => s.kind ≠ .colon → s'.kind ≠ .colon)
    (fun s read start => ?_) (fun s first t more read _ _ ih _ => ih ?_) run start
  · obtain ⟨_, _, ⟨⟩, _⟩ | ⟨_, _, rfl⟩ := read.elseIfRound_inv
    exact start
  · obtain ⟨_, e, _, readE⟩ | ⟨_, ⟨⟩, _⟩ := read.elseIfRound_inv
    obtain ⟨_, _, _, _, _, _, readBody⟩ := readE.elseIf_inv
    exact inlineBlock_colon readBody

theorem ifBranches_colon {parts : Block Stmt × List (ElseIf Expr Stmt) × Option (Block Stmt)}
    (run : Reads (Parser.ifBranches g ⟨inlineBlock g, inlineBlock g⟩) s parts s') :
    s'.kind ≠ .colon := by
  obtain ⟨t, u, readBody, readMore, ⟨_, _, _, readLast⟩ | ⟨_, _, rfl⟩⟩ := run.ifBranches_inv
  · exact inlineBlock_colon readLast
  · exact elseIfs_colon readMore (inlineBlock_colon readBody)

theorem ifThen_cutAt (condition : Expr) (body : Block Stmt) (es : List (ElseIf Expr Stmt))
    (elseBody : Option (Block Stmt)) (inline : Bool) (range : Range) :
    (Stmt.ifThen condition body es elseBody inline range).cutAt =
      cutInBranches inline body es elseBody := by
  rcases body with ⟨_, _⟩
  rcases elseBody with _ | ⟨_, _⟩ <;> cases inline <;>
    simp [Stmt.cutAt, cutInBranches, cutIn, cutInElseIfs]

theorem ifThen_listed (condition : Expr) (body : Block Stmt) (es : List (ElseIf Expr Stmt))
    (elseBody : Option (Block Stmt)) (inline : Bool) (range : Range)
    (flat : Flat tokens (Stmt.ifThen condition body es elseBody inline range).listed) :
    Flat tokens condition.listed ∧ Flat tokens (stmtsListed inline body.statements) ∧
      Flat tokens (elseIfsListed inline es) ∧
      ∀ last, elseBody = some last → Flat tokens (stmtsListed inline last.statements) := by
  rcases body with ⟨_, _⟩
  rcases elseBody with _ | ⟨_, _⟩
  all_goals
    simp only [Stmt.listed, flat_append] at flat
    simp_all

theorem ifStatement (h : Traced tokens g) (orderly : OrderlyGrammar g) (ordered : Ordered tokens)
    (run : Reads (ifStatement g) s st s') (flat : Flat tokens st.listed) :
    Body tokens (ifStatement g) s s' st := by
  obtain ⟨condition, node, range, t, rfl, read, spans, ⟨opens, layout⟩ | ⟨opens, layout⟩⟩ :=
    run.ifStatement_inv
  · obtain ⟨body, es, elseBody, u, rfl, readBranches, close, rfl⟩ := layout.blockIf_inv
    obtain ⟨flatCondition, flatBody, flatElseIfs, flatElse⟩ := ifThen_listed _ _ _ _ _ _ flat
    have branches := h.ifBranches _ (h.blockReader ordered _) (h.blockReader ordered _) readBranches
      flatBody flatElseIfs flatElse
    have none : cutInBranches false body es elseBody = none := by
      cases elseBody <;> rfl
    refine ⟨fun _ => ?_, fun position cut => ?_⟩
    · refine .ranged (.advance ((h.expression read flatCondition).bind fun condition _ =>
        .past fun _ => .kind ?_))
      have inner : Retraces tokens (blockIf g condition) (t.past .then_) (u.drop 1) (elseIfsUse es)
          fun node => Range → True :=
        (branches.kept none).then_ fun _ _ =>
          .neutral_bind .close (Reads.of_close close) (.pure fun _ => trivial)
      rw [if_pos opens]
      exact inner
    · rw [ifThen_cutAt, none] at cut
      cases cut
  · obtain ⟨body, es, elseBody, rfl, readBranches⟩ := layout.inlineIf_inv
    obtain ⟨flatCondition, flatBody, flatElseIfs, flatElse⟩ := ifThen_listed _ _ _ _ _ _ flat
    have reader := h.inlineReader orderly ordered
    have branches := h.ifBranches ⟨inlineBlock g, inlineBlock g⟩ reader reader
      readBranches flatBody flatElseIfs flatElse
    obtain ⟨_, then_⟩ := Reads.of_past .then_ t
    refine ⟨fun none => ?_, fun position cut settled => ?_⟩
    · rw [ifThen_cutAt] at none
      refine .ranged (.advance ((h.expression read flatCondition).bind fun condition _ =>
        .past fun _ => .kind ?_))
      rw [opens]
      exact (branches.kept none).withCleanup.then_ fun _ _ => .pure fun _ => trivial
    · rw [ifThen_cutAt] at cut
      have first : Reads advance s () (s.drop 1) := reads_advance.mpr rfl
      have settled' := ((settled.reads first).reads read).reads then_
      obtain ⟨after, drops⟩ := branches.lost position cut settled'
      refine ⟨spans, ifBranches_colon readBranches, after, fun clear => ?_⟩
      have onward : (t.past .then_).rest.items <:+ s.rest.items :=
        then_.advances.suffix.trans (read.advances.suffix.trans first.advances.suffix)
      have dropped := (drops (clear.right onward)).withCleanup
      refine .bind_right (.of_neutral (.inspect fun _ _ _ => rfl) (reads_here.mpr ⟨rfl, rfl⟩))
        fun _ _ => .spanned ?_
      refine .bind_right (.of_neutral .advance first) fun _ _ => ?_
      refine .bind_right (h.expression read flatCondition) fun condition _ => ?_
      refine .bind_right (.of_neutral .accept then_) fun _ _ => ?_
      refine .bind_right (.of_neutral (.inspect fun _ _ _ => rfl) (reads_kind.mpr ⟨rfl, rfl⟩)) ?_
      rintro _ rfl
      rw [opens]
      exact dropped.bind_left

theorem Body.neutral_bind {α : Type} {p : Parser α} {f : α → Parser Stmt} {a : α}
    (neutral : Neutral p) (run : Reads p s a s) (h : Body tokens (f a) s s' st) :
    Body tokens (p >>= f) s s' st := by
  refine ⟨fun none => .neutral_bind neutral run (h.whole none), fun position cut settled => ?_⟩
  obtain ⟨range, colon, after, drops⟩ := h.cut position cut settled
  refine ⟨range, colon, after, fun clear => .bind_right (.of_neutral neutral run) ?_⟩
  rintro _ rfl
  exact drops clear

theorem statementBody (h : Traced tokens g) (orderly : OrderlyGrammar g) (ordered : Ordered tokens)
    (run : Reads (statementBody g) s st s') (flat : Flat tokens st.listed) :
    Body tokens (statementBody g) s s' st := by
  obtain ⟨_, _, atTarget, run⟩ := reads_bind.mp run
  obtain ⟨rfl, rfl⟩ := reads_inspect.mp atTarget
  refine .neutral_bind (.inspect fun _ _ _ => rfl) atTarget ?_
  cases target : s.atTarget with
  | true =>
    rw [target] at run
    exact h.assignment run flat
  | false =>
    rw [target] at run
    obtain ⟨_, _, atLabel, run⟩ := reads_bind.mp run
    obtain ⟨rfl, rfl⟩ := reads_inspect.mp atLabel
    refine .neutral_bind (.inspect fun _ _ _ => rfl) atLabel ?_
    cases label : s.atLabel with
    | true =>
      rw [label] at run
      exact labelStatement run
    | false =>
      rw [label] at run
      obtain ⟨_, _, atKind, run⟩ := reads_bind.mp run
      obtain ⟨rfl, rfl⟩ := reads_kind.mp atKind
      refine .neutral_bind (.inspect fun _ _ _ => rfl) atKind ?_
      revert run
      unfold byKeyword
      split <;> intro run
      · exact h.ifStatement orderly ordered run flat
      · exact h.whileStatement ordered run flat
      · exact h.forStatement ordered run flat
      · exact h.functionDeclaration ordered run flat
      · exact h.functionDeclaration ordered run flat
      · exact h.returnStatement run flat
      · exact h.printStatement run flat
      · exact h.printStatement run flat
      · exact gotoStatement run
      · exact keywordStatement (fun _ => rfl) (fun _ => rfl) run
      · exact keywordStatement (fun _ => rfl) (fun _ => rfl) run
      · exact keywordStatement (fun _ => rfl) (fun _ => rfl) run
      · exact keywordStatement (fun _ => rfl) (fun _ => rfl) run
      · split at run
        · exact absurd run not_reads_giveUp
        · rename_i starts
          rw [if_neg starts]
          exact h.expressionStatement ordered run flat

theorem statementStep (h : Traced tokens g) (orderly : OrderlyGrammar g) (ordered : Ordered tokens)
    (run : Reads (Parser.statement g) s st s') (flat : Flat tokens st.listed) :
    Outcome tokens (Parser.statement g) s s' st := by
  obtain ⟨shallow, t, read, rfl⟩ := run.statement_inv
  have body := h.statementBody orderly ordered read flat
  refine ⟨fun kept => ?_, fun none uses => ?_, fun position cut settled => ?_⟩
  · obtain ⟨none, plain⟩ := Option.or_eq_none_iff.mp kept
    have unused : st.uses = false := by cases uses : st.uses <;> simp_all
    have whole := body.whole none
    rw [unused] at whole
    exact .nested shallow whole.droppable
  · have whole := body.whole none
    rw [uses] at whole
    have lost : Loses tokens (Parser.droppable (Parser.statementBody g)) _ t.rest.items :=
      .of_marked whole
    exact .nested shallow lost
  · obtain ⟨range, colon, after, drops⟩ := body.cut position cut ⟨rfl, settled.within⟩
    exact ⟨range, colon, after, fun clear => .nested shallow (.of_drops (drops clear))⟩

end Traced

theorem traced_unroll {tokens : List Token} (ordered : Ordered tokens) (n : Nat) :
    Traced tokens (unroll n) := by
  induction n with
  | zero =>
    exact ⟨fun _ _ _ run => absurd run not_reads_tooDeep, fun _ _ _ run => absurd run not_reads_tooDeep,
      fun _ _ _ run => absurd run not_reads_tooDeep⟩
  | succ n ih =>
    exact ⟨ih.expressionStep ordered, ih.operandStep ordered,
      fun _ _ _ => ih.statementStep (orderlyGrammar_unroll n) ordered⟩

end Parser

open BrightScript.Parser in
/-- A text that BrighterScript reads without a report has in BrightScript only its conditionals
reported, provided that recovery finds the end of every single-line `if` in a list which loses a
branch to a conditional. -/
theorem parse_reports_conditionals (source : String)
    (quiet : (parse .brighterScript (scan source).tokens).diagnostics = [])
    (flat : Flat (scan source).tokens
      (stmtsListed false (parse .brighterScript (scan source).tokens).statements)) :
    ∀ d ∈ (parse .brightScript (scan source).tokens).diagnostics, d.code = 1061 := by
  obtain ⟨s, read⟩ := reads_of_quiet quiet
  have traced := traced_unroll (ordered_scan source) (maxNesting + 1)
  have settled : (State.start .brighterScript (scan source).tokens).Settled (scan source).tokens :=
    ⟨rfl, List.suffix_refl _, (State.sound_start _ (ordered_scan source)).inside⟩
  obtain ⟨all, reports, only, run, _⟩ :=
    (traced.statements (ordered_scan source) read flat settled).2 false [] (by simp [Unsupported])
  rw [parse_of_run run]
  exact only

/-- A branch with a conditional is lost, and so are the other branches and the `if` around it. -/
theorem parse_reports_conditionals_nested :
    let source := "if a then if b then x = c ? d : [\n1\n] : y = 1 else z = 2\nprint a ? b : c"
    (parse .brightScript (scan source).tokens).diagnostics.length = 2 ∧
      ∀ d ∈ (parse .brightScript (scan source).tokens).diagnostics, d.code = 1061 :=
  ⟨by decide +kernel, parse_reports_conditionals _ (by decide +kernel)
    (by unfold Flat; decide +kernel)⟩

/-- Recovery stops at the end of the first line, and the end of the function is left over. -/
theorem parse_reports_function_end :
    let source := "if a then x = b ? c : d : y = function()\nend function"
    (scan source).diagnostics = [] ∧
      (parse .brighterScript (scan source).tokens).diagnostics = [] ∧
      (parse .brightScript (scan source).tokens).diagnostics.map (·.code) = [1061, 1020] := by
  decide +kernel

end BrightScript
