import BrightScript.Proofs.Parser.Parallel

/-! The routines of the grammar on token lists that look alike, one by one. -/
namespace BrightScript

namespace Parser

open Likeness

variable {α β γ ε δ : Type} {v : Likeness δ} {m : Nat}

namespace Parallel

variable {R : α → β → Prop} {k : Kind} {problem : String → Problem}

theorem token : Parallel v m v.Tokens token token := .inspect fun _ _ like => like.token

theorem kind : Parallel v m (· = ·) kind kind := .inspect fun _ _ like => like.kind

theorem isAt : Parallel v m (· = ·) (isAt k) (isAt k) :=
  .inspect fun _ _ like => by rw [like.kind]

theorem atName {word : String} : Parallel v m (· = ·) (atName word) (atName word) :=
  .inspect fun _ _ like => by rw [like.kind, Text.sameWord, Text.sameWord, v.folded like.token.text]

theorem take {n : Nat} : Parallel v m (· = ·) (take n) (take n) := .update fun _ _ like => like.drop n

theorem advance : Parallel v m (· = ·) advance advance := take

theorem skipWhile {skips : Kind → Bool} : Parallel v m (· = ·) (skipWhile skips) (skipWhile skips) :=
  .update fun _ _ like => like.skipWhile skips

theorem report {p p' : Problem} {r r' : Range} (notice : p.notice = p'.notice)
    (args : p.arguments.map v.text = p'.arguments.map v.text) (range : v.Ranges r r') :
    Parallel v m (· = ·) (report p r) (report p' r') :=
  .update fun _ _ like => like.report notice args range

theorem reportOf (quotes : v.Quotes problem) {a b : String} (text : v.Texts a b) {r r' : Range}
    (range : v.Ranges r r') :
    Parallel v m (· = ·) (Parser.report (problem a) r) (Parser.report (problem b) r') :=
  report (quotes a b text).1 (quotes a b text).2 range

theorem reportHere (quotes : v.Quotes problem) :
    Parallel v m (· = ·) (reportHere problem) (reportHere problem) :=
  .update fun _ _ like =>
    like.report (quotes _ _ like.found).1 (quotes _ _ like.found).2 like.range

theorem refuseAt {p : Problem} {e} {r r' : Range} (range : v.Ranges r r') :
    Parallel v m R (refuseAt p r e) (refuseAt p r' e) :=
  .giveUp fun _ _ like => like.report rfl rfl range

theorem refusePast {e} (quotes : v.Quotes problem) :
    Parallel v m R (refusePast problem e) (refusePast problem e) :=
  .giveUp fun _ _ like =>
    (like.report (quotes _ _ like.found).1 (quotes _ _ like.found).2 like.range).drop 1

theorem quotes_expectedToken (wanted : String) : v.Quotes (.expectedToken wanted) :=
  fun _ _ text => ⟨rfl, congrArg ([v.text wanted, ·]) text⟩

theorem quotes_expectedIdentifier : v.Quotes .expectedIdentifier :=
  fun _ _ text => ⟨rfl, congrArg ([·]) text⟩

theorem quotes_expectedExpression : v.Quotes .expectedExpression :=
  fun _ _ text => ⟨rfl, congrArg ([·]) text⟩

theorem quotes_unexpectedToken : v.Quotes .unexpectedToken :=
  fun _ _ text => ⟨rfl, congrArg ([·]) text⟩

theorem quotes_reservedWord : v.Quotes .reservedWord := fun _ _ text => ⟨rfl, congrArg ([·]) text⟩

theorem quotes_unknownType : v.Quotes .unknownType := fun _ _ text => ⟨rfl, congrArg ([·]) text⟩

theorem quotes_requiredAfterOptional : v.Quotes .requiredAfterOptional :=
  fun _ _ text => ⟨rfl, congrArg ([·]) text⟩

theorem accept : Parallel v m (· = ·) (accept k) (accept k) :=
  .same isAt fun _ => .ite (fun _ => .same advance fun _ => .pure rfl) fun _ => .pure rfl

theorem expect : Parallel v m (· = ·) (expect k) (expect k) :=
  .same accept fun _ => .ite (fun _ => .pure rfl) fun _ => refuse (quotes_expectedToken _)

theorem takeIdent : Parallel v m v.Idents takeIdent takeIdent :=
  token.bind fun _ _ like => .same advance fun _ =>
    .pure (Idents.mk like.text like.range)

theorem comment : Parallel v m v.Comments comment comment :=
  token.bind fun _ _ like => .same advance fun _ =>
    .pure (Comments.mk like.text like.range)

theorem foldl_joinComment {more more' : List Token}
    (h : v.Parts Token.rewrite more more') {c c' : Comment}
    (like : v.Comments c c') :
    v.Comments (more.foldl joinComment c) (more'.foldl joinComment c') := by
  induction more generalizing more' c c' with
  | nil =>
    cases more' with
    | nil => exact like
    | cons => contradiction
  | cons t more ih =>
    cases more' with
    | nil => contradiction
    | cons t' more' =>
      obtain ⟨first, rest⟩ := List.cons.inj h
      have first : v.Tokens t t' := first
      have text : v.Texts c.text c'.text := congrArg Comment.text like
      exact ih rest (Comments.mk (v.joined text first.text) (v.union like.range first.range))

theorem followingComments_eq (range : Range) (ts : List Token) :
    followingComments range ts =
      ((ts.take (2 * (followingComments range ts).length)).filter (·.kind = .comment)) := by
  induction range, ts using followingComments.induct with
  | case1 range n t rest here ih =>
    have kinds : n.kind = .newline ∧ t.kind = .comment := by simp at here; exact here.1
    have step : 2 * ((followingComments (range.union t.range) rest).length + 1) =
        2 * (followingComments (range.union t.range) rest).length + 1 + 1 := by omega
    rw [followingComments, if_pos here, List.length_cons, step, List.take_succ_cons,
      List.take_succ_cons, List.filter_cons_of_neg (by simp [kinds.1]),
      List.filter_cons_of_pos (by simp [kinds.2]), ← ih]
  | case2 range n t rest other => simp [followingComments, other]
  | case3 ts range short =>
    rcases ts with _ | ⟨n, _ | ⟨t, rest⟩⟩
    iterate 2 rfl
    exact absurd rfl (short n t rest)

theorem followingComments_alike {r r' : Range} {ts ts' : List Token}
    (h : v.Parts Token.rewrite ts ts')
    (count : (followingComments r ts).length = (followingComments r' ts').length) :
    v.Parts Token.rewrite (followingComments r ts)
      (followingComments r' ts') := by
  rw [followingComments_eq r ts, followingComments_eq r' ts', ← count]
  have kept := congrArg (fun l : List Token =>
    (l.take (2 * (followingComments r ts).length)).filter (·.kind = .comment)) h
  simp only [← List.map_take, List.filter_map] at kept
  exact kept

theorem commentRound {s s' : State} (like : s.Alike v m s') (comment : s.kind = .comment) :
    let round := commentRun >>= fun c => Pure.pure (some [Stmt.comment c])
    ∃ a b t t', v.Found Stmt.rewrite a b ∧ t.Alike v m t' ∧ round.run s = (some a, t) ∧
      round.run s' = (some b, t') := by
  have count : (followingComments s.token.range (s.drop 1).rest.items).length =
      (followingComments s'.token.range (s'.drop 1).rest.items).length := by
    have comment' := like.kind.symm.trans comment
    have runs := like.runs
    change (followingComments _ (s.rest.items.drop 1)).length =
      (followingComments _ (s'.rest.items.drop 1)).length
    unfold State.kind State.token Input.head? at *
    generalize s.rest.items = items at *
    generalize s'.rest.items = items' at *
    cases items <;> cases items'
    · cases comment
    · cases runs
    · cases runs
    · have heads := (List.cons.inj runs).1
      rwa [if_pos (by exact comment), if_pos (by exact comment')] at heads
  have after := like.drop 1
  have more := followingComments_alike after.tokens count
  have both := foldl_joinComment more (Comments.mk like.token.text like.range)
  refine ⟨_, _, _, _, ?_, ?_, rfl, rfl⟩
  · simp only [Seen, Option.map_some, List.map_cons, List.map_nil, Stmt.rewrite]
    exact congrArg (fun c => some [Stmt.comment c]) both
  · rw [← count]
    exact after.drop _

theorem trailingComment : Parallel v m (v.Parts Stmt.rewrite) trailingComment trailingComment := by
  refine .same isAt fun _ => .ite (fun _ => comment.bind fun c c' like => .pure ?_) fun _ => .pure rfl
  simp [Seen, Stmt.rewrite, like.eq]

theorem isInlineIf_eq {s s' : Stmt} (h : v.Stmts s s') : s.isInlineIf = s'.isInlineIf := by
  have kept (w : Rewriting) (s : Stmt) : (s.rewrite w).isInlineIf = s.isInlineIf := by
    cases s <;> simp only [Stmt.rewrite, Stmt.isInlineIf]
  have same := congrArg Stmt.isInlineIf h
  rwa [kept, kept] at same

theorem finishStatement {stmt stmt' : Stmt} (h : v.Stmts stmt stmt') :
    Parallel v m (v.Parts Stmt.rewrite) (finishStatement stmt) (finishStatement stmt') := by
  refine trailingComment.bind fun comments comments' like => .same kind fun k => ?_
  refine .ite (fun _ => .pure like) fun _ => .same (reportHere (quotes_const _)) fun _ =>
    .same advance fun _ => ?_
  have none : comments.isEmpty = comments'.isEmpty := by
    have empty := congrArg List.isEmpty like
    rwa [List.isEmpty_map, List.isEmpty_map] at empty
  rw [isInlineIf_eq h, none]
  exact .ite (fun _ => .same skipWhile fun _ => .pure like) fun _ =>
    .same skipWhile fun _ => .pure like

/-- The routines one level further in read alike what looks alike. -/
structure OfGrammar (v : Likeness δ) (m : Nat) (g g' : Grammar) : Prop where
  expression : Parallel v m v.Exprs g.expression g'.expression
  /- An operand is read inside another level, that of its prefix operator. -/
  operand : Parallel v (m + 1) v.Exprs g.operand g'.operand
  statement : Parallel v m v.Stmts g.statement g'.statement

variable {g g' : Grammar}

theorem closes_eq {s s' : State} (like : s.Alike v m s') (closers : List Kind) :
    s.closes closers = s'.closes closers := by
  rw [State.closes, State.closes, like.kind, like.kindAt, like.functions]

theorem makeBlock_alike {start start' : Range} (first : v.Ranges start start') {stmts stmts' : List Stmt}
    (like : v.Parts Stmt.rewrite stmts stmts') :
    v.Blocks (makeBlock start stmts) (makeBlock start' stmts') := by
  have lasts := congrArg List.getLast? like
  rw [List.getLast?_map, List.getLast?_map] at lasts
  unfold makeBlock
  cases one : stmts.getLast? <;> cases other : stmts'.getLast? <;> rw [one, other] at lasts
  · have range := v.empty first
    simp [Seen, blockRewrite, stmtsRewrite_eq, like.eq, range]
  · contradiction
  · contradiction
  · have range := v.union first (Stmts.range (Option.some.inj lasts))
    simp [Seen, blockRewrite, stmtsRewrite_eq, like.eq, range]

theorem declaredName : Parallel v m v.Idents declaredName declaredName := by
  refine .same kind fun k => .ite (fun _ => takeIdent.bind fun name name' like => ?_) fun _ =>
    refuse quotes_expectedIdentifier
  have reserved : isReserved name.name = isReserved name'.name := by
    rw [isReserved, isReserved, v.folded like.name]
  rw [reserved]
  refine .ite (fun _ => .same (reportOf quotes_reservedWord like.name like.range) fun _ =>
    .pure like) fun _ => ?_
  exact .ite (fun _ => .same (reportOf quotes_expectedIdentifier like.name like.range) fun _ =>
    .pure like) fun _ => .pure like

theorem typeName : Parallel v m (· = ·) typeName typeName := by
  refine token.bind fun t t' like => ?_
  have type : Ty.ofName? t.text = Ty.ofName? t'.text := by
    rw [Ty.ofName?, Ty.ofName?, v.folded like.text]
  rw [like.kind, type]
  refine .ite (fun _ => .same advance fun _ => ?_) fun _ => refuse quotes_expectedIdentifier
  cases Ty.ofName? t'.text with
  | some type => exact .pure rfl
  | none => exact .same (reportOf quotes_unknownType like.text like.range) fun _ => .pure rfl

theorem asType (missing : Ty) : Parallel v m (· = ·) (asType missing) (asType missing) :=
  .same atName fun _ => .ite (fun _ => .same advance fun _ => typeName) fun _ => .pure rfl

theorem checkFallback {fallback fallback' : Option Expr}
    (like : v.Both optionRewrite fallback fallback') (type : Ty) :
    Parallel v m (· = ·) (checkFallback fallback type) (checkFallback fallback' type) := by
  cases fallback with
  | none =>
    cases fallback' with
    | none => exact .pure rfl
    | some => contradiction
  | some e =>
    cases fallback' with
    | none => contradiction
    | some e' =>
      have like : e.rewrite v.left = e'.rewrite v.right := Option.some.inj like
      cases e with
      | literal l =>
        cases e' with
        | literal l' =>
          have like : l.rewrite v.left = l'.rewrite v.right := Expr.literal.inj like
          have kind : l.kind = l'.kind := by
            have same : (l.rewrite v.left).kind = (l'.rewrite v.right).kind := by rw [like]
            exact same
          have range : v.Ranges l.range l'.range := by
            have same : (l.rewrite v.left).range = (l'.rewrite v.right).range := by rw [like]
            exact same
          have type' : l.type = l'.type := by rw [Literal.type, Literal.type, kind]
          change Parallel v m _ (if _ then Parser.report _ _ else _) (if _ then Parser.report _ _ else _)
          rw [kind, type']
          exact .ite (fun _ => report rfl rfl range) fun _ => .pure rfl
        | _ => simp [Expr.rewrite] at like
      | _ =>
        cases e' with
        | literal => simp [Expr.rewrite] at like
        | _ => exact .pure rfl

theorem isRequired_eq {p p' : Parameter Expr} (like : v.Both parameterRewrite p p') :
    p.isRequired = p'.isRequired := by
  have kept (w : Rewriting) (p : Parameter Expr) : (parameterRewrite w p).isRequired = p.isRequired := by
    obtain ⟨_, _, _ | _, _⟩ := p <;> rfl
  have same := congrArg Parameter.isRequired like
  rwa [kept, kept] at same

theorem parameterName {p p' : Parameter Expr} (like : v.Both parameterRewrite p p') :
    v.Idents p.name p'.name := by
  have kept (w : Rewriting) (p : Parameter Expr) : (parameterRewrite w p).name = p.name.rewrite w := by
    cases p
    rfl
  have same := congrArg Parameter.name like
  rwa [kept, kept] at same

theorem closeFunction (isSub : Bool) :
    Parallel v m (· = ·) (closeFunction isSub) (closeFunction isSub) := by
  refine .same kind fun k => .ite (fun _ => ?_) fun _ => .same (reportHere (quotes_const _)) fun _ => ?_
  all_goals exact .ite (fun _ => advance) fun _ => .pure rfl

theorem separator (closer : Kind) : Parallel v m (· = ·) (separator closer) (separator closer) :=
  .same accept fun _ => .ite (fun _ => .pure rfl) fun _ => .same kind fun _ =>
    .ite (fun _ => .pure rfl) fun _ => refuse (quotes_expectedToken _)

theorem member : Parallel v m v.Tokens member member := fun s s' like =>
  .inr ⟨s.token, s'.token, s.drop 1, s'.drop 1, like.token, like.drop 1, rfl, rfl⟩

theorem memberName : Parallel v m v.Idents memberName memberName :=
  member.bind fun _ _ like => .pure (Idents.mk like.text like.range)

theorem memberKey :
    Parallel v m (Seen (Prod.map v.text id) (Prod.map v.text id)) memberKey memberKey := by
  refine .same kind fun _ => .ite (fun _ => member.bind fun t t' like => ?_) fun _ =>
    .ite (fun _ => member.bind fun t t' like => .pure (congrArg (·, false) like.text)) fun _ =>
      refuse quotes_expectedIdentifier
  have values : t.value.map (Value.rewrite v.left) = t'.value.map (Value.rewrite v.right) :=
    congrArg Token.value like
  have trimmed : (v.text (trimQuotes t.text), true) = (v.text (trimQuotes t'.text), true) :=
    congrArg (·, true) (v.trimmed like.text)
  cases one : t.value with
  | none =>
    cases other : t'.value with
    | none => exact .pure trimmed
    | some => simp [one, other] at values
  | some a =>
    cases other : t'.value with
    | none => simp [one, other] at values
    | some b =>
      rw [one, other] at values
      have values := Option.some.inj values
      cases a <;> cases b
      case string.string x y => exact .pure (congrArg (·, true) (Value.string.inj values))
      all_goals first | exact .pure trimmed | contradiction

theorem memberAccess {e e' : Expr} (like : v.Exprs e e') :
    Parallel v m (Rounds v.Exprs v.Exprs) (memberAccess e) (memberAccess e') := by
  refine here.bind fun dot dot' place => .same advance fun _ => .same kind fun k =>
    .ite (fun _ => memberName.bind fun name name' named => .pure (.again ?_)) fun _ => ?_
  · simp [Seen, Expr.rewrite, like.eq, named.eq, v.union like.range named.range]
  · split
    iterate 4 exact .same (report rfl rfl place) fun _ => .pure (.done like)
    exact refuseAt place

theorem binaryRound {operandAt operandAt' : Nat → Parser Expr}
    (h : ∀ p, Parallel v m v.Exprs (operandAt p) (operandAt' p)) (level : Nat) {left left' : Expr}
    (like : v.Exprs left left') :
    Parallel v m (Rounds v.Exprs v.Exprs) (binaryRound operandAt level left)
      (binaryRound operandAt' level left') := by
  refine token.bind fun t t' sign => ?_
  rw [sign.kind]
  cases t'.kind.precedence? with
  | none => exact .pure (.done like)
  | some p =>
    refine .ite (fun _ => .same advance fun _ => (h p).bind fun right right' last =>
      .pure (.again ?_)) fun _ => .pure (.done like)
    simp [Seen, Expr.rewrite, Operator.rewrite, sign.text.eq, like.eq, last.eq,
      v.union like.range last.range]

theorem binaryRest {operandAt operandAt' : Nat → Parser Expr}
    (h : ∀ p, Parallel v m v.Exprs (operandAt p) (operandAt' p)) (level : Nat) {left left' : Expr}
    (like : v.Exprs left left') :
    Parallel v m v.Exprs (binaryRest operandAt level left) (binaryRest operandAt' level left') :=
  loop (fun _ _ like => binaryRound h level like) like

theorem binary {operand operand' : Parser Expr} (h : Parallel v m v.Exprs operand operand')
    (level : Nat) : Parallel v m v.Exprs (binary operand level) (binary operand' level) := by
  have from_ (depth : Nat) : ∀ level,
      Parallel v m v.Exprs (binaryFrom operand depth level) (binaryFrom operand' depth level) := by
    induction depth with
    | zero => exact fun _ => h
    | succ depth ih => exact fun level => h.bind fun _ _ like => binaryRest ih level like
  exact from_ tightestLevel level

theorem markUnsupported : Parallel v m (· = ·) markUnsupported markUnsupported := by
  refine .update fun s s' like => ?_
  unfold State.markUnsupported
  rw [like.mode, like.discard]
  split
  · exact (like.report rfl rfl like.range).withDiscard true
  · exact like

theorem close (closer : Kind) (construct : String) :
    Parallel v m (· = ·) (close closer construct) (close closer construct) :=
  .same accept fun _ => .ite (fun _ => .pure rfl) fun _ => reportHere (quotes_const _)

theorem incrementStatement {target target' : Expr} (like : v.Exprs target target') :
    Parallel v m v.Stmts (incrementStatement target) (incrementStatement target') := by
  refine token.bind fun t t' sign => .same advance fun _ => .pure ?_
  simp [Seen, Stmt.rewrite, like.eq, sign.kind, v.union like.range sign.range]

theorem callStatement {e e' : Expr} (like : v.Exprs e e') :
    Parallel v m v.Stmts (callStatement e) (callStatement e') := by
  have isCall : e.isCall = e'.isCall := by
    have kept (e : Expr) : (e.rewrite v.left).isCall = e.isCall := by
      cases e <;> simp [Expr.rewrite, Expr.isCall]
    have kept' (e : Expr) : (e.rewrite v.right).isCall = e.isCall := by
      cases e <;> simp [Expr.rewrite, Expr.isCall]
    have same := congrArg Expr.isCall like
    rwa [kept, kept'] at same
  unfold Parser.callStatement
  rw [isCall]
  refine .ite (fun _ => .pure (by simp [Seen, Stmt.rewrite, like.eq])) fun _ =>
    .giveUp fun s s' states => ?_
  unfold State.missCall
  rw [states.discard]
  split
  · exact states
  · exact states.report rfl rfl like.range

theorem closeFor : Parallel v m (· = ·) closeFor closeFor :=
  .same accept fun _ => .ite (fun _ => .same accept fun _ => .pure rfl) fun _ => close _ _

theorem gotoStatement : Parallel v m v.Stmts gotoStatement gotoStatement := by
  refine here.bind fun start start' place => .same advance fun _ =>
    declaredName.bind fun label label' named => .pure ?_
  simp [Seen, Stmt.rewrite, named.eq, v.union place named.range]

theorem labelStatement : Parallel v m v.Stmts labelStatement labelStatement := by
  refine takeIdent.bind fun name name' named => .same advance fun _ => .pure ?_
  simp [Seen, Stmt.rewrite, named.eq]

theorem keywordStatement {stmt : Range → Stmt}
    (h : ∀ r r', v.Ranges r r' → v.Stmts (stmt r) (stmt r')) :
    Parallel v m v.Stmts (keywordStatement stmt) (keywordStatement stmt) :=
  here.bind fun _ _ place => .same advance fun _ => .pure (h _ _ place)

section

variable (h : OfGrammar v m g g') {condition condition' : Expr}
include h

theorem codeRound (closers : List Kind) :
    Parallel v m (v.Found Stmt.rewrite) (codeRound g closers) (codeRound g' closers) := by
  refine .same (.inspect fun _ _ like => closes_eq like closers) fun _ => ?_
  refine .ite (fun _ => .pure rfl) fun _ => h.statement.attemptPast.bind fun a b related => ?_
  cases related with
  | none => exact .same skipWhile fun _ => .pure rfl
  | some first =>
    refine (finishStatement first).bind fun comments comments' like => .pure ?_
    simp [Seen, first.eq, like.eq]

theorem statementRound (closers : List Kind) :
    Parallel v m (v.Found Stmt.rewrite) (statementRound g closers) (statementRound g' closers) := by
  refine .atKind .comment (fun _ _ like comment => commentRound like comment) fun k code => ?_
  split
  · exact .same advance fun _ => .pure rfl
  · exact .same advance fun _ => .pure rfl
  · exact .pure rfl
  · exact absurd rfl code
  · exact codeRound h closers

theorem statements (closers : List Kind) :
    Parallel v m (v.Parts Stmt.rewrite) (statements g closers) (statements g' closers) :=
  many (statementRound h closers)

theorem block (closers : List Kind) : Parallel v m v.Blocks (block g closers) (block g' closers) :=
  here.bind fun _ _ start => trailingComment.bind fun _ _ header =>
    (statements h closers).bind fun _ _ stmts => .pure (makeBlock_alike start (header.append stmts))

theorem OfGrammar.optional :
    Parallel v m (v.Both optionRewrite) (some <$> g.expression) (some <$> g'.expression) :=
  h.expression.map fun _ _ like => congrArg some like

theorem parameter : Parallel v m (v.Both parameterRewrite) (parameter g) (parameter g') := by
  refine .ranged (declaredName.bind fun name name' named => .same accept fun _ =>
    .choice h.optional (.pure rfl) fun fallback fallback' given => .same (asType _) fun type =>
      .same (checkFallback given type) fun _ => .pure fun r r' range => ?_)
  simp [parameterRewrite, named.eq, given.eq, range.eq]

/- The parameters so far look alike, and the flag is the same. -/
def SeenParameters (v : Likeness δ) (a b : List (Parameter Expr) × Bool) : Prop :=
  v.Parts parameterRewrite a.1 b.1 ∧ a.2 = b.2

theorem parameterRound {seen seen' : List (Parameter Expr) × Bool}
    (sofar : SeenParameters v seen seen') :
    Parallel v m (Rounds (SeenParameters v) (v.Parts parameterRewrite))
      (parameterRound g seen) (parameterRound g' seen') := by
  refine (parameter h).bind fun p p' like => ?_
  have params := sofar.1.concat like
  rw [isRequired_eq like, sofar.2]
  have rest : Parallel v m
      (Rounds (SeenParameters v) (v.Parts parameterRewrite))
      (do
        if ← Parser.accept .comma then
          Pure.pure (.again (seen.1 ++ [p], seen'.2 || !p'.isRequired))
        else Pure.pure (.done (seen.1 ++ [p])))
      (do
        if ← Parser.accept .comma then
          Pure.pure (.again (seen'.1 ++ [p'], seen'.2 || !p'.isRequired))
        else Pure.pure (.done (seen'.1 ++ [p']))) :=
    .same accept fun _ => .ite (fun _ => .pure (.again ⟨params, rfl⟩)) fun _ => .pure (.done params)
  have name := parameterName like
  exact .ite (fun _ => .same (reportOf quotes_requiredAfterOptional name.name name.range) fun _ => rest)
    fun _ => rest

theorem parameters : Parallel v m (v.Parts parameterRewrite) (parameters g) (parameters g') :=
  .same isAt fun _ => .choice (R := v.Parts parameterRewrite)
    (.pure rfl) (loop (fun _ _ sofar => parameterRound h sofar) ⟨rfl, rfl⟩) fun _ _ like =>
      .same expect fun _ => .pure like

theorem functionRest {first first' : Range} (start : v.Ranges first first')
    (isSub : Bool) :
    Parallel v m (v.Both functionRewrite) (functionRest g first isSub)
      (functionRest g' first' isSub) := by
  refine .spanned (.same expect fun _ => (parameters h).bind fun params params' like =>
    .same (asType _) fun returns => (block h functionClosers).inFunction.bind fun body body' inner =>
      .same (closeFunction isSub) fun _ => .pure fun r r' range => ?_) start
  simp [functionRewrite, parametersRewrite_eq, like.eq, inner.eq, range.eq]

theorem argumentRound {args args' : List Expr}
    (sofar : v.Parts Expr.rewrite args args') :
    Parallel v m (Rounds (v.Parts Expr.rewrite)
        (v.Parts Expr.rewrite))
      (argumentRound g args) (argumentRound g' args') := by
  refine h.expression.bind fun e e' like => .same skipWhile fun _ => .same accept fun _ => ?_
  have more := sofar.concat like
  exact .ite (fun _ => .same skipWhile fun _ => .pure (.again more)) fun _ => .pure (.done more)

theorem arguments : Parallel v m (v.Parts Expr.rewrite) (arguments g) (arguments g') :=
  .same skipWhile fun _ => .same isAt fun _ =>
    .choice (R := v.Parts Expr.rewrite) (.pure rfl)
      (loop (fun _ _ sofar => argumentRound h sofar) rfl) fun _ _ like =>
        .same expect fun _ => .pure like

theorem elementRound : Parallel v m (v.Found Expr.rewrite) (elementRound g) (elementRound g') :=
  .same skipWhile fun _ => .same isAt fun _ => .ite (fun _ => .pure rfl) fun _ =>
    h.expression.bind fun _ _ like => .same (separator _) fun _ =>
      .pure (congrArg (fun e => some [e]) like)

theorem arrayLiteral : Parallel v m v.Exprs (arrayLiteral g) (arrayLiteral g') := by
  refine .ranged (.same advance fun _ => (many (elementRound h)).bind fun elements elements' like =>
    .same expect fun _ => .pure fun r r' range => ?_)
  simp [Expr.rewrite, exprsRewrite_eq, like.eq, range.eq]

theorem memberRound : Parallel v m (v.Found memberRewrite) (memberRound g) (memberRound g') := by
  refine .same skipWhile fun _ => .same kind fun k => .ite (fun _ => .pure rfl) fun _ =>
    .ite (fun _ => comment.bind fun c c' like => .pure ?_) fun _ => here.bind fun r r' start =>
      memberKey.bind fun key key' named => .same expect fun _ =>
        h.expression.bind fun value value' like => .same (separator _) fun _ => .pure ?_
  · simp [Seen, memberRewrite, like.eq]
  · obtain ⟨text, quoted⟩ := Prod.mk.inj named
    have quoted : key.2 = key'.2 := quoted
    simp [Seen, memberRewrite, text, quoted, like.eq, v.union start like.range]

theorem assocLiteral : Parallel v m v.Exprs (assocLiteral g) (assocLiteral g') := by
  refine .ranged (.same advance fun _ => (many (memberRound h)).bind fun members members' like =>
    .same expect fun _ => .pure fun r r' range => ?_)
  simp [Expr.rewrite, membersRewrite_eq, like.eq, range.eq]

theorem grouping : Parallel v m v.Exprs (grouping g) (grouping g') := by
  refine .ranged (.same advance fun _ => h.expression.bind fun inner inner' like =>
    .same expect fun _ => .pure fun r r' range => ?_)
  simp [Expr.rewrite, like.eq, range.eq]

theorem anonymousFunction : Parallel v m v.Exprs (anonymousFunction g) (anonymousFunction g') := by
  refine token.bind fun t t' like => .same advance fun _ => ?_
  rw [like.kind]
  refine (functionRest h like.range _).bind fun f f' inner => .pure ?_
  simp [Seen, Expr.rewrite, inner.eq]

theorem primary : Parallel v m v.Exprs (primary g) (primary g') := by
  refine token.bind fun t t' like => ?_
  rw [like.kind]
  split
  · exact takeIdent.map fun _ _ like => by simp [Seen, Expr.rewrite, like.eq]
  · exact grouping h
  · exact arrayLiteral h
  · exact assocLiteral h
  · exact anonymousFunction h
  · exact anonymousFunction h
  · refine .ite (fun _ => .same advance fun _ => .pure ?_) fun _ => refuse quotes_expectedExpression
    simp [Seen, Expr.rewrite, Literal.rewrite, like.text.eq, like.range.eq]

theorem callAccess {e e' : Expr} (like : v.Exprs e e') :
    Parallel v m v.Exprs (callAccess g e) (callAccess g' e') := by
  refine .spanned (.same advance fun _ => (arguments h).bind fun args args' given =>
    .pure fun r r' range => ?_) like.range
  simp [Expr.rewrite, exprsRewrite_eq, like.eq, given.eq, range.eq]

theorem indexAccess {e e' : Expr} (like : v.Exprs e e') :
    Parallel v m v.Exprs (indexAccess g e) (indexAccess g' e') := by
  refine .spanned (.same advance fun _ => h.expression.bind fun index index' given =>
    .same expect fun _ => .pure fun r r' range => ?_) like.range
  simp [Expr.rewrite, like.eq, given.eq, range.eq]

theorem accessRound {e e' : Expr} (like : v.Exprs e e') :
    Parallel v m (Rounds v.Exprs v.Exprs) (accessRound g e) (accessRound g' e') := by
  refine .same kind fun k => ?_
  split
  · exact (callAccess h like).map fun _ _ next => .again next
  · exact memberAccess like
  · exact (indexAccess h like).map fun _ _ next => .again next
  · exact .pure (.done like)

theorem accessed : Parallel v m v.Exprs (accessed g) (accessed g') :=
  (primary h).bind fun _ _ like => loop (fun _ _ like => accessRound h like) like

theorem prefixed : Parallel v (m + 1) v.Exprs (prefixed g) (prefixed g') := by
  refine token.bind fun t t' sign => .same advance fun _ => ?_
  rw [sign.kind]
  have inner (k : Kind) : Parallel v (m + 1) v.Exprs (prefixOperand k g.operand)
      (prefixOperand k g'.operand) := .ite (fun _ => binary h.operand notLevel) fun _ => h.operand
  refine (inner _).bind fun operand operand' like => .pure ?_
  simp [Seen, Expr.rewrite, Operator.rewrite, sign.text.eq, like.eq, v.union sign.range like.range]

theorem operand : Parallel v m v.Exprs (operand g) (operand g') :=
  .same kind fun _ => .ite (fun _ => (prefixed h).nested) fun _ => accessed h

theorem conditionalRest {test test' : Expr} (like : v.Exprs test test') :
    Parallel v m v.Exprs (conditionalRest g test) (conditionalRest g' test') := by
  refine .same isAt fun _ => .ite (fun _ => .same markUnsupported fun _ => .same advance fun _ =>
    h.expression.bind fun consequent consequent' first => .same expect fun _ =>
      h.expression.bind fun alternate alternate' last => .pure ?_) fun _ => .pure like
  simp [Seen, Expr.rewrite, like.eq, first.eq, last.eq, v.union like.range last.range]

omit h in
theorem expression (h : OfGrammar v (m + 1) g g') :
    Parallel v m v.Exprs (expression g) (expression g') :=
  nested ((binary (operand h) conditionalLevel).bind fun _ _ like => conditionalRest h like)

theorem assignedValue :
    Parallel v m (Seen (Prod.map id (Expr.rewrite v.left)) (Prod.map id (Expr.rewrite v.right)))
      (assignedValue g) (assignedValue g') :=
  .same kind fun k => .same advance fun _ => h.expression.bind fun _ _ like =>
    .pure (congrArg (k, ·) like)

theorem assignment : Parallel v m v.Stmts (assignment g) (assignment g') := by
  refine declaredName.bind fun name name' named => (assignedValue h).bind fun value value' like =>
    .pure ?_
  obtain ⟨operator, given⟩ := Prod.mk.inj like
  have operator : value.1 = value'.1 := operator
  have given : v.Exprs value.2 value'.2 := given
  simp [Seen, Stmt.rewrite, named.eq, operator, given.eq, v.union named.range given.range]

theorem setStatement {target target' : Expr} (like : v.Exprs target target') :
    Parallel v m v.Stmts (setStatement g target) (setStatement g' target') := by
  have parts {value value' : Kind × Expr} (like : Seen (Prod.map id (Expr.rewrite v.left))
      (Prod.map id (Expr.rewrite v.right)) value value') :
      value.1 = value'.1 ∧ v.Exprs value.2 value'.2 := Prod.mk.inj like
  cases target with
  | var name =>
    cases target' with
    | var name' =>
      have named : v.Idents name name' := Expr.var.inj like
      refine (assignedValue h).bind fun value value' like => .pure ?_
      obtain ⟨operator, given⟩ := parts like
      simp [Seen, Stmt.rewrite, named.eq, operator, given.eq, v.union named.range given.range]
    | _ => simp [Seen, Expr.rewrite] at like
  | dotted object name range =>
    cases target' with
    | dotted object' name' range' =>
      obtain ⟨first, named, place⟩ := Expr.dotted.inj like
      refine (assignedValue h).bind fun value value' like => .pure ?_
      obtain ⟨operator, given⟩ := parts like
      simp [Seen, Stmt.rewrite, first, named, operator, given.eq, v.union place given.range]
    | _ => simp [Seen, Expr.rewrite] at like
  | indexed object index range =>
    cases target' with
    | indexed object' index' range' =>
      obtain ⟨first, inner, place⟩ := Expr.indexed.inj like
      refine (assignedValue h).bind fun value value' like => .pure ?_
      obtain ⟨operator, given⟩ := parts like
      simp [Seen, Stmt.rewrite, first, inner, operator, given.eq, v.union place given.range]
    | _ => simp [Seen, Expr.rewrite] at like
  | _ =>
    cases target' with
    | var | dotted | indexed => simp [Seen, Expr.rewrite] at like
    | _ => exact refusePast (e := fun _ => Severity.eq_error rfl) quotes_unexpectedToken

theorem expressionStatement :
    Parallel v m v.Stmts (expressionStatement g) (expressionStatement g') := by
  refine (operand h).bind fun left left' like => .same kind fun k =>
    .ite (fun _ => setStatement h like) fun _ => .ite (fun _ => incrementStatement like) fun _ =>
      .ite (fun _ => ?_) fun _ => callStatement like
  exact (binaryRest (binary (operand h)) conditionalLevel like).bind fun _ _ test =>
    (conditionalRest h test).bind fun _ _ e => callStatement e

theorem printRound : Parallel v m (v.Found itemRewrite) (printRound g) (printRound g') :=
  .same kind fun _ => .ite (fun _ => .pure rfl) fun _ =>
    .ite (fun _ => .same advance fun _ => .pure rfl) fun _ =>
      h.expression.bind fun _ _ like => .pure (congrArg (fun e => some [PrintItem.expression e]) like)

theorem printStatement : Parallel v m v.Stmts (printStatement g) (printStatement g') := by
  refine .ranged (.same advance fun _ => (many (printRound h)).bind fun items items' like =>
    .pure fun r r' range => ?_)
  simp [Stmt.rewrite, itemsRewrite_eq, like.eq, range.eq]

theorem returnStatement : Parallel v m v.Stmts (returnStatement g) (returnStatement g') := by
  refine .ranged (.same advance fun _ => .same kind fun _ =>
    .choice (R := v.Both optionRewrite) (.pure rfl) h.optional
      fun value value' like => .pure fun r r' range => ?_)
  simp [Stmt.rewrite, like.eq, range.eq]

/-- The two ways to read a branch. -/
structure OfBranches (v : Likeness δ) (m : Nat) (b b' : Branches) : Prop where
  body : Parallel v m v.Blocks b.body b'.body
  lastBody : Parallel v m v.Blocks b.lastBody b'.lastBody

theorem elseIf {b b' : Branches} (hb : OfBranches v m b b') :
    Parallel v m (v.Both elseIfRewrite) (elseIf g b) (elseIf g' b') := by
  refine .ranged (.same advance fun _ => h.expression.bind fun condition condition' test =>
    .same accept fun _ => hb.body.bind fun body body' like => .pure fun r r' range => ?_)
  simp [elseIfRewrite, test.eq, like.eq, range.eq]

theorem elseIfRound {b b' : Branches} (hb : OfBranches v m b b') :
    Parallel v m (v.Found elseIfRewrite) (elseIfRound g b) (elseIfRound g' b') :=
  .same isAt fun _ => .ite (fun _ => (elseIf h hb).bind fun _ _ like =>
    .pure (congrArg (fun e => some [e]) like)) fun _ => .pure rfl

def branchesRewrite (w : Rewriting) :
    Block Stmt × List (ElseIf Expr Stmt) × Option (Block Stmt) →
      Block Stmt × List (ElseIf Expr Stmt) × Option (Block Stmt) :=
  Prod.map (blockRewrite w) (Prod.map (List.map (elseIfRewrite w)) (Option.map (blockRewrite w)))

theorem ifBranches {b b' : Branches} (hb : OfBranches v m b b') :
    Parallel v m (v.Both branchesRewrite) (ifBranches g b) (ifBranches g' b') := by
  refine hb.body.bind fun body body' first => (many (elseIfRound h hb)).bind fun es es' middle =>
    .same accept fun _ =>
      .choice (R := Seen (Option.map (blockRewrite v.left)) (Option.map (blockRewrite v.right)))
        (hb.lastBody.map fun _ _ like => congrArg some like) (.pure rfl) fun last last' final =>
          .pure ?_
  simp [Seen, branchesRewrite, first.eq, middle.eq, final.eq]

theorem inlineRound {stmts stmts' : List Stmt}
    (sofar : v.Parts Stmt.rewrite stmts stmts') :
    Parallel v m (Rounds (v.Parts Stmt.rewrite)
        (v.Parts Stmt.rewrite))
      (inlineRound g stmts) (inlineRound g' stmts') := by
  refine h.statement.bind fun stmt stmt' like => ?_
  have more := sofar.concat like
  exact .same accept fun _ => .ite (fun _ => .same kind fun _ =>
    .ite (fun _ => .pure (.done more)) fun _ => .pure (.again more)) fun _ => .pure (.done more)

theorem inlineBlock : Parallel v m v.Blocks (inlineBlock g) (inlineBlock g') := by
  have none : v.Parts Stmt.rewrite [] [] := rfl
  exact here.bind fun _ _ start =>
    (loop (fun _ _ sofar => inlineRound h sofar) none).bind fun _ _ stmts =>
      .pure (makeBlock_alike start stmts)

omit h in
theorem ifThen_alike (test : v.Exprs condition condition') (inline : Bool)
    {branches branches' : Block Stmt × List (ElseIf Expr Stmt) × Option (Block Stmt)}
    (like : v.Both branchesRewrite branches branches') :
    Nodes v (Stmt.rewrite v.left) (Stmt.rewrite v.right)
      (Stmt.ifThen condition branches.1 branches.2.1 branches.2.2 inline)
      (Stmt.ifThen condition' branches'.1 branches'.2.1 branches'.2.2 inline) := by
  intro r r' range
  have rewritten (w : Rewriting) (condition : Expr)
      (branches : Block Stmt × List (ElseIf Expr Stmt) × Option (Block Stmt)) (r : Range) :
      (Stmt.ifThen condition branches.1 branches.2.1 branches.2.2 inline r).rewrite w =
        .ifThen (condition.rewrite w) (branchesRewrite w branches).1 (branchesRewrite w branches).2.1
          (branchesRewrite w branches).2.2 inline (w.range r) := by
    obtain ⟨body, elseIfs, _ | last⟩ := branches <;>
      simp only [Stmt.rewrite, elseIfsRewrite_eq, branchesRewrite] <;> rfl
  simp only [rewritten, test.eq, like.eq, left_range, right_range, range.eq]

theorem inlineIf (test : v.Exprs condition condition') :
    Parallel v m (Nodes v (Stmt.rewrite v.left) (Stmt.rewrite v.right)) (inlineIf g condition)
      (inlineIf g' condition') :=
  ((ifBranches h ⟨inlineBlock h, inlineBlock h⟩).withCleanup skipWhile).bind fun _ _ like =>
    .pure (ifThen_alike test true like)

theorem blockIf (test : v.Exprs condition condition') :
    Parallel v m (Nodes v (Stmt.rewrite v.left) (Stmt.rewrite v.right)) (blockIf g condition)
      (blockIf g' condition') :=
  (ifBranches h ⟨block h ifClosers, block h [.endIf]⟩).bind fun _ _ like =>
    .same (close _ _) fun _ => .pure (ifThen_alike test false like)

theorem ifStatement : Parallel v m v.Stmts (ifStatement g) (ifStatement g') :=
  .ranged (.same advance fun _ => h.expression.bind fun _ _ test =>
    .same accept fun _ => .same kind fun _ =>
      .ite (fun _ => blockIf h test) fun _ => inlineIf h test)

theorem whileStatement : Parallel v m v.Stmts (whileStatement g) (whileStatement g') := by
  refine .ranged (.same advance fun _ => h.expression.bind fun condition condition' test =>
    (block h [.endWhile]).bind fun body body' like => .same (close _ _) fun _ =>
      .pure fun r r' range => ?_)
  simp [Stmt.rewrite, test.eq, like.eq, range.eq]

theorem forEachRest :
    Parallel v m (Nodes v (Stmt.rewrite v.left) (Stmt.rewrite v.right)) (forEachRest g)
      (forEachRest g') := by
  refine declaredName.bind fun item item' named => .same atName fun _ => .ite (fun _ =>
    .same advance fun _ => h.expression.bind fun target target' through =>
      (block h forClosers).bind fun body body' like => .same closeFor fun _ =>
        .pure fun r r' range => ?_) fun _ => refuse (quotes_expectedToken _)
  simp [Stmt.rewrite, named.eq, through.eq, like.eq, range.eq]

theorem forRest :
    Parallel v m (Nodes v (Stmt.rewrite v.left) (Stmt.rewrite v.right)) (forRest g) (forRest g') := by
  refine declaredName.bind fun counter counter' named => .same expect fun _ =>
    h.expression.bind fun first first' lower => .same expect fun _ =>
      h.expression.bind fun last last' upper => .same accept fun _ =>
        .choice (R := v.Both optionRewrite) h.optional (.pure rfl)
          fun step step' given => (block h forClosers).bind fun body body' like =>
            .same closeFor fun _ => .pure fun r r' range => ?_
  simp [Stmt.rewrite, named.eq, lower.eq, upper.eq, given.eq, like.eq, range.eq]

theorem forStatement : Parallel v m v.Stmts (forStatement g) (forStatement g') :=
  .ranged (.same advance fun _ => .same accept fun _ =>
    .ite (fun _ => forEachRest h) fun _ => forRest h)

theorem functionDeclaration :
    Parallel v m v.Stmts (functionDeclaration g) (functionDeclaration g') := by
  refine token.bind fun t t' first => .same advance fun _ => declaredName.bind fun name name' named => ?_
  rw [first.kind]
  refine (functionRest h first.range _).bind fun f f' like => .pure ?_
  simp [Seen, Stmt.rewrite, named.eq, like.eq]

theorem statementBody : Parallel v m v.Stmts (statementBody g) (statementBody g') := by
  refine .same (.inspect fun _ _ like => ?_) fun _ => .ite (fun _ => assignment h) fun _ =>
    .same (.inspect fun _ _ like => ?_) fun _ => .ite (fun _ => labelStatement) fun _ =>
      .same kind fun k => ?_
  · rw [State.atTarget, State.atTarget, like.kind, like.kindAt]
  · rw [State.atLabel, State.atLabel, like.kind, like.kindAt, like.kindAt]
  · unfold byKeyword
    split
    · exact ifStatement h
    · exact whileStatement h
    · exact forStatement h
    · exact functionDeclaration h
    · exact functionDeclaration h
    · exact returnStatement h
    · exact printStatement h
    · exact printStatement h
    · exact gotoStatement
    · exact keywordStatement fun _ _ place => congrArg Stmt.exitFor place
    · exact keywordStatement fun _ _ place => congrArg Stmt.exitWhile place
    · exact keywordStatement fun _ _ place => congrArg Stmt.endProgram place
    · exact keywordStatement fun _ _ place => congrArg Stmt.stop place
    · exact .ite (fun _ => refusePast quotes_unexpectedToken) fun _ => expressionStatement h

end

end Parallel

/-- The grammar written out to a number of levels, with any routines where that stops. -/
def unrollFrom (bottom : Grammar) : Nat → Grammar
  | 0 => bottom
  | n + 1 =>
    let g := unrollFrom bottom n
    ⟨expression g, operand g, statement g⟩

theorem unroll_eq (n : Nat) : unroll n = unrollFrom ⟨tooDeep, tooDeep, tooDeep⟩ n := by
  induction n with
  | zero => rfl
  | succ n ih => simp only [unroll, unrollFrom, ih]

/- The levels that are left count up as those that have been unrolled count down, so the routines
where that stops are never reached. -/
theorem Parallel.unrolled (bottom bottom' : Grammar) {n m : Nat} (enough : maxNesting + 1 ≤ n + m) :
    OfGrammar v m (unrollFrom bottom n) (unrollFrom bottom' n) := by
  induction n generalizing m with
  | zero =>
    refine ⟨fun s s' like => ?_, fun s s' like => ?_, fun s s' like => ?_⟩
    all_goals
      have above := like.above
      have within := like.within
      omega
  | succ n ih =>
    have inner := ih (m := m + 1) (by omega)
    exact ⟨expression inner, operand inner, (statementBody inner).droppable.nested⟩

end Parser

open BrightScript.Parser Likeness

theorem parse_of_alike {δ : Type} {v : Likeness δ} {mode : Mode} {ts ts' : List Token}
    (start : (State.start mode ts).Alike v 0 (State.start mode ts')) :
    v.Parts Stmt.rewrite (parse mode ts).statements
        (parse mode ts').statements ∧
      (parse mode ts).diagnostics.map v.report = (parse mode ts').diagnostics.map v.report' := by
  unfold parse
  rw [grammar, unroll_eq]
  obtain ⟨t, t', like, hp, hq⟩ | ⟨a, b, t, t', stmts, like, hp, hq⟩ :=
    Parallel.statements (Parallel.unrolled _ _ (m := 0) (Nat.le_refl _)) [] _ _ start
  · rw [hp, hq]
    exact ⟨rfl, like.diagnostics⟩
  · rw [hp, hq]
    exact ⟨stmts, like.diagnostics⟩

/-- Token lists that look alike, with comments below each other in the same places, have trees and
reports that look alike. -/
theorem parse_alike {δ : Type} (v : Likeness δ) (mode : Mode) {ts ts' : List Token}
    (tokens : v.Parts Token.rewrite ts ts')
    (runs : commentRuns ts = commentRuns ts')
    (origin : v.Ranges (.empty .origin) (.empty .origin))
    (last : ∀ {r r'}, v.Ranges r r' → v.Ranges (.empty r.stop) (.empty r'.stop)) :
    v.Parts Stmt.rewrite (parse mode ts).statements
        (parse mode ts').statements ∧
      (parse mode ts).diagnostics.map v.report = (parse mode ts').diagnostics.map v.report' := by
  have finish : v.Ranges (.empty ((ts.getLast?.map (·.range.stop)).getD .origin))
      (.empty ((ts'.getLast?.map (·.range.stop)).getD .origin)) := by
    have lasts := congrArg List.getLast? tokens
    rw [List.getLast?_map, List.getLast?_map] at lasts
    cases one : ts.getLast? <;> cases other : ts'.getLast? <;> rw [one, other] at lasts
    · exact origin
    · contradiction
    · contradiction
    · exact last (Tokens.range (Option.some.inj lasts))
  exact parse_of_alike ⟨rfl, finish, tokens, runs, rfl, rfl, rfl, rfl, Nat.zero_le _, Nat.zero_le _⟩

end BrightScript
