import BrightScript.Parser
import BrightScript.Proofs.Parser.Seam

/-! Every routine against a line break in the place of the end of the file.
Expressions and statements need a token, so they starve at the end of the file, and they stop at a
line break as they stop there. Blocks do go on past a line break, but what closes a block is not at
the end of the file. -/
namespace BrightScript.Parser

variable {α β : Type} {j : Seam} {lost : Bool} {u : List Token}

/-- A parser that needs a token and is the same before a line break. -/
structure Continues (j : Seam) (p : Parser α) : Prop where
  mirrors : ∀ u, Mirrors j false p u
  starved : Starved j p

namespace Continues

variable {p : Parser α}

theorem of_cons (starved : Starved j p) (mirrors : ∀ u, u ≠ [] → Mirrors j false p u) :
    Continues j p := by
  refine ⟨fun u => ?_, starved⟩
  by_cases open_ : u = []
  · exact open_ ▸ .of_starved starved
  · exact mirrors u open_

theorem here (h : Continues j p) : Mirrors j lost p u := (h.mirrors u).weaken

end Continues

/-- The routines one level further in. -/
structure ContinuesGrammar (j : Seam) (g : Grammar) : Prop where
  expression : Continues j g.expression
  operand : Continues j g.operand
  statement : Continues j g.statement

variable {g : Grammar}

theorem mirrors_comment (open_ : u ≠ []) : Mirrors j lost comment u :=
  .taking open_ (fun _ _ _ => rfl) fun _ _ => .pure

/- A comment behind the line break would be joined to one before it. -/
theorem followingComments_seam (range : Range) (w : List Token) :
    followingComments range (w ++ [j.file]) = followingComments range (w ++ j.line :: j.more) ∧
      ∃ v w', w = v ++ w' ∧ v.length = 2 * (followingComments range (w ++ [j.file])).length := by
  induction range, w using followingComments.induct with
  | case1 range n t rest here ih =>
    obtain ⟨same, v, w', rfl, length⟩ := ih
    have found (after : List Token) : followingComments range (n :: t :: (v ++ w') ++ after) =
        t :: followingComments (range.union t.range) (v ++ w' ++ after) := by
      rw [List.cons_append, List.cons_append, followingComments, if_pos here]
    refine ⟨by rw [found, found, same], n :: t :: v, w', rfl, ?_⟩
    rw [found, List.length_cons, List.length_cons, List.length_cons, length]
    omega
  | case2 range n t rest other =>
    have none (after : List Token) : followingComments range (n :: t :: rest ++ after) = [] := by
      rw [List.cons_append, List.cons_append, followingComments, if_neg other]
    exact ⟨by rw [none, none], [], _, rfl, by rw [none]; rfl⟩
  | case3 tokens range short =>
    rcases tokens with _ | ⟨n, _ | ⟨t, rest⟩⟩
    · refine ⟨?_, [], [], rfl, rfl⟩
      cases more : j.more with
      | nil => rfl
      | cons t rest =>
        have code := j.code t (by rw [more]; rfl)
        simp [followingComments, code]
    · have none (t : Token) (rest : List Token) (code : t.kind ≠ .comment) :
          followingComments range ([n] ++ t :: rest) = [] := by simp [followingComments, code]
      have file := none j.file [] (by rw [j.file_kind]; decide)
      have line := none j.line j.more (by rw [j.line_kind]; decide)
      exact ⟨by rw [file, line], [], [n], rfl, by rw [file]; rfl⟩
    · exact absurd rfl (short n t rest)

theorem mirrors_commentRun (open_ : u ≠ []) : Mirrors j lost commentRun u := by
  refine .bind (mirrors_comment open_) fun first v _ => ?_
  obtain ⟨same, w, w', rfl, length⟩ := followingComments_seam (j := j) first.range v
  refine .inspecting (fun _ => same) fun s => ?_
  have count : 2 * (followingComments first.range (j.before s (w ++ w')).rest.items).length =
      w.length := length.symm
  rw [count]
  exact .bind .take fun _ _ _ => .pure

theorem mirrors_trailingComment : Mirrors j lost trailingComment u :=
  .isAt ⟨by decide, by decide⟩ (fun open_ => .bind (mirrors_comment open_) fun _ _ _ => .pure) .pure

theorem mirrors_finishStatement {st : Stmt} : Mirrors j lost (finishStatement st) u := by
  refine .bind mirrors_trailingComment fun comments v _ =>
    .kind (fun k _ => ?_) (.inl ⟨rfl, .pure⟩)
  split
  · exact .pure
  · exact .never (by simp [reads_bind])

theorem continues_declaredName : Continues j declaredName := by
  refine ⟨fun u => .kind (fun k open_ => ?_) (.inr ?_), .kind ?_⟩
  · split
    · refine .bind (.takeIdent open_) fun name _ _ => ?_
      split
      · exact .never (by simp [reads_bind])
      · split
        · exact .never (by simp [reads_bind])
        · exact .pure
    · exact .never (by simp)
  all_goals exact Starved.never fun _ _ _ => not_reads_refuse (e := fun _ => rfl)

theorem continues_typeName : Continues j typeName := by
  refine .of_cons (.token fun t file => ?_) fun u open_ => ?_
  · rw [file]
    exact Starved.never nofun
  · refine .looking open_ (fun _ _ _ => rfl) fun _ => ?_
    split
    · refine .bind (.advance open_) fun _ _ _ => ?_
      split
      · exact .pure
      · exact .never (by simp [reads_bind])
    · exact .never (by simp)

theorem mirrors_asType {missing : Ty} : Mirrors j lost (asType missing) u :=
  .atName (fun open_ => .bind (.advance open_) fun _ _ _ => continues_typeName.here) .pure

theorem mirrors_checkFallback {fallback : Option Expr} {type : Ty} :
    Mirrors j lost (checkFallback fallback type) u := by
  unfold checkFallback
  split
  · split
    · exact .never (by simp)
    · exact .pure
  · exact .pure

theorem continues_closeFunction {isSub : Bool} : Continues j (closeFunction isSub) := by
  refine .of_cons (fun s a s' run => ?_) fun u open_ s a s' _ run => ?_
  · obtain ⟨closes, _⟩ := run.closeFunction_inv
    rw [j.kind_before_nil] at closes
    cases isSub <;> cases closes
  · obtain ⟨t, w, rfl⟩ := List.exists_cons_of_ne_nil open_
    obtain ⟨closes, rfl⟩ := run.closeFunction_inv
    have left : (j.before s (t :: w)).drop 1 = j.before s w := s.drop_upTo [t] w _ _
    have left' : (j.across s (t :: w)).drop 1 = j.across s w := s.drop_upTo [t] w _ _
    have across := Reads.of_closeFunction (s := j.across s (t :: w)) closes
    rw [left'] at across
    rw [left]
    exact ⟨w, List.suffix_cons t w, rfl, .inr across⟩

theorem continues_separator {closer : Kind} (code : closer ≠ .endOfFile) :
    Continues j (separator closer) := by
  have missing : (Kind.endOfFile = .newline || Kind.endOfFile = .comment ||
      Kind.endOfFile = closer) = false := by simpa using code.symm
  have starves : Starved j (do
      unless Kind.endOfFile = .newline || Kind.endOfFile = .comment || Kind.endOfFile = closer do
        refuse (.expectedToken closer.label)) := by
    rw [missing]
    exact .never (by simp)
  refine ⟨fun u => .bind (.accept ⟨by decide, by decide⟩) fun comma v _ => ?_,
    .accept (by decide) (.kind starves)⟩
  cases comma with
  | true => exact .pure
  | false =>
    refine .kind (fun k _ => ?_) (.inr starves)
    split
    · exact .pure
    · exact .never (by simp)

theorem continues_memberKey : Continues j memberKey := by
  refine .of_cons (.kind ?_) fun u open_ => ?_
  · exact Starved.never fun _ _ _ => not_reads_refuse (e := fun _ => rfl)
  · refine .looking open_ (fun _ _ _ => rfl) fun _ => ?_
    split
    · refine .bind (.member open_) fun _ _ _ => ?_
      split <;> exact .pure
    · split
      · exact .bind (.member open_) fun _ _ _ => .pure
      · exact .never (by simp)

theorem mirrors_memberAccess (e : Expr) (open_ : u ≠ []) : Mirrors j lost (memberAccess e) u := by
  refine .taking open_ (fun _ _ _ => rfl) fun _ _ => .kind (fun k open_ => ?_) (.inr ?_)
  · split
    · exact .bind (.memberName open_) fun _ _ _ => .pure
    · split
      iterate 4 exact .never (by simp [reads_bind])
      exact .never (by simp)
  · exact Starved.bind (p := report .expectedProperty _) (.never fun _ _ _ => not_reads_report)

theorem mirrors_binaryRound {operandAt : Nat → Parser Expr} (h : ∀ p, Continues j (operandAt p))
    (level : Nat) (left : Expr) : Mirrors j lost (binaryRound operandAt level left) u := by
  cases u with
  | cons t w =>
    refine .inspecting (fun _ => rfl) fun _ => ?_
    split
    · split
      · exact .advancing (.bind (h _).here fun _ _ _ => .pure)
      · exact .pure
    · exact .pure
  | nil =>
    refine .token_nil ?_ ?_
    · simp only [j.line_kind, j.file_kind, Kind.precedence?]
    · simp only [j.file_kind, Kind.precedence?]
      exact .pure

theorem mirrors_binaryRest {operandAt : Nat → Parser Expr} (h : ∀ p, Continues j (operandAt p))
    (level : Nat) (left : Expr) : Mirrors j lost (binaryRest operandAt level left) u :=
  .loop (fun _ _ => mirrors_binaryRound h level _) _ _

theorem continues_binary {operand : Parser Expr} (h : Continues j operand) (level : Nat) :
    Continues j (binary operand level) := by
  have from_ (depth : Nat) : ∀ level, Continues j (binaryFrom operand depth level) := by
    induction depth with
    | zero => exact fun _ => h
    | succ depth ih =>
      exact fun level => ⟨fun _ => .bind h.here fun left _ _ => mirrors_binaryRest ih level left,
        h.starved.bind⟩
  exact from_ tightestLevel level

/- Without a report it does nothing, and whether it reports is not up to the tokens. -/
theorem mirrors_markUnsupported {f : Unit → Parser β} (rest : Mirrors j lost (f ()) u) :
    Mirrors j lost (markUnsupported >>= f) u := by
  intro s b s' unmarked run
  obtain ⟨_, t, first, tail⟩ := reads_bind.mp run
  obtain rfl := first.markUnsupported_inv
  obtain ⟨u', suffix, left, mirrored⟩ := rest s b s' unmarked tail
  refine ⟨u', suffix, left, mirrored.imp id fun across => reads_bind.mpr ⟨(), _, ?_, across⟩⟩
  have supported : ¬ (s.mode = .brightScript && !s.discard) = true := by
    intro marks
    have reports : (j.before s u).markUnsupported = _ := if_pos marks
    rw [(reads_update.mp first).1] at reports
    exact (j.before s u).report_ne _ _ (congrArg (·.diagnostics) reports).symm
  exact reads_update.mpr ⟨if_neg supported, rfl⟩

theorem continues_close {closer : Kind} {construct : String} (code : Mirrors.Inner closer) :
    Continues j (close closer construct) := by
  refine ⟨fun u => .bind (.accept code) fun found _ _ => ?_,
    .accept code.file (.never (by simp))⟩
  cases found with
  | true => exact .pure
  | false => exact .never (by simp)

theorem mirrors_incrementStatement (target : Expr) (open_ : u ≠ []) :
    Mirrors j lost (incrementStatement target) u :=
  .taking open_ (fun _ _ _ => rfl) fun _ _ => .pure

theorem mirrors_callStatement (e : Expr) : Mirrors j lost (callStatement e) u := by
  unfold callStatement
  split
  · exact .pure
  · exact .never fun _ _ _ => not_reads_giveUp

theorem continues_closeFor : Continues j closeFor := by
  have closes : Continues j (close .endFor "for") := continues_close ⟨by decide, by decide⟩
  refine ⟨fun u => .bind (.accept ⟨by decide, by decide⟩) fun next _ _ => ?_,
    .accept (by decide) closes.starved⟩
  cases next with
  | true => exact .bind (.accept ⟨by decide, by decide⟩) fun _ _ _ => .pure
  | false => exact closes.here

theorem mirrors_gotoStatement (open_ : u ≠ []) : Mirrors j lost gotoStatement u :=
  .taking open_ (fun _ _ _ => rfl) fun _ _ =>
    .bind continues_declaredName.here fun _ _ _ => .pure

theorem mirrors_keywordStatement (stmt : Range → Stmt) (open_ : u ≠ []) :
    Mirrors j lost (keywordStatement stmt) u :=
  .taking open_ (fun _ _ _ => rfl) fun _ _ => .pure

theorem mirrors_labelStatement {t n : Token} {w : List Token} :
    Mirrors j lost labelStatement (t :: n :: w) :=
  .stepping (.takeIdent (List.cons_ne_nil t _)) (fun _ _ _ run => (reads_takeIdent.mp run).2.symm)
    fun _ => .advancing .pure

section

variable (h : ContinuesGrammar j g)
include h

theorem mirrors_codeRound (closers : List Kind) (open_ : u ≠ []) :
    Mirrors j lost (codeRound g closers) u := by
  obtain ⟨t, w, rfl⟩ := List.exists_cons_of_ne_nil open_
  refine .inspecting (fun s => ?_) fun s => ?_
  · cases w with
    | cons n w => rfl
    | nil =>
      have file : (j.before s [t]).kindAt 1 = .endOfFile := j.file_kind
      have line : (j.across s [t]).kindAt 1 = .newline := j.line_kind
      simp only [State.closes, file, line, Seam.kind_before, Seam.kind_across]
      rfl
  · split
    · exact .pure
    · exact .attempting h.statement.here fun st _ _ =>
        .bind mirrors_finishStatement fun _ _ _ => .pure

theorem mirrors_statementRound (closers : List Kind) (open_ : u ≠ []) :
    Mirrors j lost (statementRound g closers) u := by
  refine .looking open_ (fun _ _ _ => rfl) fun _ => ?_
  split
  · exact .bind (.advance open_) fun _ _ _ => .pure
  · exact .bind (.advance open_) fun _ _ _ => .pure
  · exact .pure
  · exact .bind (mirrors_commentRun open_) fun _ _ _ => .pure
  · exact mirrors_codeRound h closers open_

theorem mirrors_statements (closers : List Kind) : Mirrors j true (statements g closers) u := by
  refine .many (fun u => ?_) u
  by_cases open_ : u = []
  · subst open_
    refine .inspecting_nil fun s => ?_
    rw [j.kind_before_nil]
    exact .pure
  · exact mirrors_statementRound h closers open_

theorem mirrors_block (closers : List Kind) : Mirrors j true (block g closers) u := by
  have rest (start : Range) (v : List Token) : Mirrors j true (do
      let header ← trailingComment
      let stmts ← statements g closers
      pure (makeBlock start (header ++ stmts))) v :=
    .bind mirrors_trailingComment fun _ _ _ => .bind (mirrors_statements h closers) fun _ _ _ => .pure
  cases u with
  | nil => exact .inspecting_nil fun _ => rest _ _
  | cons t w => exact .inspecting (fun _ => rfl) fun _ => rest _ _

theorem continues_parameter : Continues j (parameter g) := by
  refine .of_cons (.ranged (Starved.bind continues_declaredName.starved)) fun u open_ =>
    .ranged open_ (.bind continues_declaredName.here fun name _ _ =>
      .bind (.accept ⟨by decide, by decide⟩) fun given _ _ => ?_)
  have rest (fallback : Option Expr) (v : List Token) : Mirrors j false (do
      let type ← asType .dynamic
      checkFallback fallback type
      pure fun range => (⟨name, type, fallback, range⟩ : Parameter Expr)) v :=
    .bind mirrors_asType fun _ _ _ => .bind mirrors_checkFallback fun _ _ _ => .pure
  cases given with
  | true => exact .bind (.map h.expression.here) fun _ _ _ => rest _ _
  | false => exact .bind .pure fun _ _ _ => rest _ _

theorem continues_parameterRound
    (seen : List (Parameter Expr) × Bool) : Continues j (parameterRound g seen) := by
  refine ⟨fun u => .bind (continues_parameter h).here fun p _ _ => ?_,
    (continues_parameter h).starved.bind⟩
  dsimp only
  split
  · exact .never (by simp [reads_bind])
  · exact .bind (.accept ⟨by decide, by decide⟩) fun more _ _ => by cases more <;> exact .pure

theorem mirrors_parameters : Mirrors j lost (parameters g) u := by
  have rest (params : List (Parameter Expr)) (v : List Token) : Mirrors j lost (do
      expect .rightParen
      pure params) v :=
    .bind (.expect ⟨by decide, by decide⟩) fun _ _ _ => .pure
  exact .isAt ⟨by decide, by decide⟩ (fun _ => .bind .pure fun _ _ _ => rest _ _)
    (.bind (.loop (fun x u => (continues_parameterRound h x).here) _ _) fun _ _ _ => rest _ _)

theorem mirrors_functionRest {first : Range} {isSub : Bool} :
    Mirrors j lost (functionRest g first isSub) u :=
  .spanned (.bind (.expect ⟨by decide, by decide⟩) fun _ _ _ =>
    .bind (mirrors_parameters h) fun _ _ _ => .bind mirrors_asType fun _ _ _ =>
      .bind_starved (.inFunction (mirrors_block h functionClosers))
        (fun _ _ _ => .bind continues_closeFunction.here fun _ _ _ => .pure)
        fun _ => continues_closeFunction.starved.bind)

theorem starved_argumentRound (args : List Expr) :
    Starved j (argumentRound g args) := h.expression.starved.bind

theorem mirrors_argumentRound (args : List Expr) : Mirrors j true (argumentRound g args) u := by
  refine .bind h.expression.here fun e _ _ => .bind (.skipWhile rfl) fun _ _ _ =>
    .bind (.accept ⟨by decide, by decide⟩) fun more _ _ => ?_
  cases more with
  | true => exact .bind (.skipWhile rfl) fun _ _ _ => .pure
  | false => exact .pure

theorem mirrors_arguments : Mirrors j lost (arguments g) u := by
  have close (args : List Expr) (v : List Token) : Mirrors j lost (do
      expect .rightParen
      pure args) v :=
    .bind (.expect ⟨by decide, by decide⟩) fun _ _ _ => .pure
  have starves (args : List Expr) : Starved j (do
      expect .rightParen
      pure args) := Starved.bind (.expect (by decide))
  refine .bind_starved (.skipWhile rfl) (fun _ v _ => ?_) fun _ => ?_
  · exact .isAt ⟨by decide, by decide⟩ (fun _ => .bind .pure fun _ _ _ => close _ _)
      (.bind_starved (.loop (fun x u => mirrors_argumentRound h x) _ _) (fun _ _ _ => close _ _)
        starves)
  · exact .isAt (by decide) (.bind (.loop (starved_argumentRound h [])))

theorem mirrors_elementRound : Mirrors j lost (elementRound g) u := by
  refine .bind_starved (.skipWhile rfl) (fun _ v _ => ?_) fun _ =>
    .isAt (by decide) (.bind h.expression.starved)
  exact .isAt ⟨by decide, by decide⟩ (fun _ => .pure) (.bind h.expression.here fun _ _ _ =>
    .bind (continues_separator (by decide)).here fun _ _ _ => .pure)

theorem mirrors_arrayLiteral (open_ : u ≠ []) : Mirrors j lost (arrayLiteral g) u :=
  .ranged open_ (.bind (.advance open_) fun _ _ _ =>
    .bind (.many (fun _ => mirrors_elementRound h) _) fun _ _ _ =>
      .bind (.expect ⟨by decide, by decide⟩) fun _ _ _ => .pure)

theorem mirrors_memberRound : Mirrors j lost (memberRound g) u := by
  refine .bind_starved (.skipWhile rfl) (fun _ v _ => .kind (fun k open_ => ?_) (.inr ?_))
    fun _ => .kind ?_
  rotate_left
  iterate 2 exact .inspect fun s => Starved.bind continues_memberKey.starved s
  split
  · exact .pure
  split
  · exact .bind (mirrors_comment open_) fun _ _ _ => .pure
  · exact .looking open_ (fun _ _ _ => rfl) fun _ => .bind continues_memberKey.here fun _ _ _ =>
      .bind (.expect ⟨by decide, by decide⟩) fun _ _ _ => .bind h.expression.here fun _ _ _ =>
        .bind (continues_separator (by decide)).here fun _ _ _ => .pure

theorem mirrors_assocLiteral (open_ : u ≠ []) : Mirrors j lost (assocLiteral g) u :=
  .ranged open_ (.bind (.advance open_) fun _ _ _ =>
    .bind (.many (fun _ => mirrors_memberRound h) _) fun _ _ _ =>
      .bind (.expect ⟨by decide, by decide⟩) fun _ _ _ => .pure)

theorem mirrors_grouping (open_ : u ≠ []) : Mirrors j lost (grouping g) u :=
  .ranged open_ (.bind (.advance open_) fun _ _ _ => .bind h.expression.here fun _ _ _ =>
    .bind (.expect ⟨by decide, by decide⟩) fun _ _ _ => .pure)

theorem mirrors_anonymousFunction (open_ : u ≠ []) : Mirrors j lost (anonymousFunction g) u :=
  .taking open_ (fun _ _ _ => rfl) fun _ _ =>
    .bind (mirrors_functionRest h) fun _ _ _ => .pure

theorem continues_primary : Continues j (primary g) := by
  refine .of_cons (.token fun t file => ?_) fun u open_ => ?_
  · simp only [file]
    exact Starved.never fun _ _ _ => not_reads_refuse (e := fun _ => rfl)
  · refine .looking open_ (fun _ _ _ => rfl) fun _ => ?_
    split
    · exact .map (.takeIdent open_)
    · exact mirrors_grouping h open_
    · exact mirrors_arrayLiteral h open_
    · exact mirrors_assocLiteral h open_
    · exact mirrors_anonymousFunction h open_
    · exact mirrors_anonymousFunction h open_
    · split
      · exact .bind (.advance open_) fun _ _ _ => .pure
      · exact .never (by simp)

theorem mirrors_accessRound (e : Expr) : Mirrors j lost (accessRound g e) u := by
  refine .kind (fun k open_ => ?_) (.inl ⟨rfl, .pure⟩)
  split
  · exact .map (.spanned (.bind (.advance open_) fun _ _ _ =>
      .bind (mirrors_arguments h) fun _ _ _ => .pure))
  · exact mirrors_memberAccess e open_
  · exact .map (.spanned (.bind (.advance open_) fun _ _ _ => .bind h.expression.here fun _ _ _ =>
      .bind (.expect ⟨by decide, by decide⟩) fun _ _ _ => .pure))
  · exact .pure

theorem continues_accessed : Continues j (accessed g) :=
  ⟨fun _ => .bind (continues_primary h).here fun _ _ _ =>
    .loop (fun _ _ => mirrors_accessRound h _) _ _, (continues_primary h).starved.bind⟩

theorem mirrors_prefixed (open_ : u ≠ []) : Mirrors j lost (prefixed g) u := by
  refine .taking open_ (fun _ _ _ => rfl) fun _ _ => .bind ?_ fun _ _ _ => .pure
  unfold prefixOperand
  split
  · exact (continues_binary h.operand notLevel).here
  · exact h.operand.here

theorem continues_operand : Continues j (operand g) := by
  have starves : Starved j (if isPrefixOperator .endOfFile then nested (prefixed g) else accessed g) :=
    (continues_accessed h).starved
  refine ⟨fun u => .kind (fun k open_ => ?_) (.inr starves), .kind starves⟩
  split
  · exact .nested (mirrors_prefixed h open_)
  · exact (continues_accessed h).here

theorem mirrors_conditionalRest (test : Expr) : Mirrors j lost (conditionalRest g test) u :=
  .isAt ⟨by decide, by decide⟩ (fun open_ => mirrors_markUnsupported
    (.bind (.advance open_) fun _ _ _ => .bind h.expression.here fun _ _ _ =>
      .bind (.expect ⟨by decide, by decide⟩) fun _ _ _ =>
        .bind h.expression.here fun _ _ _ => .pure)) .pure

theorem continues_expression : Continues j (expression g) :=
  have test := continues_binary (continues_operand h) conditionalLevel
  ⟨fun _ => .nested (.bind test.here fun _ _ _ => mirrors_conditionalRest h _),
    .nested test.starved.bind⟩

theorem mirrors_assignedValue (open_ : u ≠ []) : Mirrors j lost (assignedValue g) u :=
  .taking open_ (fun _ _ _ => rfl) fun _ _ =>
    .bind h.expression.here fun _ _ _ => .pure

theorem mirrors_setStatement (target : Expr) (open_ : u ≠ []) :
    Mirrors j lost (setStatement g target) u := by
  unfold setStatement
  split
  iterate 3 exact .bind (mirrors_assignedValue h open_) fun _ _ _ => .pure
  exact .never (by simp)

theorem continues_expressionStatement : Continues j (expressionStatement g) := by
  have operands := continues_operand h
  refine ⟨fun u => .bind operands.here fun left v _ => ?_, operands.starved.bind⟩
  refine .kind (fun k open_ => ?_) (.inl ⟨rfl, mirrors_callStatement left⟩)
  split
  · exact mirrors_setStatement h left open_
  split
  · exact mirrors_incrementStatement left open_
  split
  · exact .bind (mirrors_binaryRest (continues_binary operands) conditionalLevel left) fun _ _ _ =>
      .bind (mirrors_conditionalRest h _) fun _ _ _ => mirrors_callStatement _
  · exact mirrors_callStatement left

theorem mirrors_printRound : Mirrors j lost (printRound g) u := by
  refine .kind (fun k open_ => ?_) (.inl ⟨rfl, .pure⟩)
  split
  · exact .pure
  split
  · exact .bind (.advance open_) fun _ _ _ => .pure
  · exact .bind h.expression.here fun _ _ _ => .pure

theorem mirrors_printStatement (open_ : u ≠ []) : Mirrors j lost (printStatement g) u :=
  .ranged open_ (.bind (.advance open_) fun _ _ _ =>
    .bind (.many (fun _ => mirrors_printRound h) _) fun _ _ _ => .pure)

theorem mirrors_returnStatement (open_ : u ≠ []) : Mirrors j lost (returnStatement g) u := by
  refine .ranged open_ (.bind (.advance open_) fun _ _ _ =>
    .kind (fun k open_ => ?_) (.inl ⟨rfl, .bind .pure fun _ _ _ => .pure⟩))
  split
  · exact .bind .pure fun _ _ _ => .pure
  · exact .bind (.map h.expression.here) fun _ _ _ => .pure

/- The branches of a block may reach the end of the file, those of a single line stop before it. -/
theorem mirrors_ifBranches {b : Branches} (body : ∀ u, Mirrors j lost b.body u)
    (lastBody : ∀ u, Mirrors j lost b.lastBody u) : Mirrors j lost (ifBranches g b) u := by
  have round (u : List Token) : Mirrors j lost (elseIfRound g b) u :=
    .isAt ⟨by decide, by decide⟩ (fun open_ => .bind (.ranged open_ (.bind (.advance open_)
      fun _ _ _ => .bind h.expression.here fun _ _ _ =>
        .bind (.accept ⟨by decide, by decide⟩) fun _ _ _ => .bind (body _) fun _ _ _ => .pure))
      fun _ _ _ => .pure) .pure
  refine .bind (body u) fun _ _ _ => .bind (.many round _) fun _ _ _ =>
    .bind (.accept ⟨by decide, by decide⟩) fun more _ _ => ?_
  cases more with
  | true => exact .bind (.map (lastBody _)) fun _ _ _ => .pure
  | false => exact .bind .pure fun _ _ _ => .pure

theorem mirrors_inlineRound (stmts : List Stmt) : Mirrors j lost (inlineRound g stmts) u := by
  refine .bind h.statement.here fun _ _ _ =>
    .bind (.accept ⟨by decide, by decide⟩) fun more _ _ => ?_
  cases more with
  | true =>
    refine .kind (fun k _ => ?_) (.inl ⟨rfl, .pure⟩)
    split <;> exact .pure
  | false => exact .pure

theorem continues_inlineBlock : Continues j (inlineBlock g) := by
  refine .of_cons (.inspect fun s => Starved.bind (.loop h.statement.starved.bind) s)
    fun u open_ => .looking open_ (fun _ _ _ => rfl) fun _ =>
    .bind (.loop (fun _ _ => mirrors_inlineRound h _) _ _) fun _ _ _ => .pure

theorem mirrors_inlineIf (condition : Expr) : Mirrors j lost (inlineIf g condition) u :=
  .bind (.withCleanup (mirrors_ifBranches h (fun _ => (continues_inlineBlock h).here)
    fun _ => (continues_inlineBlock h).here)) fun _ _ _ => .pure

theorem mirrors_blockIf (condition : Expr) : Mirrors j lost (blockIf g condition) u :=
  have closes : Continues j (close .endIf "if") := continues_close ⟨by decide, by decide⟩
  .bind_starved (mirrors_ifBranches h (fun _ => mirrors_block h _) fun _ => mirrors_block h _)
    (fun _ _ _ => .bind closes.here fun _ _ _ => .pure) fun _ => closes.starved.bind

theorem mirrors_ifStatement (open_ : u ≠ []) : Mirrors j lost (ifStatement g) u := by
  refine .ranged open_ (.bind (.advance open_) fun _ _ _ => .bind h.expression.here fun _ _ _ =>
    .bind (.accept ⟨by decide, by decide⟩) fun _ _ _ =>
      .kind (fun k _ => ?_) (.inl ⟨rfl, mirrors_blockIf h _⟩))
  split
  · exact mirrors_blockIf h _
  · exact mirrors_inlineIf h _

theorem mirrors_whileStatement (open_ : u ≠ []) : Mirrors j lost (whileStatement g) u :=
  have closes : Continues j (close .endWhile "while") := continues_close ⟨by decide, by decide⟩
  .ranged open_ (.bind (.advance open_) fun _ _ _ => .bind h.expression.here fun _ _ _ =>
    .bind_starved (mirrors_block h _) (fun _ _ _ => .bind closes.here fun _ _ _ => .pure)
      fun _ => closes.starved.bind)

theorem mirrors_forBody (node : Block Stmt → Range → Stmt) :
    Mirrors j lost (do
      let body ← block g forClosers
      closeFor
      pure (node body)) u :=
  .bind_starved (mirrors_block h _) (fun _ _ _ => .bind continues_closeFor.here fun _ _ _ => .pure)
    fun _ => continues_closeFor.starved.bind

theorem mirrors_forStatement (open_ : u ≠ []) : Mirrors j lost (forStatement g) u := by
  refine .ranged open_ (.bind (.advance open_) fun _ _ _ =>
    .bind (.accept ⟨by decide, by decide⟩) fun each _ _ => ?_)
  cases each with
  | true =>
    exact .bind continues_declaredName.here fun item _ _ => .atName
      (fun open_ => .bind (.advance open_) fun _ _ _ => .bind h.expression.here fun target _ _ =>
        mirrors_forBody h (.forEach item target))
      (.never (by simp))
  | false =>
    refine .bind continues_declaredName.here fun counter _ _ =>
      .bind (.expect ⟨by decide, by decide⟩) fun _ _ _ => .bind h.expression.here fun first _ _ =>
        .bind (.expect ⟨by decide, by decide⟩) fun _ _ _ => .bind h.expression.here fun last _ _ =>
          .bind (.accept ⟨by decide, by decide⟩) fun stepped _ _ => ?_
    cases stepped with
    | true =>
      exact .bind (.map h.expression.here) fun step _ _ =>
        mirrors_forBody h (.forLoop counter first last step)
    | false => exact .bind .pure fun step _ _ => mirrors_forBody h (.forLoop counter first last step)

theorem mirrors_functionDeclaration (open_ : u ≠ []) : Mirrors j lost (functionDeclaration g) u :=
  .taking open_ (fun _ _ _ => rfl) fun _ _ => .bind continues_declaredName.here
    fun _ _ _ => .bind (mirrors_functionRest h) fun _ _ _ => .pure

theorem mirrors_assignment {t n : Token} {w : List Token} :
    Mirrors j lost (assignment g) (t :: n :: w) :=
  .stepping (continues_declaredName.mirrors _) (fun _ _ _ run => run.declaredName_inv.2.2.2)
    fun _ => .bind (mirrors_assignedValue h (List.cons_ne_nil n w)) fun _ _ _ => .pure

theorem mirrors_statementBody (open_ : u ≠ []) : Mirrors j lost (statementBody g) u := by
  obtain ⟨t, w, rfl⟩ := List.exists_cons_of_ne_nil open_
  have file (s : State) : (j.before s [t]).kindAt 1 = .endOfFile := j.file_kind
  have line (s : State) : (j.across s [t]).kindAt 1 = .newline := j.line_kind
  refine .inspecting (fun s => ?_) fun s => ?_
  · cases w with
    | cons n w => rfl
    | nil =>
      simp only [State.atTarget, file, line]
      rfl
  split
  · rename_i target
    cases w with
    | cons n w => exact mirrors_assignment h
    | nil => simp [State.atTarget, file, Kind.isAssignment] at target
  refine .inspecting (fun s => ?_) fun s => ?_
  · rcases w with _ | ⟨n, _ | ⟨m, w⟩⟩
    · simp [State.atLabel, file, line]
    · have file : (j.before s [t, n]).kindAt 2 = .endOfFile := j.file_kind
      have line : (j.across s [t, n]).kindAt 2 = .newline := j.line_kind
      simp only [State.atLabel, file, line]
      rfl
    · rfl
  split
  · rename_i label
    cases w with
    | cons n w => exact mirrors_labelStatement
    | nil => simp [State.atLabel, file] at label
  refine .inspecting (fun _ => rfl) fun _ => ?_
  unfold byKeyword
  split
  · exact mirrors_ifStatement h open_
  · exact mirrors_whileStatement h open_
  · exact mirrors_forStatement h open_
  · exact mirrors_functionDeclaration h open_
  · exact mirrors_functionDeclaration h open_
  · exact mirrors_returnStatement h open_
  · exact mirrors_printStatement h open_
  · exact mirrors_printStatement h open_
  · exact mirrors_gotoStatement open_
  iterate 4 exact mirrors_keywordStatement _ open_
  split
  · exact .never (by simp)
  · exact (continues_expressionStatement h).here

theorem starved_statementBody : Starved j (statementBody g) := by
  refine .inspect fun s b s' run => ?_
  have target : (j.before s []).atTarget = false := by
    rw [State.atTarget, j.kind_before_nil]
    rfl
  have label : (j.before s []).atLabel = false := by
    rw [State.atLabel, j.kind_before_nil]
    rfl
  simp only [target, Bool.false_eq_true, if_false] at run
  obtain ⟨_, _, first, run⟩ := reads_bind.mp run
  obtain ⟨rfl, rfl⟩ := reads_inspect.mp first
  simp only [label, Bool.false_eq_true, if_false] at run
  exact Starved.kind (continues_expressionStatement h).starved s b s' run

end

theorem continuesGrammar_unroll (n : Nat) : ContinuesGrammar j (unroll n) := by
  induction n with
  | zero =>
    have never {α : Type} : Continues j (tooDeep : Parser α) :=
      ⟨fun _ => .never fun _ _ _ => not_reads_tooDeep, .never fun _ _ _ => not_reads_tooDeep⟩
    exact ⟨never, never, never⟩
  | succ n ih =>
    refine ⟨continues_expression ih, continues_operand ih, ?_⟩
    exact .of_cons (.nested (.droppable (starved_statementBody ih))) fun u open_ =>
      .nested (.droppable (mirrors_statementBody ih open_))

end BrightScript.Parser
