import BrightScript.Parser
import BrightScript.Proofs.Parser.Verge

/-! The grammar stays in front of a verge.
Only a line break stands right before the end of a function. So a routine that has just taken
anything else is not there yet, and the few that may be there take nothing. Where a token is taken
without a look at it, what led there has seen that it is not the verge, and what may go on past a
line break is not met in front of one. -/
namespace BrightScript.Parser

/-- The routines one level further in stay in front of the verge. An expression may be tried right
at the end of a function, where there is none. -/
structure Sheltered (v : Verge) (g : Grammar) : Prop where
  expression : Confined v (fun _ => True) g.expression fun _ => v.Open
  operand : Confined v (fun _ => True) g.operand fun _ => v.Open
  statement : Confined v v.Open g.statement fun _ _ => True

namespace Sheltered

variable {v : Verge} {g : Grammar} {pre : List Token → Prop}

theorem comment : Confined v (· ≠ []) Parser.comment fun _ _ => True :=
  .token (fun _ => id) fun _ => .bind (.from_ .advance_any fun _ _ at_ => at_.1) fun _ =>
    .pure fun _ => id

/- The lines below a comment end before the verge. -/
theorem followingComments_append (v : Verge) (range : Range) (u : List Token) :
    ∃ more, 2 * more.length ≤ u.length ∧ ∀ after finish, v.Meets after finish →
      followingComments range (u ++ after) = more := by
  fun_induction followingComments range u with
  | case1 range n t rest follows ih =>
    obtain ⟨more, fits, same⟩ := ih
    refine ⟨t :: more, by simp; omega, fun after finish meets => ?_⟩
    simp only [List.cons_append, followingComments, follows, if_true, same after finish meets]
  | case2 range n t rest stops =>
    refine ⟨[], Nat.zero_le _, fun after finish _ => ?_⟩
    simp only [List.cons_append, followingComments, stops, Bool.false_eq_true, if_false]
  | case3 u range short =>
    refine ⟨[], Nat.zero_le _, fun after finish meets => ?_⟩
    have code : v.token.kind ≠ .comment := by
      rcases v.sort with sort | sort | sort <;> rw [sort] <;> decide
    have seen := meets.kind
    match u, after with
    | n :: t :: rest, _ => exact (short n t rest rfl).elim
    | [n], [] => rfl
    | [n], t :: after =>
      rw [← show t.kind = v.token.kind from seen] at code
      simp [followingComments, code]
    | [], [] => rfl
    | [], [n] => rfl
    | [], n :: t :: after =>
      have apart : n.kind = .newline → t.kind ≠ .comment :=
        fun line => meets.code (seen.symm.trans line) t rfl
      simp +contextual [followingComments, apart]

theorem commentRun : Confined v (· ≠ []) commentRun fun _ _ => True := by
  have lines (range : Range) : Confined v (fun _ => True)
      (inspect fun s => followingComments range s.rest.items)
      fun more u => 2 * more.length ≤ u.length :=
    .inspect fun s u _ _ _ => followingComments_append v range u
  have take (n : Nat) : Confined v (n ≤ ·.length) (take n) fun _ _ => True := by
    refine .update fun s u fits => ⟨s, u.drop n, List.drop_suffix _ u, trivial, ?_⟩
    intro after finish _
    have split := s.drop_upTo (u.take n) (u.drop n) after finish
    rwa [List.take_append_drop, List.length_take_of_le fits] at split
  exact .bind comment fun first => .bind (lines first.range) fun more => .bind (take _) fun _ =>
    .pure fun _ => id

theorem trailingComment : Confined v pre trailingComment fun _ _ => True := by
  refine .bind .isAt fun b => ?_
  cases b with
  | true =>
    exact .bind (comment.from_ fun u _ at_ => (v.code_at (at_.2.mp rfl).symm rfl).1) fun _ =>
      .pure fun _ => id
  | false => exact .done

theorem synchronize : Confined v pre synchronize fun _ _ => True :=
  .skipWhile (by rcases v.sort with sort | sort | sort <;> rw [sort] <;> rfl)

theorem synchronizeInlineIf : Confined v pre synchronizeInlineIf fun _ _ => True :=
  .skipWhile (by rcases v.sort with sort | sort | sort <;> rw [sort] <;> rfl)

theorem finishStatement (st : Stmt) :
    Confined v (fun _ => True) (finishStatement st) fun _ _ => True := by
  refine .bind trailingComment fun _ => .bind .kind fun k => ?_
  split
  · exact .done
  · rename_i goesOn
    refine .bind .reportHere fun _ => .bind (.from_ .advance_any fun u _ at_ => ?_) fun _ => ?_
    · rw [at_.2] at goesOn
      exact (v.code_of (f := fun k => !(k.isSeparator || closesBlock k)) (by simpa using goesOn)
        rfl rfl rfl).1
    · dsimp only
      split
      · exact .bind synchronizeInlineIf fun _ => .done
      · exact .bind synchronize fun _ => .done

theorem closes (closers : List Kind) :
    Confined v (fun u => v.kind u ≠ .newline ∧ v.kind u ≠ .endOfFile)
      (inspect (State.closes · closers))
      fun b u => bif b then v.token.kind = .endSub → v.kind u ∈ closers ∨ u = [] else u ≠ [] := by
  refine .inspect fun s u inside spans code => ⟨(closers.contains (v.kind u) ||
    (0 < s.functions && closesFunction (v.kind u))) && !(v.kind u.tail).isAssignment, ?_, ?_⟩
  · cases u with
    | nil =>
      rcases v.sort with sort | sort | sort
      · exact absurd sort code.1
      · exact absurd sort code.2
      · simp [Verge.kind, sort, inside sort, closesFunction, Kind.isAssignment]
    | cons t w =>
      generalize closing : (_ && _ : Bool) = b
      cases b with
      | false => exact List.cons_ne_nil t w
      | true =>
        intro sub
        have inner : closesFunction t.kind = false := by
          have := (spans.body sub).kinds t List.mem_cons_self
          cases kind : t.kind <;> simp [kind, Kind.isLocal, closesFunction] at this ⊢
        obtain ⟨own, -⟩ := Bool.and_eq_true_iff.mp closing
        exact .inl (by simpa [Verge.kind, inner] using own)
  · intro after finish meets
    cases u with
    | nil =>
      rcases v.sort with sort | sort | sort
      · exact absurd sort code.1
      · exact absurd sort code.2
      · obtain ⟨line, more, rfl, newline⟩ := meets.closer sort
        have next : (s.upTo [] (v.token :: line :: more) finish).kindAt 1 = .newline := newline
        rw [State.closes, next, meets.kind_upTo]
        simp [Verge.kind, sort, Kind.isAssignment]
        rfl
    | cons t w =>
      have next : (s.upTo (t :: w) after finish).kindAt 1 = _ := meets.kindAt s [t] w
      rw [State.closes, next]
      rfl

theorem declaredName {P : List Token → Prop} :
    Confined v (fun u => v.Open u ∧ (u ≠ [] → v.kind u ≠ .newline → P u.tail)) declaredName
      fun _ => P := by
  refine .bind .kind fun k => ?_
  split
  · rename_i word
    refine .bind (.from_ (.takeIdent (P := P)) fun u _ at_ => ?_) fun name => ?_
    · rw [at_.2] at word
      have code := at_.1.1.code word rfl rfl
      exact ⟨code.1, at_.1.2 code.1 code.2⟩
    · split
      · exact .bind .report fun _ => .pure fun _ => id
      · split
        · exact .bind .report fun _ => .pure fun _ => id
        · exact .pure fun _ => id
  · exact .refuse

theorem declaredName_open : Confined v v.Open Parser.declaredName fun _ => v.Open :=
  declaredName.from_ fun _ spans open_ => ⟨open_, spans.open_tail⟩

theorem checkFallback {fallback : Option Expr} {type : Ty} :
    Confined v (fun _ => True) (checkFallback fallback type) fun _ _ => True := by
  unfold Parser.checkFallback
  split
  · split
    · exact .report
    · exact .pure fun _ => id
  · exact .pure fun _ => id

theorem separator {closer : Kind} : Confined v pre (separator closer) fun _ _ => True := by
  refine .bind (.accept rfl) fun b => ?_
  cases b with
  | true => exact .done
  | false =>
    refine .bind .kind fun k => ?_
    split
    · exact .done
    · exact .refuse

theorem memberAccess (e : Expr) :
    Confined v (.dot = v.kind ·) (memberAccess e)
      fun r u => r.Holds (fun _ => v.Open u) fun _ => v.Open u := by
  refine .bind .here fun _ => .bind (.advance_at rfl) fun _ => .bind .kind fun k => ?_
  split
  · rename_i word
    refine .bind (.from_ .memberName fun u spans at_ => ?_) fun _ => .pure fun _ => id
    rw [at_.2] at word
    have code := at_.1.code word rfl rfl
    exact ⟨code.1, spans.open_tail code.1 code.2⟩
  · split
    iterate 4 exact .bind .report fun _ => .pure fun _ at_ => at_.1
    exact .refuseAt

theorem binaryRest {operandAt : Nat → Parser Expr}
    (h : ∀ level, Confined v (fun _ => True) (operandAt level) fun _ => v.Open) (level : Nat)
    (left : Expr) : Confined v v.Open (binaryRest operandAt level left) fun _ => v.Open := by
  refine .loop (I := fun _ => v.Open) (fun left => .seeing (fun _ t same => ?_) fun t => ?_) left
  · rcases v.sort with sort | sort | sort <;> simp only [same, sort] <;> rfl
  split
  · rename_i operator
    split
    · refine .bind (.from_ .advance_any fun u _ at_ => ?_) fun _ => .bind (h _) fun _ =>
        .pure fun _ => id
      rw [at_.2] at operator
      exact (v.code_of (f := fun k => k.precedence?.isSome)
        (Option.isSome_iff_exists.mpr ⟨_, operator⟩) rfl rfl rfl).1
    · exact .pure fun _ at_ => at_.1
  · exact .pure fun _ at_ => at_.1

theorem binary {operand : Parser Expr} (h : Confined v (fun _ => True) operand fun _ => v.Open)
    (level : Nat) : Confined v (fun _ => True) (binary operand level) fun _ => v.Open := by
  have from_ : ∀ depth level,
      Confined v (fun _ => True) (binaryFrom operand depth level) fun _ => v.Open := by
    intro depth
    induction depth with
    | zero => exact fun _ => h
    | succ depth ih => exact fun level => .bind h fun left => binaryRest ih level left
  exact from_ _ level

theorem markUnsupported : Confined v pre markUnsupported fun _ => pre := by
  refine .update fun s u holds => ?_
  by_cases marks : (s.mode = .brightScript && !s.discard) = true
  · let problem := Problem.unsupportedFeature "ternary operator"
    refine ⟨(s.report problem (u.headD v.token).range).withDiscard true, u, List.suffix_refl u,
      holds, fun after finish meets => (if_pos marks).trans ?_⟩
    exact congrArg (·.withDiscard true) (Confined.report_upTo (fun _ => problem) s u meets)
  · exact ⟨s, u, List.suffix_refl u, holds, fun _ _ _ => if_neg marks⟩

theorem callStatement (e : Expr) : Confined v pre (callStatement e) fun _ _ => True := by
  unfold Parser.callStatement
  split
  · exact .done
  · refine .giveUp fun s u _ => ⟨s.missCall e.range, u, List.suffix_refl u, fun _ _ _ => ?_⟩
    unfold State.missCall
    change (if s.discard then _ else _) = _
    split <;> rfl

theorem close {closer : Kind} {construct : String} (inner : Verge.ends closer = false) :
    Confined v pre (close closer construct) fun _ _ => True := by
  refine .bind (.accept inner) fun b => ?_
  cases b with
  | true => exact .done
  | false =>
    have missing : Confined v pre (reportHere fun _ => .unclosed closer.label construct)
        fun _ _ => True := .any .reportHere
    exact missing

theorem closeFor : Confined v (fun _ => True) closeFor fun _ _ => True := by
  refine .bind (.accept rfl) fun b => ?_
  cases b with
  | true => exact .bind (.accept rfl) fun _ => .done
  | false => exact close rfl

theorem keywordStatement (stmt : Range → Stmt) :
    Confined v (· ≠ []) (keywordStatement stmt) fun _ _ => True :=
  .bind .here fun _ => .bind .advance_any fun _ => .pure fun _ => id

theorem gotoStatement : Confined v (.goto = v.kind ·) gotoStatement fun _ _ => True :=
  .bind .here fun _ => .bind (.advance_at rfl) fun _ => .bind declaredName_open fun _ =>
    .done

/- A target and a label are two tokens in front of the verge. -/
theorem atTarget : Confined v v.Open (inspect State.atTarget)
    fun b u => v.Open u ∧ (b = true → u.tail ≠ []) := by
  refine .inspect fun s u _ _ open_ => ?_
  refine ⟨(v.kind u).isWord && (v.kind u.tail).isAssignment, ⟨open_, fun at_ => ?_⟩,
    fun after finish meets => ?_⟩
  · exact (v.code_of (Bool.and_eq_true_iff.mp at_).2 rfl rfl rfl).1
  · rw [State.atTarget, meets.kind_upTo]
    cases u with
    | nil =>
      rcases v.sort with sort | sort | sort
      · simp only [Verge.kind, List.headD_nil, sort]
        rfl
      · simp only [Verge.kind, List.headD_nil, sort]
        rfl
      · exact absurd rfl (open_ sort)
    | cons t w =>
      rw [show (s.upTo (t :: w) after finish).kindAt 1 = _ from meets.kindAt s [t] w]
      rfl

theorem atLabel : Confined v v.Open (inspect State.atLabel)
    fun b u => v.Open u ∧ (b = true → u ≠ [] ∧ u.tail ≠ []) := by
  refine .inspect fun s u _ _ open_ => ?_
  refine ⟨decide (v.kind u = .identifier) && decide (v.kind u.tail = .colon) &&
    (decide (v.kind u.tail.tail = .newline) || decide (v.kind u.tail.tail = .endOfFile) ||
      decide (v.kind u.tail.tail = .comment)), ⟨open_, fun at_ => ?_⟩, fun after finish meets => ?_⟩
  · simp only [Bool.and_eq_true, decide_eq_true_eq] at at_
    exact ⟨(v.code_at at_.1.1.symm rfl).1, (v.code_at at_.1.2.symm rfl).1⟩
  · rw [State.atLabel, meets.kind_upTo]
    match u with
    | [] => rcases v.sort with sort | sort | sort <;> simp [Verge.kind, sort]
    | [t] =>
      rw [show (s.upTo [t] after finish).kindAt 1 = _ from meets.kindAt s [t] []]
      rcases v.sort with sort | sort | sort <;> simp [Verge.kind, sort]
    | t :: n :: w =>
      rw [show (s.upTo (t :: n :: w) after finish).kindAt 2 = _ from meets.kindAt s [t, n] w]
      rfl

section File

variable (file : v.token.kind = .endOfFile)
include file

theorem typeName : Confined v pre typeName fun _ _ => True := by
  refine .seeing (fun _ t same => by simp only [same, file]; rfl) fun t => ?_
  split
  · rename_i word
    refine .bind (.from_ .advance_any fun u _ at_ => ?_) fun _ => ?_
    · rintro rfl
      rw [at_.2, List.headD_nil, file] at word
      cases word
    · split
      · exact .pure fun _ => id
      · exact .bind .report fun _ => .pure fun _ => id
  · exact .refuse

theorem asType {missing : Ty} : Confined v pre (asType missing) fun _ _ => True := by
  refine .bind .atName fun b => ?_
  cases b with
  | true =>
    exact .bind (.from_ .advance_any fun u _ at_ => at_.2 rfl) fun _ => typeName file
  | false => exact .done

theorem closeFunction {isSub : Bool} : Confined v pre (closeFunction isSub) fun _ _ => True := by
  refine .bind .kind fun k => ?_
  have taken : Confined v (fun u => pre u ∧ k = v.kind u)
      (if closesFunction k then advance else pure ()) fun _ _ => True := by
    split
    · rename_i closes
      refine .from_ .advance_any fun u _ at_ => ?_
      rintro rfl
      rw [at_.2, Verge.kind, List.headD_nil, file] at closes
      cases closes
    · exact .done
  dsimp only
  split <;> split
  · exact taken
  · exact .bind .reportHere fun _ => taken
  · exact taken
  · exact .bind .reportHere fun _ => taken

theorem memberKey : Confined v (fun _ => True) memberKey fun _ _ => True := by
  refine .bind .kind fun k => ?_
  have taken {f : Kind → Bool} (holds : f k = true) (other : f .endOfFile = false) :
      Confined v (fun u => True ∧ k = v.kind u) member fun _ _ => True := by
    refine Confined.member.from_ fun u _ at_ => ⟨?_, trivial⟩
    rintro rfl
    rw [at_.2, Verge.kind, List.headD_nil, file, other] at holds
    cases holds
  split
  · rename_i string
    refine .bind (taken (f := fun k => decide (k = .stringLiteral)) (decide_eq_true string) rfl)
      fun _ => ?_
    split <;> exact .pure fun _ => id
  · split
    · rename_i word
      exact .bind (taken word rfl) fun _ => .pure fun _ => id
    · exact .refuse

end File

section

variable (h : Sheltered v g)
include h

theorem codeRound (closers : List Kind) :
    Confined v (fun u => v.kind u ≠ .newline ∧ v.kind u ≠ .endOfFile) (codeRound g closers)
      fun r u => if r = none then v.token.kind = .endSub → v.kind u ∈ closers ∨ u = []
        else True := by
  refine .bind (closes closers) fun b => ?_
  cases b with
  | true => exact .pure fun _ at_ => by simpa using at_
  | false =>
    have attempt : Confined v (· ≠ []) (attemptPast g.statement) fun _ _ => True :=
      .attemptPast (h.statement.from_ fun u _ open_ _ => open_) fun _ => id
    refine .bind attempt fun r => ?_
    cases r with
    | some st => exact .bind (finishStatement st) fun _ => .pure fun _ _ => by simp
    | none => exact .bind synchronize fun _ => .pure fun _ _ => by simp

theorem statementRound (closers : List Kind) :
    Confined v (fun u => v.token.kind = .newline → u ≠ []) (statementRound g closers)
      fun r u => if r = none then v.token.kind = .endSub → v.kind u ∈ closers ∨ u = []
        else True := by
  refine .bind .kind fun k => ?_
  split
  · refine .bind (.from_ .advance_any fun u _ at_ => ?_) fun _ => .pure fun _ _ => by simp
    rintro rfl
    exact at_.1 at_.2.symm rfl
  · exact .bind (.from_ .advance_any fun u _ at_ => (v.code_at at_.2 rfl).1) fun _ =>
      .pure fun _ _ => by simp
  · refine .given (P := v.token.kind ≠ .endSub) (fun u spans at_ sub => ?_) fun other => ?_
    · rcases spans.kind_cases sub with inside | rfl
      · rw [← at_.2] at inside
        cases inside
      · cases at_.2.trans sub
    · exact .pure fun _ _ => by simp [other]
  · exact .bind (commentRun.from_ fun u _ at_ => (v.code_at at_.2 rfl).1) fun _ =>
      .pure fun _ _ => by simp
  · rename_i noLine noColon noFile noComment
    refine (h.codeRound closers).from_ fun u _ at_ => ?_
    rw [← at_.2]
    exact ⟨noLine, noFile⟩

theorem statements (many : v.token.kind ≠ .newline) (closers : List Kind) :
    Confined v (fun _ => True) (statements g closers)
      fun _ u => v.token.kind = .endSub → v.kind u ∈ closers ∨ u = [] :=
  .many ((h.statementRound closers).from_ fun _ _ _ line => absurd line many)

theorem block (many : v.token.kind ≠ .newline) (closers : List Kind) :
    Confined v (fun _ => True) (block g closers)
      fun _ u => v.token.kind = .endSub → v.kind u ∈ closers ∨ u = [] :=
  .bind .here fun _ => .bind trailingComment fun _ =>
    .bind (h.statements many closers) fun _ => .pure fun _ => id

section File

variable (file : v.token.kind = .endOfFile)
include file

theorem parameter : Confined v (fun _ => True) (parameter g) fun _ _ => True := by
  have open_ (u : List Token) : v.Open u := fun sub => by cases file.symm.trans sub
  refine .ranged (.bind (declaredName_open.from_ fun u _ _ => open_ u) fun name =>
    .bind (.accept rfl) fun given => ?_)
  have rest (pre : List Token → Prop) (fallback : Option Expr) : Confined v pre (do
      let type ← Parser.asType .dynamic
      Parser.checkFallback fallback type
      pure fun range => (⟨name, type, fallback, range⟩ : Parameter Expr)) fun _ _ => Range → True :=
    .bind (asType file) fun _ => .bind checkFallback fun _ => .pure fun _ _ _ => trivial
  cases given with
  | true =>
    have value : Confined v v.Open (some <$> g.expression) fun _ _ => True :=
      .map h.expression.anywhere.any
    exact .bind value fun _ => rest _ _
  | false => exact .bind (.done) fun _ => rest (fun _ => True) _

theorem parameters : Confined v (fun _ => True) (parameters g) fun _ _ => True := by
  have round (seen : List (Parameter Expr) × Bool) : Confined v (fun _ => True)
      (parameterRound g seen) fun r _ => r.Holds (fun _ => True) fun _ => True := by
    have more (p : Parameter Expr) : Confined v (fun _ => True) (do
        if ← accept .comma then pure (.again (seen.1 ++ [p], seen.2 || !p.isRequired))
        else pure (Round.done (seen.1 ++ [p]))) fun r _ =>
          r.Holds (fun _ => True) fun _ => True := by
      refine .bind (.accept rfl) fun comma => ?_
      cases comma <;> exact .pure fun _ _ => trivial
    refine .bind (h.parameter file) fun p => ?_
    dsimp only
    split
    · exact .bind .report fun _ => more p
    · exact more p
  have close (params : List (Parameter Expr)) : Confined v (fun _ => True) (do
      expect .rightParen
      pure params) fun _ _ => True := .bind (.expect rfl) fun _ => .done
  refine .bind .isAt fun b => ?_
  cases b with
  | true => exact .bind (.done) close
  | false => exact .bind (.anywhere (.loop round _)) close

theorem functionRest {first : Range} {isSub : Bool} :
    Confined v (fun _ => True) (functionRest g first isSub) fun _ _ => True := by
  have many : v.token.kind ≠ .newline := by
    rw [file]
    decide
  exact .spanned (.bind (.expect rfl) fun _ =>
    .bind (.anywhere (h.parameters file)) fun _ => .bind (asType file) fun _ =>
    .bind (.inFunction (h.block many functionClosers)) fun _ => .bind (closeFunction file) fun _ =>
      .pure fun _ _ _ => trivial)

end File

section Lines

variable (many : v.token.kind ≠ .newline)
include many

theorem arguments : Confined v (fun _ => True) (arguments g) fun _ => v.Open := by
  have round (args : List Expr) : Confined v (fun _ => True) (argumentRound g args)
      fun r _ => r.Holds (fun _ => True) fun _ => True := by
    refine .bind h.expression fun _ => .bind (.skipNewlines many) fun _ =>
      .bind (.accept rfl) fun b => ?_
    cases b with
    | true => exact .bind (.skipNewlines many) fun _ => .pure fun _ _ => trivial
    | false => exact .pure fun _ _ => trivial
  have close (args : List Expr) : Confined v (fun _ => True) (do
      expect .rightParen
      pure args) fun _ => v.Open := .bind (.expect rfl) fun _ => .pure fun _ => id
  refine .bind (.skipNewlines many) fun _ => .bind .isAt fun b => ?_
  cases b with
  | true => exact .bind (.done) close
  | false => exact .bind (.anywhere (.loop round [])) close

theorem arrayLiteral : Confined v (.leftSquare = v.kind ·) (arrayLiteral g) fun _ => v.Open := by
  have round : Confined v (fun _ => True) (elementRound g)
      fun r _ => if r = none then True else True := by
    have stops := v.stops (f := fun k => k = .newline || k = .comment) many rfl rfl
    refine .bind (.skipWhile stops) fun _ => .bind .isAt fun b => ?_
    cases b with
    | true => exact .pure fun _ _ => by simp
    | false =>
      exact .bind h.expression.anywhere fun _ => .bind separator fun _ =>
        .pure fun _ _ => by simp
  exact .ranged (.bind (.advance_at rfl) fun _ =>
    .bind (.anywhere (.many round)) fun _ => .bind (.expect rfl) fun _ =>
      .pure fun _ open_ _ => open_)

end Lines

theorem grouping : Confined v (.leftParen = v.kind ·) (grouping g) fun _ => v.Open :=
  .ranged (.bind (.advance_at rfl) fun _ => .bind h.expression.anywhere fun _ =>
    .bind (.expect rfl) fun _ => .pure fun _ open_ _ => open_)

section File

variable (file : v.token.kind = .endOfFile)
include file

theorem assocLiteral : Confined v (.leftCurly = v.kind ·) (assocLiteral g) fun _ => v.Open := by
  have many : v.token.kind ≠ .newline := by
    rw [file]
    decide
  have round : Confined v (fun _ => True) (memberRound g)
      fun r _ => if r = none then True else True := by
    refine .bind (.skipNewlines many) fun _ => .bind .kind fun k => ?_
    split
    · exact .pure fun _ _ => by simp
    · split
      · rename_i comment
        exact .bind (Sheltered.comment.from_ fun u _ at_ =>
          (v.code_at (comment.symm.trans at_.2) rfl).1) fun _ => .pure fun _ _ => by simp
      · exact .bind .here fun _ => .bind (Confined.anywhere (memberKey file)) fun _ =>
          .bind (.expect rfl) fun _ => .bind h.expression.anywhere fun _ =>
          .bind separator fun _ => .pure fun _ _ => by simp
  exact .ranged (.bind (.advance_at rfl) fun _ =>
    .bind (.anywhere (.many round)) fun _ => .bind (.expect rfl) fun _ =>
      .pure fun _ open_ _ => open_)

theorem anonymousFunction {k : Kind} (inner : Verge.ends k = false) :
    Confined v (k = v.kind ·) (anonymousFunction g) fun _ => v.Open := by
  refine .token (fun u at_ => (v.code_at at_ inner).1) fun t =>
    .bind (.from_ .advance_any fun u _ at_ => (v.code_at at_.1 inner).1) fun _ =>
    .bind (h.functionRest file) fun _ => .pure fun _ _ sub => ?_
  cases file.symm.trans sub

end File

theorem primary : Confined v (fun _ => True) (primary g) fun _ => v.Open := by
  refine .seeing (fun _ t same => ?_) fun t => ?_
  · rcases v.sort with sort | sort | sort <;> simp only [same, sort] <;> rfl
  have kind {k : Kind} (opens : t.kind = k) :
      ∀ u, v.Spans u → True ∧ t = u.headD v.token → k = v.kind u :=
    fun u _ at_ => opens.symm.trans (congrArg Token.kind at_.2)
  split
  · rename_i word
    refine .map (.from_ .takeIdent fun u spans at_ => ?_)
    have code := v.code_at (kind word u spans at_) rfl
    exact ⟨code.1, spans.open_tail code.1 code.2⟩
  · rename_i opens
    exact .from_ (.past_line rfl rfl fun _ => h.grouping) (kind opens)
  · rename_i opens
    exact .from_ (.past_line rfl rfl fun many => h.arrayLiteral many) (kind opens)
  · rename_i opens
    exact .from_ (.in_file rfl rfl rfl fun file => h.assocLiteral file) (kind opens)
  · rename_i opens
    exact .from_ (.in_file rfl rfl rfl fun file => h.anonymousFunction file rfl) (kind opens)
  · rename_i opens
    exact .from_ (.in_file rfl rfl rfl fun file => h.anonymousFunction file rfl) (kind opens)
  · split
    · rename_i literal
      refine .bind (.from_ .advance_code fun u spans at_ => ?_) fun _ => .pure fun _ => id
      rw [kind rfl u spans at_] at literal
      exact v.code_of literal rfl rfl rfl
    · exact .refuse

theorem callAccess (many : v.token.kind ≠ .newline) (e : Expr) :
    Confined v (.leftParen = v.kind ·) (callAccess g e) fun _ => v.Open :=
  .spanned (.bind (.advance_at rfl) fun _ => .bind (.anywhere (h.arguments many))
    fun _ => .pure fun _ open_ _ => open_)

theorem indexAccess (e : Expr) :
    Confined v (.leftSquare = v.kind ·) (indexAccess g e) fun _ => v.Open :=
  .spanned (.bind (.advance_at rfl) fun _ => .bind h.expression.anywhere
    fun _ => .bind (.expect rfl) fun _ => .pure fun _ open_ _ => open_)

theorem accessed : Confined v (fun _ => True) (accessed g) fun _ => v.Open := by
  refine .bind h.primary fun e => .loop (I := fun _ => v.Open) (fun e => .bind .kind fun k => ?_) e
  split
  · exact .map (.from_ (.past_line rfl rfl fun many => h.callAccess many e) fun _ _ at_ => at_.2)
  · exact (memberAccess e).from_ fun _ _ at_ => at_.2
  · exact .map ((h.indexAccess e).from_ fun _ _ at_ => at_.2)
  · exact .pure fun _ at_ => at_.1

theorem operandStep : Confined v (fun _ => True) (Parser.operand g) fun _ => v.Open := by
  refine .bind .kind fun k => ?_
  split
  · rename_i sign
    have open_ (u : List Token) (at_ : True ∧ k = v.kind u) : u ≠ [] := by
      rw [at_.2] at sign
      exact (v.code_of sign rfl rfl rfl).1
    refine .nested (.token open_ fun t =>
      .bind (.from_ .advance_any fun u _ at_ => open_ u at_.1) fun _ =>
        .bind ?_ fun _ => .pure fun _ => id)
    unfold prefixOperand
    split
    · exact binary h.operand notLevel
    · exact h.operand
  · exact h.accessed.anywhere

theorem conditionalRest (test : Expr) :
    Confined v v.Open (conditionalRest g test) fun _ => v.Open := by
  refine .bind .isAt fun b => ?_
  cases b with
  | true =>
    exact .bind markUnsupported fun _ =>
      .bind (.from_ (.advance_at rfl) fun _ _ at_ => (at_.2.mp rfl).symm) fun _ =>
      .bind h.expression.anywhere fun _ => .bind (.expect rfl) fun _ =>
      .bind h.expression.anywhere fun _ => .pure fun _ => id
  | false => exact .pure fun _ at_ => at_.1

theorem expressionStep : Confined v (fun _ => True) (Parser.expression g) fun _ => v.Open :=
  .nested (.bind (binary h.operandStep conditionalLevel) h.conditionalRest)

theorem assignedValue : Confined v (· ≠ []) (assignedValue g) fun _ _ => True :=
  .bind .kind fun _ => .bind (.from_ .advance_any fun _ _ at_ => at_.1) fun _ =>
    .bind h.expression fun _ => .done

theorem setStatement (target : Expr) :
    Confined v (· ≠ []) (setStatement g target) fun _ _ => True := by
  unfold Parser.setStatement
  split
  iterate 3 exact .bind h.assignedValue fun _ => .done
  exact .refusePast fun _ => id

theorem expressionStatement :
    Confined v (fun _ => True) (expressionStatement g) fun _ _ => True := by
  refine .bind h.operandStep fun left => .bind .kind fun k => ?_
  split
  · rename_i assigns
    refine (h.setStatement left).from_ fun u _ at_ => ?_
    rw [at_.2] at assigns
    exact (v.code_of assigns rfl rfl rfl).1
  · split
    · rename_i increments
      have open_ (u : List Token) (at_ : v.Open u ∧ k = v.kind u) : u ≠ [] := by
        rw [at_.2] at increments
        exact (v.code_of (f := fun k => decide (k = .plusPlus) || decide (k = .minusMinus))
          increments rfl rfl rfl).1
      exact .token open_ fun _ => .bind (.from_ .advance_any fun u _ at_ => open_ u at_.1) fun _ =>
        .done
    · split
      · exact .bind ((binaryRest (binary h.operandStep) _ left).from_ fun _ _ at_ => at_.1)
          fun test => .bind (h.conditionalRest test) fun e => callStatement e
      · exact callStatement left

theorem printStatement : Confined v (· ≠ []) (printStatement g) fun _ _ => True := by
  have round : Confined v (fun _ => True) (printRound g)
      fun r _ => if r = none then True else True := by
    refine .bind .kind fun k => ?_
    split
    · exact .pure fun _ _ => by simp
    · split
      · rename_i mark
        refine .bind (.from_ .advance_any fun u _ at_ => ?_) fun _ => .pure fun _ _ => by simp
        rw [at_.2] at mark
        exact (v.code_of (f := fun k => decide (k = .semicolon) || decide (k = .comma)) mark
          rfl rfl rfl).1
      · exact .bind h.expression.anywhere fun _ => .pure fun _ _ => by simp
  exact .ranged (.bind .advance_any fun _ => .bind (.many round) fun _ =>
    .pure fun _ _ _ => trivial)

theorem returnStatement : Confined v (· ≠ []) (returnStatement g) fun _ _ => True := by
  refine .ranged (.bind .advance_any fun _ => .bind .kind fun k => ?_)
  split
  · exact .bind (.done) fun _ => .pure fun _ (_ : True) _ => trivial
  · have value : Confined v (fun _ => True) (some <$> g.expression) fun _ => v.Open :=
      .map h.expression
    exact .bind value.anywhere fun _ => .pure fun _ _ _ => trivial

theorem ifBranches {branches : Branches} (body : Confined v v.Open branches.body fun _ _ => True)
    (lastBody : Confined v v.Open branches.lastBody fun _ _ => True) :
    Confined v v.Open (ifBranches g branches) fun _ _ => True := by
  have round : Confined v (fun _ => True) (elseIfRound g branches)
      fun r _ => if r = none then True else True := by
    refine .bind .isAt fun b => ?_
    cases b with
    | true =>
      refine .bind (.ranged (.bind
        (.from_ (.advance_at rfl) fun _ _ at_ => (at_.2.mp rfl).symm) fun _ =>
        .bind h.expression.anywhere fun _ => .bind (.accept rfl) fun b => ?_))
        fun _ => .pure fun _ (_ : True) => by simp
      refine .bind (body.from_ fun u _ open_ => ?_) fun _ => .pure fun _ _ _ => trivial
      cases b <;> exact open_
    | false => exact .pure fun _ _ => by simp
  refine .bind body fun _ => .bind (.many round) fun _ => .bind (.accept rfl) fun b => ?_
  cases b with
  | true =>
    have last : Confined v v.Open (some <$> branches.lastBody) fun _ _ => True := .map lastBody
    exact .bind last fun _ => .done
  | false => exact .bind (.done) fun _ => .pure fun _ (_ : True) => trivial

theorem inlineBlock : Confined v v.Open (inlineBlock g) fun _ _ => True := by
  refine .bind .here fun _ => .bind (.loop (I := fun _ => v.Open) (fun stmts => ?_) []) fun _ =>
    .pure fun _ (_ : True) => trivial
  refine .bind h.statement fun _ => .bind (.accept rfl) fun b => ?_
  cases b with
  | true =>
    refine .bind .kind fun k => ?_
    split
    · exact .pure fun _ _ => trivial
    · exact .pure fun _ at_ => at_.1
  | false => exact .pure fun _ _ => trivial

section Lines

variable (many : v.token.kind ≠ .newline)
include many

theorem body (closers : List Kind) : Confined v v.Open (Parser.block g closers) fun _ _ => True :=
  (h.block many closers).mono (fun _ _ _ => trivial) fun _ _ _ => trivial

theorem ifStatement : Confined v (.if_ = v.kind ·) (ifStatement g) fun _ _ => True := by
  refine .ranged (.bind (.advance_at rfl) fun _ =>
    .bind h.expression.anywhere fun condition => .bind (.accept rfl) fun b => ?_)
  have blockIf : Confined v v.Open (blockIf g condition) fun _ _ => True :=
    .bind (h.ifBranches (h.body many _) (h.body many _)) fun _ =>
      .bind (close rfl) fun _ => .done
  have inlineIf : Confined v v.Open (inlineIf g condition) fun _ _ => True :=
    .bind (.withCleanup (h.ifBranches h.inlineBlock h.inlineBlock) synchronizeInlineIf) fun _ =>
      .done
  have open_ (u : List Token) (at_ : bif b then v.Open u else v.Open u) : v.Open u := by
    cases b <;> exact at_
  refine .bind .kind fun k => ?_
  split
  · exact blockIf.mono (fun u _ at_ => open_ u at_.1) fun _ _ _ _ => trivial
  · exact inlineIf.mono (fun u _ at_ => open_ u at_.1) fun _ _ _ _ => trivial

theorem whileStatement : Confined v (.while_ = v.kind ·) (whileStatement g) fun _ _ => True :=
  .ranged (.bind (.advance_at rfl) fun _ => .bind h.expression.anywhere fun _ =>
    .bind (h.body many _) fun _ => .bind (close rfl) fun _ => .pure fun _ _ _ => trivial)

theorem forStatement : Confined v (.for_ = v.kind ·) (forStatement g) fun _ _ => True := by
  have each : Confined v v.Open (forEachRest g) fun _ _ => True := by
    refine .bind declaredName_open fun _ => .bind .atName fun b => ?_
    cases b with
    | true =>
      exact .bind (.from_ .advance_any fun _ _ at_ => at_.2 rfl) fun _ => .bind h.expression fun _ =>
        .bind (h.body many _) fun _ => .bind closeFor fun _ => .done
    | false => exact .refuse (e := fun _ => Severity.eq_error rfl)
  have count : Confined v v.Open (forRest g) fun _ _ => True := by
    refine .bind declaredName_open fun _ => .bind (.expect rfl) fun _ =>
      .bind h.expression.anywhere fun _ => .bind (.expect rfl) fun _ =>
      .bind h.expression.anywhere fun _ => .bind (.accept rfl) fun b => ?_
    cases b with
    | true =>
      have step : Confined v v.Open (some <$> g.expression) fun _ => v.Open :=
        .map h.expression.anywhere
      exact .bind step fun _ => .bind (h.body many _) fun _ => .bind closeFor fun _ =>
        .done
    | false =>
      exact .bind (.pure fun _ => id) fun _ => .bind (h.body many _) fun _ =>
        .bind closeFor fun _ => .done
  refine .ranged (.bind (.advance_at rfl) fun _ => .bind (.accept rfl) fun b => ?_)
  cases b with
  | true => exact each.mono (fun _ _ => id) fun _ _ _ _ => trivial
  | false => exact count.mono (fun _ _ => id) fun _ _ _ _ => trivial

end Lines

theorem functionDeclaration (file : v.token.kind = .endOfFile) {k : Kind}
    (inner : Verge.ends k = false) :
    Confined v (k = v.kind ·) (functionDeclaration g) fun _ _ => True :=
  .token (fun _ at_ => (v.code_at at_ inner).1) fun _ =>
    .bind (.from_ (.advance_at inner) fun _ _ at_ => at_.1) fun _ => .bind declaredName_open fun _ =>
    .bind (.anywhere (h.functionRest file)) fun _ => .pure fun _ => id

theorem statementBody : Confined v v.Open (statementBody g) fun _ _ => True := by
  refine .bind atTarget fun b => ?_
  split
  · rename_i target
    exact .bind (declaredName.from_ fun u _ at_ => ⟨at_.1, fun _ _ => at_.2 target⟩) fun _ =>
      .bind h.assignedValue fun _ => .done
  refine .bind (atLabel.from_ fun _ _ at_ => at_.1) fun b => ?_
  split
  · rename_i label
    exact .bind (.from_ .takeIdent fun u _ at_ => at_.2 label) fun _ => .bind .advance_any fun _ =>
      .done
  refine .bind .kind fun k => ?_
  have open_ {k : Kind} {label : Bool} (code : k ≠ .newline) (inner : k ≠ .endOfFile)
      (u : List Token) (_ : v.Spans u)
      (at_ : (v.Open u ∧ (label = true → u ≠ [] ∧ u.tail ≠ [])) ∧ k = v.kind u) : u ≠ [] := by
    refine (at_.1.1.code (f := fun k => !(k = .newline || k = .endOfFile)) ?_ rfl rfl).1
    rw [← at_.2]
    simp [code, inner]
  unfold byKeyword
  split
  · exact .from_ (.past_line rfl rfl fun many => h.ifStatement many) fun _ _ at_ => at_.2
  · exact .from_ (.past_line rfl rfl fun many => h.whileStatement many) fun _ _ at_ => at_.2
  · exact .from_ (.past_line rfl rfl fun many => h.forStatement many) fun _ _ at_ => at_.2
  · exact .from_ (.in_file rfl rfl rfl fun file => h.functionDeclaration file rfl)
      fun _ _ at_ => at_.2
  · exact .from_ (.in_file rfl rfl rfl fun file => h.functionDeclaration file rfl)
      fun _ _ at_ => at_.2
  · exact h.returnStatement.from_ (open_ nofun nofun)
  · exact h.printStatement.from_ (open_ nofun nofun)
  · exact h.printStatement.from_ (open_ nofun nofun)
  · exact gotoStatement.from_ fun _ _ at_ => at_.2
  iterate 4 exact (keywordStatement _).from_ (open_ nofun nofun)
  split
  · rename_i keyword
    refine .refusePast fun u at_ => (at_.1.1.code (f := fun k => k.isKeyword) ?_ rfl rfl).1
    rw [← at_.2]
    exact (Bool.and_eq_true_iff.mp keyword).1
  · exact h.expressionStatement.anywhere

end

end Sheltered

theorem sheltered_unroll (v : Verge) (n : Nat) : Sheltered v (unroll n) := by
  induction n with
  | zero => exact ⟨.tooDeep, .tooDeep, .tooDeep⟩
  | succ n ih => exact ⟨ih.expressionStep, ih.operandStep, .nested (.droppable ih.statementBody)⟩

end BrightScript.Parser
