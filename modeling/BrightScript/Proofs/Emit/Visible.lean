import BrightScript.Emit.Printer
import BrightScript.Proofs.Parser.Inherited
import BrightScript.Proofs.Token.Line
import BrightScript.Proofs.Tree.Bare

/-! A statement is never written as nothing.
Only a comment without text and an expression without text would be, and neither comes out of a
text: a comment has its mark, and an expression that stands for itself is a call. -/
namespace BrightScript

def Stmt.Visible : Stmt → Prop
  | .comment c => c.text ≠ ""
  | .expression e => e.isCall = true
  | _ => True

namespace Emit

variable {o : Options} {level : Nat}

/- A text that begins with a line break is not empty either, if a line break is not. -/
theorem render_commentPieces_ne_empty {o : Layout} {c : Comment} (feed : o.newline ≠ "")
    (some : c.text ≠ "") : render o (commentPieces level c) ≠ "" := by
  obtain ⟨x, xs, text⟩ := List.exists_cons_of_ne_nil (mt String.toList_eq_nil_iff.mp some)
  obtain ⟨line, lines, rest⟩ := List.exists_cons_of_ne_nil (splitLines_ne_nil xs)
  unfold commentPieces
  rw [text]
  by_cases break_ : x = '\n'
  · simp [splitLines, break_, rest, Piece.render, feed]
  · simp [splitLines, break_, rest, Piece.render]

theorem render_stmtPieces_ne_empty {s : Stmt} (feed : o.layout.newline ≠ "") (visible : s.Visible) :
    render o.layout (stmtPieces o level s) ≠ "" := by
  have label (k : Kind) : k.label ≠ "" := by cases k <;> decide
  cases s with
  | comment c => exact render_commentPieces_ne_empty feed visible
  | expression e =>
    cases e with
    | call callee args range => simp [stmtPieces, exprPieces, Piece.render]
    | _ => cases visible
  | increment value operator range => simp [stmtPieces, Piece.render, label]
  | ifThen condition body elseIfs elseBody inline range =>
    cases inline <;> cases elseBody <;> simp [stmtPieces, Piece.render]
  | forLoop counter first last step body range => cases step <;> simp [stmtPieces, Piece.render]
  | returns value range => cases value <;> simp [stmtPieces, Piece.render]
  | declare name f => cases f; simp [stmtPieces, functionPieces, Piece.render]
  | _ => simp [stmtPieces, operatorPieces, Piece.render]

end Emit

namespace Parser

variable {α : Type} {g : Grammar} {mode : Mode} {n : Nat}

theorem visible_setStatement (target : Expr) :
    Finds mode n false (setStatement g target) Stmt.Visible := by
  unfold setStatement
  split
  · exact .then_ fun _ => .pure trivial
  · exact .then_ fun _ => .pure trivial
  · exact .then_ fun _ => .pure trivial
  · exact .never fun _ => rfl

theorem visible_callStatement (e : Expr) : Finds mode n false (callStatement e) Stmt.Visible := by
  unfold callStatement
  split
  · rename_i call
    exact .pure call
  · exact .never fun _ => rfl

theorem visible_expressionStatement : Finds mode n false (expressionStatement g) Stmt.Visible := by
  refine .then_ fun left => .then_ fun k => ?_
  split
  · exact visible_setStatement left
  · split
    · exact .then_ fun _ => .then_ fun _ => .pure trivial
    · split
      · exact .then_ fun _ => .then_ fun e => visible_callStatement e
      · exact visible_callStatement left

theorem visible_ifStatement : Finds mode n false (ifStatement g) Stmt.Visible := by
  refine .ranged (.then_ fun _ => .then_ fun condition => .then_ fun _ => .then_ fun k => ?_)
  split
  · exact .then_ fun _ => .then_ fun _ => .pure fun _ => trivial
  · exact .then_ fun _ => .pure fun _ => trivial

theorem visible_forStatement : Finds mode n false (forStatement g) Stmt.Visible := by
  refine .ranged (.then_ fun _ => .then_ fun each => ?_)
  split
  · refine .then_ fun item => .then_ fun found => ?_
    split
    · exact .then_ fun _ => .then_ fun _ => .then_ fun _ => .then_ fun _ => .pure fun _ => trivial
    · exact .never fun _ => rfl
  · refine .then_ fun _ => .then_ fun _ => .then_ fun _ => .then_ fun _ => .then_ fun _ =>
      .then_ fun step => ?_
    split <;> exact .then_ fun _ => .then_ fun _ => .then_ fun _ => .pure fun _ => trivial

theorem visible_statementBody : Finds mode n false (statementBody g) Stmt.Visible := by
  refine .then_ fun target => ?_
  split
  · exact .then_ fun _ => .then_ fun _ => .pure trivial
  refine .then_ fun label => ?_
  split
  · exact .then_ fun _ => .then_ fun _ => .pure trivial
  refine .then_ fun k => ?_
  have keyword {node : Range → Stmt} (h : ∀ range, (node range).Visible) :
      Finds mode n false (keywordStatement node) Stmt.Visible :=
    .then_ fun range => .then_ fun _ => .pure (h range)
  have print : Finds mode n false (printStatement g) Stmt.Visible :=
    .ranged (.then_ fun _ => .then_ fun _ => .pure fun _ => trivial)
  have declaration : Finds mode n false (functionDeclaration g) Stmt.Visible :=
    .then_ fun _ => .then_ fun _ => .then_ fun _ => .then_ fun _ => .pure trivial
  unfold byKeyword
  split
  · exact visible_ifStatement
  · exact .ranged (.then_ fun _ => .then_ fun _ => .then_ fun _ => .then_ fun _ =>
      .pure fun _ => trivial)
  · exact visible_forStatement
  · exact declaration
  · exact declaration
  · refine .ranged (.then_ fun _ => .then_ fun k => ?_)
    split <;> exact .then_ fun _ => .pure fun _ => trivial
  · exact print
  · exact print
  · exact .then_ fun _ => .then_ fun _ => .then_ fun _ => .pure trivial
  · exact keyword fun _ => trivial
  · exact keyword fun _ => trivial
  · exact keyword fun _ => trivial
  · exact keyword fun _ => trivial
  · split
    · exact .never fun _ => rfl
    · exact visible_expressionStatement

theorem visible_unroll (depth : Nat) : Finds mode n true (unroll depth).statement Stmt.Visible := by
  cases depth with
  | zero => exact .never fun _ => rfl
  | succ depth => exact .nested fun _ => .droppable visible_statementBody

/-- The comments that are left have a text. -/
def State.Spelled (s : State) : Prop := ∀ t ∈ s.rest.items, t.kind = .comment → t.text ≠ ""

theorem State.Spelled.token {s : State} (h : s.Spelled) (comment : s.kind = .comment) :
    s.token.text ≠ "" := by
  refine h _ (State.token_mem ?_) comment
  rw [comment]
  exact Kind.noConfusion

theorem foldl_joinComment_ne_empty (more : List Token) {c : Comment} (some : c.text ≠ "") :
    (more.foldl joinComment c).text ≠ "" := by
  induction more generalizing c with
  | nil => exact some
  | cons t more ih => exact ih (by simp [joinComment])

theorem visible_trailingComment {s s' : State} {comments : List Stmt} (spelled : s.Spelled)
    (run : trailingComment.run s = (some comments, s')) : ∀ stmt ∈ comments, stmt.Visible := by
  obtain ⟨_, _, ⟨⟩, run⟩ := run_bind_eq_some.mp run
  split at run
  · rename_i comment
    obtain ⟨_, _, ⟨⟩, ⟨⟩⟩ := run_bind_eq_some.mp run
    exact List.forall_mem_singleton.mpr (spelled.token (of_decide_eq_true comment))
  · cases run
    simp

theorem visible_commentRun {s s' : State} {c : Comment} (spelled : s.Spelled)
    (comment : s.kind = .comment) (run : commentRun.run s = (some c, s')) : c.text ≠ "" := by
  obtain ⟨_, _, ⟨⟩, run⟩ := run_bind_eq_some.mp run
  obtain ⟨_, _, ⟨⟩, run⟩ := run_bind_eq_some.mp run
  obtain ⟨_, _, ⟨⟩, ⟨⟩⟩ := run_bind_eq_some.mp run
  exact foldl_joinComment_ne_empty _ (spelled.token comment)

theorem visible_finishStatement {s s' : State} {stmt : Stmt} {comments : List Stmt}
    (spelled : s.Spelled) (run : (finishStatement stmt).run s = (some comments, s')) :
    ∀ stmt ∈ comments, stmt.Visible := by
  obtain ⟨all, t, trailing, run⟩ := run_bind_eq_some.mp run
  have visible := visible_trailingComment spelled trailing
  obtain ⟨k, _, _, run⟩ := run_bind_eq_some.mp run
  split at run
  · cases run
    exact visible
  · obtain ⟨_, _, _, run⟩ := run_bind_eq_some.mp run
    obtain ⟨_, _, _, run⟩ := run_bind_eq_some.mp run
    split at run
    · obtain ⟨_, _, _, ⟨⟩⟩ := run_bind_eq_some.mp run
      exact visible
    · obtain ⟨_, _, _, ⟨⟩⟩ := run_bind_eq_some.mp run
      exact visible

theorem visible_codeRound (h : ∀ {mode n}, Finds mode n true g.statement Stmt.Visible)
    {closers : List Kind} {s s' : State} {first : List Stmt} (spelled : s.Spelled)
    (run : (codeRound g closers).run s = (some (some first), s')) :
    ∀ stmt ∈ first, stmt.Visible := by
  obtain ⟨_, _, ⟨⟩, run⟩ := run_bind_eq_some.mp run
  split at run
  · cases run
  obtain ⟨result, t, attempt, run⟩ := run_bind_eq_some.mp run
  have after := (attemptPast g.statement).advances s
  rw [attempt] at after
  cases result with
  | none =>
    obtain ⟨_, _, _, ⟨⟩⟩ := run_bind_eq_some.mp run
    simp
  | some stmt =>
    obtain ⟨comments, _, finish, ⟨⟩⟩ := run_bind_eq_some.mp run
    have visible : stmt.Visible := by
      rw [run_attemptPast] at attempt
      split at attempt
      · cases attempt
        exact h _ _ _ rfl rfl ‹_› rfl
      · cases attempt
    refine List.forall_mem_cons.mpr ⟨visible, visible_finishStatement ?_ finish⟩
    exact fun t mem => spelled t (after.suffix.subset mem)

theorem visible_statementRound (h : ∀ {mode n}, Finds mode n true g.statement Stmt.Visible)
    {closers : List Kind} {s s' : State} {first : List Stmt} (spelled : s.Spelled)
    (run : (statementRound g closers).run s = (some (some first), s')) :
    ∀ stmt ∈ first, stmt.Visible := by
  obtain ⟨_, _, ⟨⟩, run⟩ := run_bind_eq_some.mp run
  split at run
  · obtain ⟨_, _, _, ⟨⟩⟩ := run_bind_eq_some.mp run
    simp
  · obtain ⟨_, _, _, ⟨⟩⟩ := run_bind_eq_some.mp run
    simp
  · cases run
  · obtain ⟨c, _, read, ⟨⟩⟩ := run_bind_eq_some.mp run
    exact List.forall_mem_singleton.mpr (visible_commentRun spelled ‹_› read)
  · exact visible_codeRound h spelled run

theorem mem_of_run_many {round : Parser (Option (List α))} {s s' : State} {all : List α}
    (run : (many round).run s = (some all, s')) {a : α} (mem : a ∈ all) :
    ∃ t first t', s.Advances t ∧ round.run t = (some (some first), t') ∧ a ∈ first := by
  have found (x : List α) (s : State) (run : (loop (manyRound round) x).run s = (some all, s')) :
      a ∈ x ∨ ∃ t first t', s.Advances t ∧ round.run t = (some (some first), t') ∧ a ∈ first := by
    induction x, s using loop_induction (manyRound round) with
    | again x s y t again less ih =>
      rw [run_loop_again again less] at run
      obtain ⟨result, _, head, tail⟩ := run_bind_eq_some.mp again
      cases result with
      | none => cases tail
      | some first =>
        cases tail
        rcases ih run with early | ⟨t', later, t'', after, read, mem⟩
        · rcases List.mem_append.mp early with here | before
          · exact .inr ⟨s, first, t, .refl s, head, List.mem_reverse.mp here⟩
          · exact .inl before
        · exact .inr ⟨t', later, t'', (advances_of_run head).trans after, read, mem⟩
    | stuck x s y t again stuck =>
      rw [run_loop_stuck again stuck] at run
      cases run
    | done x s b t done =>
      rw [run_loop_done done] at run
      obtain ⟨result, _, head, tail⟩ := run_bind_eq_some.mp done
      cases run
      cases result with
      | none =>
        cases tail
        exact .inl (List.mem_reverse.mp mem)
      | some first => cases tail
    | failed x s t fails =>
      rw [run_loop_failed fails] at run
      cases run
  exact (found [] s run).resolve_left List.not_mem_nil

end Parser

theorem Scan.run_text (last : Option Kind) (start : Position) (text : List Char) :
    ∀ t ∈ (run last start text).tokens, t.kind ≠ .endOfFile → t.text ≠ "" := by
  induction last, start, text using run_induction with
  | nil last start => rw [run]; simp [Token.endOfFile]
  | cons last start c cs lexeme read ih =>
    intro t mem
    rw [run_cons, read] at mem
    rcases List.mem_append.mp mem with own | later
    · obtain ⟨reading, extra⟩ := lexeme
      cases reading with
      | token k v =>
        obtain rfl := List.mem_singleton.mp own
        simp [Lexeme.slice]
      | openString v =>
        obtain rfl := List.mem_singleton.mp own
        simp [Lexeme.slice]
      | blank => cases own
      | stray => cases own
    · exact ih t later

/-- Every statement of a text is seen where it is written. -/
theorem visible_parse (mode : Mode) (source : String) :
    ∀ stmt ∈ (parse mode (scan source).tokens).statements, stmt.Visible := by
  intro stmt mem
  cases run : (Parser.statements Parser.grammar []).run (.start mode (scan source).tokens) with
  | mk all s =>
    have result : (parse mode (scan source).tokens).statements = all.getD [] := by
      rw [parse, run]
    cases all with
    | none => simp [result] at mem
    | some all =>
      rw [result] at mem
      obtain ⟨t, first, t', after, read, mem⟩ := Parser.mem_of_run_many run mem
      refine Parser.visible_statementRound (Parser.visible_unroll _) (fun u left comment => ?_) read
        stmt mem
      refine Scan.run_text none .origin source.toList u (after.suffix.subset left) ?_
      rw [comment]
      exact Kind.noConfusion

end BrightScript
