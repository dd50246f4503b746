import BrightScript.Proofs.Parser.Progress
import BrightScript.Proofs.Parser.Shelter
import BrightScript.Token.Scan

/-! Errors stay inside their function.
Whatever stands in the body of a function, no recovery goes past the end of the function, and
nothing that is read before it depends on the tokens after it. So what follows a function is read
as if it stood alone. -/
namespace BrightScript
namespace Parser

variable {α β : Type} {s : State} {g : Grammar}

def KeepsMark (p : Parser α) : Prop := ∀ s, (p.run s).2.discard = s.discard

namespace KeepsMark

variable {p : Parser α}

theorem bind {f : α → Parser β} (first : KeepsMark p) (second : ∀ a, KeepsMark (f a)) :
    KeepsMark (p >>= f) := by
  intro s
  have before := first s
  rw [run_bind]
  cases h : p.run s with
  | mk result s' =>
    rw [h] at before
    cases result with
    | none => exact before
    | some a => exact (second a s').trans before

theorem pure {a : α} : KeepsMark (pure a) := fun _ => rfl

theorem nested (h : KeepsMark p) : KeepsMark (nested p) := by
  intro s
  rw [run_nested]
  split
  · rfl
  · exact h _

theorem droppable (p : Parser α) : KeepsMark (droppable p) := fun _ => rfl

theorem attemptPast (h : KeepsMark p) : KeepsMark (attemptPast p) := by
  intro s
  have before := h s
  cases run : p.run s with
  | mk result s' =>
    rw [run] at before
    cases result with
    | some a => simpa [run_attemptPast, run] using before
    | none =>
      simp only [run_attemptPast, run]
      split <;> exact before

theorem many {round : Parser (Option (List α))} (h : KeepsMark round) : KeepsMark (many round) := by
  have again : ∀ found, KeepsMark (manyRound round found) :=
    fun found => h.bind fun r => by cases r <;> exact pure
  suffices ∀ found, KeepsMark (loop (manyRound round) found) from this []
  intro found s
  induction found, s using loop_induction (manyRound round) with
  | again found s next t run less ih =>
    rw [run_loop_again run less]
    exact ih.trans (by simpa [run] using again found s)
  | stuck found s next t run stuck =>
    rw [run_loop_stuck run stuck]
    exact (by simpa [run] using again found s : t.discard = _)
  | done found s all t run =>
    rw [run_loop_done run]
    simpa [run] using again found s
  | failed found s t run =>
    rw [run_loop_failed run]
    simpa [run] using again found s

end KeepsMark

theorem keepsMark_comment : KeepsMark comment :=
  .bind (fun _ => rfl) fun _ => .bind (fun _ => rfl) fun _ => .pure

theorem keepsMark_trailingComment : KeepsMark trailingComment := by
  refine .bind (fun _ => rfl) fun b => ?_
  split
  · exact keepsMark_comment.bind fun _ => .pure
  · exact .pure

theorem keepsMark_statementRound (h : KeepsMark g.statement) (closers : List Kind) :
    KeepsMark (statementRound g closers) := by
  refine .bind (fun _ => rfl) fun k => ?_
  split
  · exact .bind (fun _ => rfl) fun _ => .pure
  · exact .bind (fun _ => rfl) fun _ => .pure
  · exact .pure
  · have run : KeepsMark commentRun := keepsMark_comment.bind fun _ =>
      .bind (fun _ => rfl) fun _ => .bind (fun _ => rfl) fun _ => .pure
    exact run.bind fun _ => .pure
  · refine .bind (fun _ => rfl) fun b => ?_
    split
    · exact .pure
    · refine h.attemptPast.bind fun r => ?_
      cases r with
      | none => exact .bind (fun _ => rfl) fun _ => .pure
      | some st =>
        refine .bind (keepsMark_trailingComment.bind fun _ => .bind (fun _ => rfl) fun k => ?_)
          fun _ => .pure
        split
        · exact .pure
        · refine .bind (fun _ => rfl) fun _ => .bind (fun _ => rfl) fun _ => ?_
          dsimp only
          split <;> exact .bind (fun _ => rfl) fun _ => .pure

theorem keepsMark_block (h : KeepsMark g.statement) (closers : List Kind) :
    KeepsMark (block g closers) :=
  .bind (fun _ => rfl) fun _ => keepsMark_trailingComment.bind fun _ =>
    (KeepsMark.many (keepsMark_statementRound h closers)).bind fun _ => .pure

theorem keepsMark_statement_unroll (n : Nat) : KeepsMark (unroll n).statement := by
  cases n with
  | zero => exact fun _ => rfl
  | succ n => exact (KeepsMark.droppable (statementBody (unroll n))).nested

/- What a loop has found so far only stands before what it finds from here on. -/
theorem run_loop_manyRound (round : Parser (Option (List α))) (found : List α) (s : State) :
    (loop (manyRound round) found).run s =
      (((many round).run s).1.map (found.reverse ++ ·), ((many round).run s).2) := by
  induction size : s.rest.size using Nat.strongRecOn generalizing found s with
  | ind n ih =>
    unfold many
    cases h : round.run s with
    | mk result t =>
      rcases result with _ | _ | more
      · have fails (found : List α) : (manyRound round found).run s = (none, t) := by
          rw [manyRound, run_bind, h]
        rw [run_loop_failed (fails found), run_loop_failed (fails [])]
        rfl
      · rw [run_loop_done (run_manyRound_none h), run_loop_done (run_manyRound_none h)]
        simp
      · have again (found : List α) : (manyRound round found).run s =
            (some (.again (more.reverse ++ found)), t) := run_manyRound_some h
        by_cases less : t.rest.size < s.rest.size
        · rw [run_loop_again (again found) less, run_loop_again (again []) less,
            ih _ (size ▸ less) _ t rfl, ih _ (size ▸ less) _ t rfl]
          simp [Function.comp_def]
        · rw [run_loop_stuck (again found) less, run_loop_stuck (again []) less]
          rfl

section Blind

variable {B : List Token → Position → Prop} {u : List Token}

theorem Blind.expect {k : Kind} {t : Token} (kind : t.kind = k) :
    Blind B (expect k) s (t :: u) (some ()) s u := by
  have at_ : Blind B (isAt k) s (t :: u) (some true) s (t :: u) :=
    .inspect fun _ _ _ => decide_eq_true kind
  have accepts : Blind B (accept k) s (t :: u) (some true) s u :=
    at_.bind (Blind.advance.bind .pure)
  exact accepts.bind .pure

theorem Blind.declaredName {t : Token} (kind : t.kind = .identifier) :
    ∃ s', s'.discard = s.discard ∧
      Blind B declaredName s (t :: u) (some ⟨t.text, t.range⟩) s' u := by
  have at_ : Blind B Parser.kind s (t :: u) (some .identifier) s (t :: u) :=
    .inspect fun _ _ _ => kind
  have name : Blind B takeIdent s (t :: u) (some ⟨t.text, t.range⟩) s u :=
    (Blind.inspect fun _ _ _ => rfl).bind (Blind.advance.bind .pure)
  cases reserved : isReserved t.text with
  | true =>
    refine ⟨s.report (.reservedWord t.text) t.range, rfl, at_.bind (name.bind ?_)⟩
    simp only [reserved, if_true]
    exact Blind.bind (.update (List.suffix_refl u) fun _ _ _ => rfl) .pure
  | false =>
    refine ⟨s, rfl, at_.bind (name.bind ?_)⟩
    simp only [reserved, Bool.false_eq_true, if_false, ne_eq, not_true_eq_false]
    exact .pure

theorem Blind.block {n : Nat} {closer line : Token} (inside : 0 < s.functions)
    (isCloser : closer.kind = .endSub) (isLine : line.kind = .newline) (local_ : Local u) :
    ∃ body s', s'.discard = s.discard ∧
      Blind B (block (unroll n) functionClosers) s (u ++ [closer, line]) (some body) s'
        [closer, line] := by
  let v : Verge := ⟨closer, .inr (.inr isCloser)⟩
  have many : v.token.kind ≠ .newline := fun same => by cases isCloser.symm.trans same
  have spans : v.Spans u := ⟨fun same => absurd same many, fun _ => local_⟩
  obtain ⟨r, s', u', blind, result⟩ :=
    (sheltered_unroll v n).block many functionClosers s u (fun _ => inside) spans trivial
  have run (after : List Token) (finish : Position) :=
    blind.2 (closer :: line :: after) finish
      ⟨rfl, rfl, fun _ => ⟨line, after, rfl, isLine⟩, fun same => absurd same many⟩
  have kept := keepsMark_block (keepsMark_statement_unroll n) functionClosers
    (s.upTo u [closer, line] .origin)
  rw [run] at kept
  have total : Total (Parser.block (unroll n) functionClosers) := by
    refine .then_ (fun _ => rfl) fun _ => total_trailingComment.bind fun _ =>
      .bind (fun s => ?_) fun _ => .pure
    obtain ⟨all, s', _, run, _⟩ := (total_statementRound (unroll n) functionClosers).many_ends
      ((consuming_unroll n).statementRound functionClosers) s
    exact ⟨all, s', run⟩
  obtain ⟨body, t, ends⟩ := total (s.upTo u [closer, line] .origin)
  obtain ⟨rfl, rfl⟩ := Prod.mk.inj ((run [] .origin).symm.trans ends)
  have closed : u' = [] := by
    rcases (spans.suffix blind.1).kind_cases isCloser with ordinary | closed
    · refine (result body rfl isCloser).resolve_left fun closes => ?_
      simp only [functionClosers, List.mem_cons, List.not_mem_nil, or_false] at closes
      rcases closes with closes | closes <;> rw [closes] at ordinary <;> cases ordinary
    · exact closed
  subst closed
  refine ⟨body, s', kept, List.suffix_append u _, fun after finish _ => ?_⟩
  rw [State.upTo, List.append_assoc]
  exact run after finish

theorem kind_upTo_append (s : State) (u after : List Token) (closer line : Token)
    (finish : Position) :
    (s.upTo (u ++ [closer, line]) after finish).kind = (u.headD closer).kind := by
  cases u <;> rfl

section Function

variable {n : Nat} {sub name left right closer line : Token} (isSub : sub.kind = .sub)
  (isName : name.kind = .identifier) (isLeft : left.kind = .leftParen)
  (isRight : right.kind = .rightParen) (isCloser : closer.kind = .endSub)
  (isLine : line.kind = .newline) (local_ : Local u) (first : (u.headD closer).kind = .newline)
include isSub isName isLeft isRight isCloser isLine local_ first

/-- A function is read up to its own end, whatever follows. -/
theorem blind_functionDeclaration : ∃ decl s', s'.discard = s.discard ∧
    Blind B (functionDeclaration (unroll n)) s (sub :: name :: left :: right :: (u ++ [closer, line]))
      (some (.declare ⟨name.text, name.range⟩ decl)) s' [line] := by
  obtain ⟨s₁, mark₁, readName⟩ := Blind.declaredName (s := s) isName
    (u := left :: right :: (u ++ [closer, line]))
  obtain ⟨body, s₂, mark₂, readBody⟩ := Blind.block (B := B) (n := n)
    (s := s₁.atFunctions (s₁.functions + 1)) (Nat.succ_pos _) isCloser isLine local_
  have open_ : Blind B (isAt .rightParen) s₁ (right :: (u ++ [closer, line])) (some true) s₁
      (right :: (u ++ [closer, line])) := .inspect fun _ _ _ => decide_eq_true isRight
  have params : Blind B (parameters (unroll n)) s₁ (right :: (u ++ [closer, line])) (some []) s₁
      (u ++ [closer, line]) :=
    open_.bind (Blind.pure.bind ((Blind.expect isRight).bind .pure))
  have untyped : Blind B (asType .void) s₁ (u ++ [closer, line]) (some .void) s₁
      (u ++ [closer, line]) := by
    refine Blind.bind (a := false) (.inspect fun after finish _ => ?_) .pure
    rw [kind_upTo_append, first]
    rfl
  have ended : Blind B (closeFunction true) (s₂.atFunctions (s₂.functions - 1)) [closer, line]
      (some ()) (s₂.atFunctions (s₂.functions - 1)) [line] := by
    have at_ : Blind B Parser.kind (s₂.atFunctions (s₂.functions - 1)) [closer, line] (some .endSub)
        (s₂.atFunctions (s₂.functions - 1)) [closer, line] := .inspect fun _ _ _ => isCloser
    refine at_.bind ?_
    simp only [closesFunction, if_true]
    exact .advance
  have readRest : ∃ range, Blind B (functionRest (unroll n) sub.range true) s₁
      (left :: right :: (u ++ [closer, line])) (some ⟨true, [], .void, body, range⟩)
      (s₂.atFunctions (s₂.functions - 1)) [line] := by
    refine Blind.spanned_some (k := Function.mk true [] .void body) ?_ sub.range
    exact (Blind.expect isLeft).bind (params.bind (untyped.bind
      (readBody.inFunction.bind (ended.bind .pure))))
  obtain ⟨range, readRest⟩ := readRest
  have readSub : Blind B token s (sub :: name :: left :: right :: (u ++ [closer, line])) (some sub) s
      (sub :: name :: left :: right :: (u ++ [closer, line])) := .inspect fun _ _ _ => rfl
  refine ⟨⟨true, [], .void, body, range⟩, s₂.atFunctions (s₂.functions - 1), mark₂.trans mark₁,
    readSub.bind (Blind.advance.bind (readName.bind ?_))⟩
  simp only [isSub, decide_true]
  exact readRest.bind .pure

theorem blind_statementBody : ∃ decl s', s'.discard = s.discard ∧
    Blind B (statementBody (unroll n)) s (sub :: name :: left :: right :: (u ++ [closer, line]))
      (some (.declare ⟨name.text, name.range⟩ decl)) s' [line] := by
  obtain ⟨decl, s', mark, blind⟩ :=
    blind_functionDeclaration (n := n) (s := s) isSub isName isLeft isRight isCloser isLine local_
      first
  generalize tokens : sub :: name :: left :: right :: (u ++ [closer, line]) = v at blind ⊢
  have noTarget : Blind B (inspect State.atTarget) s v (some false) s v := by
    refine .inspect fun after finish _ => ?_
    rw [← tokens]
    change (sub.kind.isWord && name.kind.isAssignment) = false
    rw [isName]
    exact Bool.and_false _
  have noLabel : Blind B (inspect State.atLabel) s v (some false) s v := by
    refine .inspect fun after finish _ => ?_
    rw [← tokens]
    change (decide (sub.kind = .identifier) && _ && _) = false
    rw [isSub]
    rfl
  have at_ : Blind B kind s v (some .sub) s v :=
    .inspect fun after finish _ => by rw [← tokens]; exact isSub
  exact ⟨decl, s', mark, noTarget.bind (noLabel.bind (at_.bind blind))⟩

theorem blind_statement (shallow : s.nesting < maxNesting) : ∃ decl s', s'.discard = s.discard ∧
    Blind B (unroll (n + 1)).statement s (sub :: name :: left :: right :: (u ++ [closer, line]))
      (some (.declare ⟨name.text, name.range⟩ decl)) s' [line] := by
  obtain ⟨decl, t, unmarked, blind⟩ := blind_statementBody (B := B) (n := n)
    (s := (s.atNesting (s.nesting + 1)).withDiscard false) isSub isName isLeft isRight isCloser
    isLine local_ first
  have dropped := blind.droppable
  rw [unmarked] at dropped
  exact ⟨decl, (t.withDiscard s.discard).atNesting (t.nesting - 1), rfl, dropped.nested shallow⟩

theorem blind_statementRound (outside : s.functions = 0) (shallow : s.nesting < maxNesting) :
    ∃ decl s', s'.discard = s.discard ∧
      Blind B (statementRound (unroll (n + 1)) []) s
        (sub :: name :: left :: right :: (u ++ [closer, line]))
        (some (some [.declare ⟨name.text, name.range⟩ decl])) s' [line] := by
  obtain ⟨decl, s', mark, blind⟩ :=
    blind_statement (n := n) isSub isName isLeft isRight isCloser isLine local_ first shallow
  generalize tokens : sub :: name :: left :: right :: (u ++ [closer, line]) = v at blind ⊢
  have at_ : Blind B kind s v (some .sub) s v :=
    .inspect fun after finish _ => by rw [← tokens]; exact isSub
  have open_ : Blind B (inspect (State.closes · [])) s v (some false) s v :=
    .inspect fun after finish _ => by
      have outside' : (s.upTo v after finish).functions = 0 := outside
      simp [State.closes, outside']
  have lineKind (after : List Token) (finish : Position) :
      (s'.upTo [line] after finish).kind = .newline := isLine
  have code : Blind B (isAt .comment) s' [line] (some false) s' [line] :=
    .inspect fun after finish _ => by rw [lineKind]; rfl
  have uncommented : Blind B trailingComment s' [line] (some []) s' [line] := code.bind .pure
  have ended : Blind B kind s' [line] (some .newline) s' [line] :=
    .inspect fun after finish _ => lineKind after finish
  have finished (st : Stmt) : Blind B (finishStatement st) s' [line] (some []) s' [line] := by
    refine uncommented.bind (ended.bind ?_)
    exact .pure
  exact ⟨decl, s', mark, at_.bind (open_.bind (blind.attemptPast_some.bind
    ((finished _).bind .pure)))⟩

end Function
end Blind

theorem local_body {body : List Token} {first last : Token}
    (kinds : ∀ t ∈ body,
      t.kind ∉ [Kind.function, .sub, .endFunction, .endSub, .leftCurly, .endOfFile])
    (firstKind : first.kind = .newline) (lastKind : last.kind = .newline) :
    Local (first :: body ++ [last]) where
  kinds t mem := by
    simp only [List.cons_append, List.mem_cons, List.mem_append, List.not_mem_nil, or_false] at mem
    rcases mem with rfl | mem | rfl
    · rw [firstKind]
      rfl
    · have := kinds t mem
      cases kind : t.kind <;> simp [kind] at this ⊢ <;> rfl
    · rw [lastKind]
      rfl
  line t same := by
    rw [List.getLast?_concat, Option.some.injEq] at same
    exact same ▸ lastKind

/- At the end of the list there is nothing to read, wherever that is. -/
theorem run_statements_nil (g : Grammar) (empty : s.rest.items = []) :
    (statements g []).run s = (some [], s) := by
  have file : s.kind = .endOfFile := by
    simp only [State.kind, State.token, Input.head?, empty]
    rfl
  have round : (statementRound g []).run s = (some none, s) := by
    have look : kind.run s = (some .endOfFile, s) := file ▸ rfl
    rw [statementRound, run_bind, look]
    rfl
  exact run_loop_done (run_manyRound_none round)

theorem run_statements_behind {mode : Mode} {rest : List Token} {all : List Stmt} {t : State}
    (run : (statements g []).run (.start mode rest) = (some all, t)) (before : List Token) :
    ∃ t', (statements g []).run ((State.start mode []).upTo [] rest
      (State.start mode (before ++ rest)).finish) = (some all, t') ∧
        t'.diagnostics = t.diagnostics := by
  cases rest with
  | nil =>
    rw [run_statements_nil g rfl] at run
    obtain ⟨rfl, rfl⟩ : [] = all ∧ State.start mode [] = t := by simpa using run
    exact ⟨_, run_statements_nil g rfl, rfl⟩
  | cons first rest =>
    have finish : (State.start mode (before ++ first :: rest)).finish =
        (State.start mode (first :: rest)).finish := by
      simp [State.start, List.getLast?_append, List.getLast?_cons]
    rw [finish]
    exact ⟨t, run, rfl⟩

end Parser

open BrightScript.Parser in
/-- Errors stay inside their function. Whatever its body is, as long as no token in it opens or
closes a function, opens an associative array or ends the file, the function is read as one
declaration, and what follows it is read as if it stood alone. -/
theorem parse_function_append (mode : Mode) {header body footer : List Token}
    (headerKinds : header.map (·.kind) = [.sub, .identifier, .leftParen, .rightParen, .newline])
    (bodyKinds : ∀ t ∈ body,
      t.kind ∉ [Kind.function, .sub, .endFunction, .endSub, .leftCurly, .endOfFile])
    (footerKinds : footer.map (·.kind) = [.newline, .endSub, .newline]) :
    ∃ name f diagnostics, ∀ rest,
      parse mode (header ++ body ++ footer ++ rest) =
        ⟨.declare name f :: (parse mode rest).statements,
          diagnostics ++ (parse mode rest).diagnostics⟩ := by
  simp only [List.map_eq_cons_iff, List.map_eq_nil_iff] at headerKinds footerKinds
  obtain ⟨sub, _, rfl, isSub, name, _, rfl, isName, left, _, rfl, isLeft, right, _, rfl, isRight,
    first, _, rfl, isFirst, rfl⟩ := headerKinds
  obtain ⟨last, _, rfl, isLast, closer, _, rfl, isCloser, line, _, rfl, isLine, rfl⟩ := footerKinds
  let anything : List Token → Position → Prop := fun _ _ => True
  obtain ⟨decl, s, mark, blind⟩ := blind_statementRound (B := anything) (n := maxNesting)
    (s := State.start mode []) isSub isName isLeft isRight isCloser isLine
    (local_body bodyKinds isFirst isLast) isFirst rfl (Nat.zero_lt_succ _)
  generalize tokens :
    sub :: name :: left :: right :: ((first :: body ++ [last]) ++ [closer, line]) = before at blind
  have split : [sub, name, left, right, first] ++ body ++ [last, closer, line] = before := by
    rw [← tokens]
    simp
  have next : Blind anything (statementRound grammar []) s [line] (some (some [])) s [] := by
    have at_ : Blind anything kind s [line] (some .newline) s [line] :=
      .inspect fun _ _ _ => isLine
    exact at_.bind (Blind.advance.bind .pure)
  refine ⟨⟨name.text, name.range⟩, decl, s.diagnostics, fun rest => ?_⟩
  rw [split]
  -- the round that reads the function, the round that takes the line break, and those that follow
  have round (more found : List Stmt) {s t : State} {u v : List Token}
      (h : Blind anything (statementRound grammar []) s u (some (some more)) t v) :
      Blind anything (manyRound (statementRound grammar []) found) s u
        (some (.again (more.reverse ++ found))) t v := h.bind .pure
  have run : (Parser.statements grammar []).run (.start mode (before ++ rest)) =
      (loop (manyRound (statementRound grammar [])) [.declare ⟨name.text, name.range⟩ decl]).run
        (s.upTo [] rest (State.start mode (before ++ rest)).finish) := by
    refine ((round _ [] blind).run_loop ?_ trivial).trans ((round _ _ next).run_loop ?_ trivial)
    · rw [← split]
      simp
    · simp
  have advances := advances_of_run (blind.2 [] .origin trivial)
  have same : s.upTo [] rest (State.start mode (before ++ rest)).finish =
      ((State.start mode []).upTo [] rest (State.start mode (before ++ rest)).finish).behind
        s.diagnostics := by
    have mode' : s.mode = mode := advances.mode
    have nesting : s.nesting = 0 := advances.nesting
    have functions : s.functions = 0 := advances.functions
    have discard : s.discard = false := mark
    simp [State.upTo, State.behind, State.start, mode', nesting, functions, discard]
  obtain ⟨all, t, _, ends, _⟩ := (total_statementRound grammar []).many_ends
    ((consuming_unroll _).statementRound []) (.start mode rest)
  obtain ⟨t', ends', reports⟩ := run_statements_behind ends before
  rw [run_loop_manyRound, same, Parser.framed] at run
  change _ = (Option.map _ ((Parser.statements grammar []).run _).1,
    ((Parser.statements grammar []).run _).2.behind s.diagnostics) at run
  rw [ends'] at run
  rw [parse_of_run run, parse_of_run ends, ← reports]
  rfl

/-- An unclosed `if`, an unclosed call, an unclosed array and a stray `next` do not reach past the
function that they stand in. -/
theorem parse_function_append_unclosed :
    ∃ name f diagnostics, ∀ rest,
      parse .brightScript ((scan "sub f()\n").tokens.dropLast ++
          (scan "if a then\nx = g(1,\n[2\nnext").tokens.dropLast ++
          (scan "\nend sub\n").tokens.dropLast ++ rest) =
        ⟨.declare name f :: (parse .brightScript rest).statements,
          diagnostics ++ (parse .brightScript rest).diagnostics⟩ :=
  parse_function_append .brightScript (by decide +kernel) (by decide +kernel) (by decide +kernel)

end BrightScript
