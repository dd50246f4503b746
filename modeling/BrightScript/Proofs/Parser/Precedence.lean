import BrightScript.Proofs.Parser.Verge
import BrightScript.Proofs.Tree.Operators

/-! Precedence.
The loop over operators, with the recursion for right operands in it, climbs. So a chain of
operators is read as its ordered tree. -/
namespace BrightScript
namespace Parser

variable {chain : Chain} {tree : OperatorTree}

/-- What ends a text: nothing more, or an end-of-file token. -/
structure Ending where
  after : List Token
  finish : Position
  file : ∀ t, after.head? = some t → t.kind = .endOfFile

namespace Ending

variable (e : Ending) (s : State)

/-- The state with the tokens `u` left before the end of the text. -/
def at_ (u : List Token) : State := s.upTo u e.after e.finish

theorem kind_nil : (e.at_ s []).kind = .endOfFile := by
  have file := e.file
  obtain ⟨after, finish, _⟩ := e
  cases after with
  | nil => rfl
  | cons t after => exact file t rfl

theorem drop_cons (t : Token) (u : List Token) : (e.at_ s (t :: u)).drop 1 = e.at_ s u :=
  s.drop_upTo [t] u e.after e.finish

theorem size_lt (t : Token) (u w : List Token) (suffix : w <:+ u) :
    (e.at_ s w).rest.size < (e.at_ s (t :: u)).rest.size := by
  rw [at_, at_, State.size_upTo, State.size_upTo, List.length_cons]
  have := suffix.length_le
  omega

end Ending

variable {e : Ending} {s : State}

theorem kind_chain_ne (chain : Chain) {k : Kind} (other : k.group? = none) (inner : k ≠ .endOfFile) :
    (e.at_ s chain.tokens).kind ≠ k := by
  cases chain with
  | nil => exact fun same => inner (same.symm.trans (e.kind_nil s))
  | cons next chain => exact next.1.kind_ne other

theorem reads_primary (g : Grammar) (a : Operand) (u : List Token) :
    Reads (primary g) (e.at_ s (a.token :: u)) a.expr (e.at_ s u) := by
  obtain ⟨token, single⟩ := a
  refine reads_bind.mpr ⟨token, _, reads_token.mpr ⟨rfl, rfl⟩, ?_⟩
  by_cases name : token.kind = .identifier
  · have var : Operand.expr ⟨token, single⟩ = .var ⟨token.text, token.range⟩ := if_pos name
    rw [var, name]
    exact reads_map.mpr ⟨_, reads_takeIdent.mpr ⟨rfl, e.drop_cons s token u⟩, rfl⟩
  · have literal : token.kind.isLiteral = true := by simpa [name] using single
    have lit : Operand.expr ⟨token, single⟩ = .literal ⟨token.kind, token.text, token.range⟩ :=
      if_neg name
    rw [lit]
    split
    all_goals try
      rename_i other
      rw [other] at literal
      cases literal
    rw [if_pos literal]
    exact reads_bind.mpr ⟨(), _, reads_advance.mpr (e.drop_cons s token u),
      reads_pure.mpr ⟨rfl, rfl⟩⟩

theorem reads_operand (g : Grammar) (a : Operand) (chain : Chain) :
    Reads (operand g) (e.at_ s (a.token :: chain.tokens)) a.expr (e.at_ s chain.tokens) := by
  have plain : isPrefixOperator a.token.kind = false := by
    have single := a.single
    revert single
    cases a.token.kind <;> intro single <;> first | rfl | cases single
  refine reads_bind.mpr ⟨a.token.kind, _, reads_kind.mpr ⟨rfl, rfl⟩, ?_⟩
  rw [plain]
  refine reads_bind.mpr ⟨a.expr, _, reads_primary g a chain.tokens, reads_loop.mpr (.inl ?_)⟩
  refine reads_bind.mpr ⟨_, _, reads_kind.mpr ⟨rfl, rfl⟩, ?_⟩
  split
  · next opens => exact absurd opens (kind_chain_ne chain rfl (by decide))
  · next opens => exact absurd opens (kind_chain_ne chain rfl (by decide))
  · next opens => exact absurd opens (kind_chain_ne chain rfl (by decide))
  · exact reads_pure.mpr ⟨rfl, rfl⟩

theorem reads_binaryRound_stop {operandAt : Nat → Parser Expr} {level : Nat} {left : Expr}
    (loose : ∀ next ∈ chain.head?, next.1.level ≤ level) :
    Reads (binaryRound operandAt level left) (e.at_ s chain.tokens) (.done left)
      (e.at_ s chain.tokens) := by
  refine reads_bind.mpr ⟨_, _, reads_token.mpr ⟨rfl, rfl⟩, ?_⟩
  cases chain with
  | nil =>
    have kind : (e.at_ s (Chain.tokens [])).token.kind = .endOfFile := e.kind_nil s
    rw [kind]
    exact reads_pure.mpr ⟨rfl, rfl⟩
  | cons next chain =>
    have kind : (e.at_ s (Chain.tokens (next :: chain))).token.kind.precedence? =
        some next.1.level := next.1.precedence?
    rw [kind]
    dsimp only
    rw [if_neg (Nat.not_lt_of_le (loose next rfl))]
    exact reads_pure.mpr ⟨rfl, rfl⟩

theorem reads_binaryRound_take {operandAt : Nat → Parser Expr} {level : Nat}
    {left right : OperatorTree} {c : Connective} {u w : List Token} (tighter : level < c.level)
    (operand : Reads (operandAt c.level) (e.at_ s u) right.expr (e.at_ s w)) :
    Reads (binaryRound operandAt level left.expr) (e.at_ s (c.token :: u))
      (.again (OperatorTree.node left c right).expr) (e.at_ s w) := by
  refine reads_bind.mpr ⟨c.token, _, reads_token.mpr ⟨rfl, rfl⟩, ?_⟩
  rw [c.precedence?]
  dsimp only
  rw [if_pos tighter]
  refine reads_bind.mpr ⟨(), _, reads_advance.mpr (e.drop_cons s c.token u), ?_⟩
  exact reads_bind.mpr ⟨right.expr, _, operand, reads_pure.mpr ⟨rfl, rfl⟩⟩

/- The depth of the recursion runs out no sooner than the levels do. -/
theorem reads_binaryRest (g : Grammar) {level : Nat} {left : OperatorTree} {beyond : Chain}
    (climbs : Climbs level left chain tree beyond) {depth : Nat}
    (deep : tightestLevel ≤ depth + level) :
    Reads (binaryRest (binaryFrom (operand g) depth) level left.expr) (e.at_ s chain.tokens)
      tree.expr (e.at_ s beyond.tokens) := by
  induction climbs generalizing depth with
  | stop loose => exact reads_loop.mpr (.inl (reads_binaryRound_stop loose))
  | @take level left right tree c a chain between beyond tighter climbs _ ih ih' =>
    have tightest := c.level_le_tightest
    obtain ⟨depth, rfl⟩ : ∃ less, depth = less + 1 := ⟨depth - 1, by omega⟩
    have operand : Reads (binaryFrom (operand g) (depth + 1) c.level)
        (e.at_ s (a.token :: chain.tokens)) right.expr (e.at_ s between.tokens) :=
      reads_bind.mpr ⟨a.expr, _, reads_operand g a chain, ih (by omega)⟩
    have shorter : between.tokens <:+ a.token :: chain.tokens := by
      have split : chain = right.rest ++ between := climbs.reading.2
      rw [split, Chain.tokens_append]
      exact (List.suffix_append _ _).trans (List.suffix_cons _ _)
    refine reads_loop.mpr (.inr ⟨_, _, reads_binaryRound_take tighter operand, ?_, ih' deep⟩)
    exact e.size_lt s c.token _ _ shorter

theorem reads_expression (g : Grammar) {a : Operand}
    (climbs : Climbs conditionalLevel (.leaf a) chain tree []) (shallow : s.nesting < maxNesting) :
    Reads (expression g) (e.at_ s (a.token :: chain.tokens)) tree.expr (e.at_ s []) := by
  let inner := s.atNesting (s.nesting + 1)
  have test : Reads (binary (operand g) conditionalLevel) (e.at_ inner (a.token :: chain.tokens))
      tree.expr (e.at_ inner []) :=
    reads_bind.mpr ⟨a.expr, _, reads_operand g a chain, reads_binaryRest g climbs (by decide)⟩
  have rest : Reads (conditionalRest g tree.expr) (e.at_ inner []) tree.expr (e.at_ inner []) := by
    refine reads_bind.mpr ⟨false, _, reads_isAt.mpr ⟨?_, rfl⟩, reads_pure.mpr ⟨rfl, rfl⟩⟩
    rw [e.kind_nil]
    rfl
  exact reads_nested.mpr ⟨shallow, e.at_ inner [], reads_bind.mpr ⟨_, _, test, rest⟩, rfl⟩

theorem reads_assignment (n : Nat) {x sign : Token} {a : Operand}
    (climbs : Climbs conditionalLevel (.leaf a) chain tree []) (shallow : s.nesting < maxNesting)
    (name : x.kind = .identifier) (free : isReserved x.text = false) :
    Reads (assignment (unroll (n + 1))) (e.at_ s (x :: sign :: a.token :: chain.tokens))
      (.assign ⟨x.text, x.range⟩ sign.kind tree.expr (x.range.union tree.expr.range))
      (e.at_ s []) := by
  have declared : Reads declaredName (e.at_ s (x :: sign :: a.token :: chain.tokens))
      ⟨x.text, x.range⟩ (e.at_ s (sign :: a.token :: chain.tokens)) := by
    refine reads_bind.mpr ⟨x.kind, _, reads_kind.mpr ⟨rfl, rfl⟩, ?_⟩
    rw [name, if_pos (by decide)]
    refine reads_bind.mpr ⟨⟨x.text, x.range⟩, _, reads_takeIdent.mpr ⟨rfl, e.drop_cons s x _⟩, ?_⟩
    simp [free]
  have value : Reads (assignedValue (unroll (n + 1))) (e.at_ s (sign :: a.token :: chain.tokens))
      (sign.kind, tree.expr) (e.at_ s []) := by
    refine reads_bind.mpr ⟨sign.kind, _, reads_kind.mpr ⟨rfl, rfl⟩, ?_⟩
    refine reads_bind.mpr ⟨(), _, reads_advance.mpr (e.drop_cons s sign _), ?_⟩
    exact reads_bind.mpr ⟨_, _, reads_expression (unroll n) climbs shallow,
      reads_pure.mpr ⟨rfl, rfl⟩⟩
  refine reads_bind.mpr ⟨_, _, declared, reads_bind.mpr ⟨_, _, value, ?_⟩⟩
  exact reads_pure.mpr ⟨rfl, rfl⟩

theorem reads_statement (n : Nat) {x sign : Token} {a : Operand}
    (climbs : Climbs conditionalLevel (.leaf a) chain tree [])
    (shallow : s.nesting + 1 < maxNesting) (name : x.kind = .identifier)
    (free : isReserved x.text = false) (assigns : sign.kind = .equal) :
    Reads (unroll (n + 2)).statement (e.at_ s (x :: sign :: a.token :: chain.tokens))
      (.assign ⟨x.text, x.range⟩ .equal tree.expr (x.range.union tree.expr.range)) (e.at_ s []) := by
  let outer := s.atNesting (s.nesting + 1)
  let inner := outer.withDiscard false
  have body : Reads (statementBody (unroll (n + 1)))
      (e.at_ inner (x :: sign :: a.token :: chain.tokens))
      (.assign ⟨x.text, x.range⟩ .equal tree.expr (x.range.union tree.expr.range))
      (e.at_ inner []) := by
    have target : (e.at_ inner (x :: sign :: a.token :: chain.tokens)).atTarget = true := by
      change (x.kind.isWord && sign.kind.isAssignment) = true
      rw [name, assigns]
      rfl
    refine reads_bind.mpr ⟨true, _, reads_inspect.mpr ⟨target, rfl⟩, ?_⟩
    rw [← assigns]
    exact reads_assignment n climbs shallow name free
  have kept : Reads (droppable (statementBody (unroll (n + 1))))
      (e.at_ outer (x :: sign :: a.token :: chain.tokens)) _ (e.at_ outer []) :=
    reads_droppable.mpr ⟨e.at_ inner [], body, rfl⟩
  change Reads (nested (droppable (statementBody (unroll (n + 1))))) _ _ _
  exact reads_nested.mpr ⟨Nat.lt_of_succ_lt shallow, e.at_ outer [], kept, rfl⟩

theorem reads_finishStatement (st : Stmt) :
    Reads (finishStatement st) (e.at_ s []) [] (e.at_ s []) := by
  have none : Reads trailingComment (e.at_ s []) [] (e.at_ s []) := by
    refine reads_bind.mpr ⟨false, _, reads_isAt.mpr ⟨?_, rfl⟩, reads_pure.mpr ⟨rfl, rfl⟩⟩
    rw [e.kind_nil]
    rfl
  refine reads_bind.mpr ⟨[], _, none, ?_⟩
  refine reads_bind.mpr ⟨_, _, reads_kind.mpr ⟨e.kind_nil s, rfl⟩, ?_⟩
  exact reads_pure.mpr ⟨rfl, rfl⟩

theorem reads_statements {g : Grammar} {x : Token} {u : List Token} {st : Stmt}
    (outside : s.functions = 0) (unmarked : s.discard = false) (name : x.kind = .identifier)
    (statement : Reads g.statement (e.at_ s (x :: u)) st (e.at_ s [])) :
    Reads (statements g []) (e.at_ s (x :: u)) [st] (e.at_ s []) := by
  have round : Reads (statementRound g []) (e.at_ s (x :: u)) (some [st]) (e.at_ s []) := by
    refine reads_bind.mpr ⟨.identifier, _, reads_kind.mpr ⟨name, rfl⟩, ?_⟩
    have open_ : (e.at_ s (x :: u)).closes [] = false := by
      have level : (e.at_ s (x :: u)).functions = 0 := outside
      simp [State.closes, level]
    refine reads_bind.mpr ⟨false, _, reads_inspect.mpr ⟨open_, rfl⟩, ?_⟩
    have found : Reads (attemptPast g.statement) (e.at_ s (x :: u)) (some st) (e.at_ s []) :=
      (reads_attemptPast (s := e.at_ s (x :: u)) unmarked).mpr ⟨st, rfl, statement⟩
    refine reads_bind.mpr ⟨some st, _, found, ?_⟩
    exact reads_bind.mpr ⟨[], _, reads_finishStatement st, reads_pure.mpr ⟨rfl, rfl⟩⟩
  have last : Reads (statementRound g []) (e.at_ s []) none (e.at_ s []) := by
    refine reads_bind.mpr ⟨.endOfFile, _, reads_kind.mpr ⟨e.kind_nil s, rfl⟩, ?_⟩
    exact reads_pure.mpr ⟨rfl, rfl⟩
  refine reads_many.mpr (.inr ⟨[st], [], _, rfl, round, ?_, reads_many.mpr (.inl ⟨rfl, last⟩)⟩)
  exact e.size_lt s x u [] (List.nil_suffix)

end Parser

open BrightScript.Parser in
/-- A chain of operators that is assigned to a name is read without a report, and as the one tree
that reads from left to right as the chain does, has no right operand that binds as loosely as its
operator and no left operand that binds more loosely. -/
theorem parse_operator_chain (mode : Mode) (x sign : Token) (first : Operand) (chain : Chain)
    (tail : List Token) (name : x.kind = .identifier) (free : isReserved x.text = false)
    (assigns : sign.kind = .equal) (ends : ∀ t, tail.head? = some t → t.kind = .endOfFile) :
    ∃ tree : OperatorTree,
      parse mode (x :: sign :: first.token :: (chain.tokens ++ tail)) =
        ⟨[.assign ⟨x.text, x.range⟩ .equal tree.expr (x.range.union tree.expr.range)], []⟩ ∧
      ∀ t : OperatorTree, (t.first = first ∧ t.rest = chain ∧ t.Ordered) ↔ t = tree := by
  obtain ⟨tree, climbs, unique⟩ := OperatorTree.exists_unique_ordered first chain
  refine ⟨tree, ?_, unique⟩
  let tokens := x :: sign :: first.token :: (chain.tokens ++ tail)
  let e : Ending := ⟨tail, (State.start mode tokens).finish, ends⟩
  have statement : Reads grammar.statement
      (e.at_ (.start mode []) (x :: sign :: first.token :: chain.tokens)) _ _ :=
    reads_statement 199 climbs (show 0 + 1 < maxNesting by decide) name free assigns
  have run : (statements grammar []).run (.start mode tokens) = (some [_], _) :=
    (reads_statements rfl rfl name statement).1
  exact parse_of_run run

/-- Subtraction goes from left to right and a product binds tighter. -/
theorem parse_operator_chain_minus :
    let word (k : Kind) (text : String) : Token := ⟨k, text, .empty .origin, none⟩
    let a : Operand := ⟨word .identifier "a", rfl⟩
    let b : Operand := ⟨word .integerLiteral "2", rfl⟩
    let c : Operand := ⟨word .identifier "c", rfl⟩
    let d : Operand := ⟨word .true_ "true", rfl⟩
    let minus : Connective := ⟨word .minus "-", rfl⟩
    let star : Connective := ⟨word .star "*", rfl⟩
    let tree : OperatorTree :=
      .node (.node (.leaf a) minus (.leaf b)) minus (.node (.leaf c) star (.leaf d))
    parse .brightScript [word .identifier "x", word .equal "=", a.token, minus.token, b.token,
        minus.token, c.token, star.token, d.token] =
      ⟨[.assign ⟨"x", .empty .origin⟩ .equal tree.expr
        ((Range.empty .origin).union tree.expr.range)], []⟩ := by
  intro word a b c d minus star tree
  obtain ⟨found, parsed, unique⟩ := parse_operator_chain .brightScript (word .identifier "x")
    (word .equal "=") a [(minus, b), (minus, c), (star, d)] [] rfl (by decide +kernel) rfl
    (fun _ head => by cases head)
  have ordered : tree.Ordered := by decide
  obtain rfl : tree = found := (unique tree).mp ⟨rfl, rfl, ordered⟩
  exact parsed

end BrightScript
