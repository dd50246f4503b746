import BrightScript.Proofs.Parser.Reads
import BrightScript.Proofs.Tree.Path

/-! Properties that go up the tree.
What holds of a node as soon as it holds of the parts right below it holds of all that is found, if
it holds where a level of nesting is taken. A statement that is marked is dropped, so inside of a
statement the property only matters where no mark is left. -/
namespace BrightScript

def Expr.ordinary : Expr → Bool
  | unary _ _ _ | conditional _ _ _ _ => false
  | _ => true

namespace Parser

variable {α β σ : Type}

/-- What `p` finds at that level of nesting has the property; if the check is not `total`, only
where the statement is not to be discarded. -/
def Finds (mode : Mode) (n : Nat) (total : Bool) (p : Parser α) (P : α → Prop) : Prop :=
  ∀ s a s', s.mode = mode → s.nesting = n → p.run s = (some a, s') →
    (total || !s'.discard) = true → P a

theorem State.Advances.unmarked {s s' : State} {total : Bool} (h : s.Advances s')
    (kept : (total || !s'.discard) = true) : (total || !s.discard) = true := by
  cases marked : s.discard with
  | false => simp
  | true => simpa [h.marked marked] using kept

namespace Finds

variable {mode : Mode} {n : Nat} {total : Bool} {p : Parser α} {P : α → Prop} {R : β → Prop}

theorem any : Finds mode n total p fun _ => True := fun _ _ _ _ _ _ _ => trivial

theorem of_total (h : Finds mode n true p P) : Finds mode n total p P :=
  fun s a s' language level run _ => h s a s' language level run rfl

theorem pure {a : α} (h : P a) : Finds mode n total (pure a) P := by
  rintro _ _ _ _ _ ⟨⟩ _
  exact h

theorem never (fails : ∀ s, (p.run s).1 = none) : Finds mode n total p P := by
  intro s a s' _ _ run _
  cases (fails s).symm.trans (congrArg Prod.fst run)

theorem bind {f : α → Parser β} (first : Finds mode n total p P)
    (second : ∀ a, P a → Finds mode n total (f a) R) : Finds mode n total (p >>= f) R := by
  intro s b s'' language level run kept
  obtain ⟨a, s', head, tail⟩ := run_bind_eq_some.mp run
  have before := advances_of_run head
  have after := advances_of_run tail
  have holds := first s a s' language level head (after.unmarked kept)
  exact second a holds s' b s'' (before.mode.trans language) (before.nesting.trans level) tail kept

theorem then_ {f : α → Parser β} (second : ∀ a, Finds mode n total (f a) R) :
    Finds mode n total (p >>= f) R :=
  any.bind fun a _ => second a

theorem map {f : α → β} (h : Finds mode n total p P) (image : ∀ a, P a → R (f a)) :
    Finds mode n total (f <$> p) R :=
  h.bind fun a holds => .pure (image a holds)

theorem spanned {first : Range} {p : Parser (Range → α)}
    (h : Finds mode n total p fun node => ∀ range, P (node range)) :
    Finds mode n total (spanned first p) P := by
  intro s a s' language level run kept
  simp only [run_spanned] at run
  split at run
  · rename_i node t inner
    obtain ⟨rfl, rfl⟩ : node _ = a ∧ t = s' := by simpa using run
    exact h s node t language level inner kept _
  · cases run

theorem ranged {p : Parser (Range → α)}
    (h : Finds mode n total p fun node => ∀ range, P (node range)) :
    Finds mode n total (ranged p) P :=
  then_ fun _ => spanned h

theorem withCleanup {cleanup : Parser Unit} (h : Finds mode n total p P) :
    Finds mode n total (withCleanup p cleanup) P := by
  intro s a s' language level run kept
  simp only [run_withCleanup] at run
  split at run
  · rename_i b t inner
    obtain ⟨rfl, rfl⟩ : b = a ∧ t = s' := by simpa using run
    exact h s b t language level inner kept
  · cases run

theorem attemptPast (h : Finds mode n total p P) :
    Finds mode n total (attemptPast p) fun r => ∀ a, r = some a → P a := by
  rintro s _ s' language level run kept a rfl
  simp only [run_attemptPast] at run
  split at run
  · rename_i b t inner
    obtain ⟨rfl, rfl⟩ : b = a ∧ t = s' := by simpa using run
    exact h s b t language level inner kept
  · simp at run

/-- One level is taken, so there has to be one. -/
theorem nested (h : n < maxNesting → Finds mode (n + 1) total p P) :
    Finds mode n total (nested p) P := by
  rintro s a s' language rfl run kept
  simp only [run_nested] at run
  split at run
  · cases run
  · rename_i shallow
    obtain ⟨result, rfl⟩ := Prod.mk.inj run
    exact h (Nat.lt_of_not_le shallow) (s.atNesting (s.nesting + 1)) a _ language rfl
      (Prod.ext result rfl) kept

theorem inFunction (h : Finds mode n total p P) : Finds mode n total (inFunction p) P := by
  intro s a s' language level run kept
  obtain ⟨result, rfl⟩ := Prod.mk.inj run
  exact h (s.atFunctions (s.functions + 1)) a _ language level (Prod.ext result rfl) kept

theorem droppable (h : Finds mode n false p P) : Finds mode n total (droppable p) P := by
  intro s a s' language level run _
  simp only [run_droppable, Prod.mk.injEq] at run
  have result := run.1
  split at result
  · cases result
  · rename_i unmarked
    exact h (s.withDiscard false) a _ language level (Prod.ext result rfl) (by simpa using unmarked)

/- The invariant holds of what a loop carries from round to round. -/
theorem loop {round : σ → Parser (Round σ α)} {I : σ → Prop} {x : σ} (start : I x)
    (step : ∀ x, I x → Finds mode n total (round x) (Round.Holds I P)) :
    Finds mode n total (loop round x) P := by
  intro s a s' language level run kept
  induction x, s using loop_induction round with
  | again x s y t h less ih =>
    rw [run_loop_again h less] at run
    have before := advances_of_run h
    have after := advances_of_run run
    exact ih (step x start s _ t language level h (after.unmarked kept))
      (before.mode.trans language) (before.nesting.trans level) run
  | stuck x s y t h stuck =>
    rw [run_loop_stuck h stuck] at run
    cases run
  | done x s b t h =>
    rw [run_loop_done h] at run
    obtain ⟨rfl, rfl⟩ : b = a ∧ t = s' := by simpa using run
    exact step x start s _ t language level h kept
  | failed x s t h =>
    rw [run_loop_failed h] at run
    cases run

theorem many {round : Parser (Option (List α))}
    (h : Finds mode n total round fun r => ∀ found, r = some found → ∀ a ∈ found, P a) :
    Finds mode n total (many round) fun all => ∀ a ∈ all, P a := by
  refine loop (I := fun found => ∀ a ∈ found, P a) (by simp) fun found holds => ?_
  refine h.bind fun r more => ?_
  cases r with
  | none => exact .pure fun a mem => holds a (List.mem_reverse.mp mem)
  | some list =>
    refine .pure fun a mem => ?_
    rcases List.mem_append.mp mem with inList | inFound
    · exact more list rfl a (List.mem_reverse.mp inList)
    · exact holds a inFound

end Finds

/-- A property of nodes in their places, at the level of nesting where they are read. A node has it
if its parts do. -/
structure Inherited (mode : Mode) (T : Nat → Slot → Prop) : Prop where
  node : ∀ {n e}, e.ordinary = true → (T n (.operand e) ↔ ∀ q ∈ e.slots, T n q)
  conditional : mode = .brighterScript → ∀ {n test consequent alternate range},
    T n (.operand test) → T n (.value consequent) → T n (.value alternate) →
      T n (.operand (.conditional test consequent alternate range))
  signed : ∀ {n operator e range}, n < maxNesting → T (n + 1) (.operand e) →
    T n (.operand (.unary operator e range))
  whole : ∀ {n e}, n < maxNesting → T (n + 1) (.operand e) → T n (.value e)
  listed : ∀ {n st}, n < maxNesting → (∀ q ∈ st.slots, T (n + 1) q) → T n (.statement st)
  comment : ∀ {n} c, T n (.statement (.comment c))

def Fit (T : Nat → Slot → Prop) (n : Nat) (slots : List Slot) : Prop := ∀ q ∈ slots, T n q

abbrev Inner (T : Nat → Slot → Prop) (n : Nat) (e : Expr) : Prop := T n (.operand e)

abbrev Whole (T : Nat → Slot → Prop) (n : Nat) (e : Expr) : Prop := T n (.value e)

def Listed (T : Nat → Slot → Prop) (n : Nat) (stmts : List Stmt) : Prop :=
  ∀ st ∈ stmts, T n (.statement st)

/-- The routines one level further in find what has the property. -/
structure Inherits (mode : Mode) (T : Nat → Slot → Prop) (g : Grammar) : Prop
    extends Inherited mode T where
  expression : ∀ {n}, Finds mode n false g.expression (Whole T n)
  operand : ∀ {n}, Finds mode n false g.operand (Inner T n)
  statement : ∀ {n}, Finds mode n true g.statement fun st => T n (.statement st)

theorem listed_nil {T : Nat → Slot → Prop} {n : Nat} : Listed T n [] := fun _ mem => by cases mem

theorem fit_makeBlock {T : Nat → Slot → Prop} {n : Nat} (start : Range) {stmts : List Stmt}
    (listed : Listed T n stmts) : Fit T n (makeBlock start stmts).slots := by
  have same : (makeBlock start stmts).statements = stmts := by
    unfold makeBlock
    split <;> rfl
  rw [Block.slots, same]
  exact List.forall_mem_map.mpr listed

namespace Inherited

variable {mode : Mode} {T : Nat → Slot → Prop} {n : Nat} {total : Bool}

theorem listed_comment (t : Inherited mode T) (c : Comment) : Listed T n [.comment c] :=
  List.forall_mem_singleton.mpr (t.comment c)

theorem trailingComment (t : Inherited mode T) :
    Finds mode n total trailingComment (Listed T n) := by
  refine .then_ fun here => ?_
  cases here with
  | true => exact .then_ fun c => .pure (t.listed_comment c)
  | false => exact .pure listed_nil

theorem finishStatement (t : Inherited mode T) (st : Stmt) :
    Finds mode n total (finishStatement st) (Listed T n) := by
  refine t.trailingComment.bind fun comments listed => .then_ fun k => ?_
  split
  · exact .pure listed
  · refine .then_ fun _ => .then_ fun _ => ?_
    split <;> exact .then_ fun _ => .pure listed

end Inherited

namespace Inherits

variable {mode : Mode} {T : Nat → Slot → Prop} {g : Grammar} {n : Nat}

theorem noOption : Finds mode n false (Pure.pure none) (Fit T n <| optionSlots ·) :=
  .pure fun _ mem => by cases mem

theorem callStatement {e : Expr} (within : Inner T n e) :
    Finds mode n false (callStatement e) (Fit T n ·.slots) := by
  unfold Parser.callStatement
  split
  · exact .pure (List.forall_mem_singleton.mpr within)
  · exact .never fun _ => rfl

section

variable (h : Inherits mode T g)
include h

theorem statements (closers : List Kind) :
    Finds mode n true (statements g closers) (Listed T n) := by
  have none : ∀ found : List Stmt, some [] = some found → Listed T n found := by
    rintro _ ⟨⟩
    exact listed_nil
  refine .many (.then_ fun k => ?_)
  split
  · exact .then_ fun _ => .pure none
  · exact .then_ fun _ => .pure none
  · exact .pure fun _ same => by cases same
  · refine .then_ fun c => .pure ?_
    rintro _ ⟨⟩
    exact h.listed_comment c
  · refine .then_ fun closed => ?_
    cases closed with
    | true => exact .pure fun _ same => by cases same
    | false =>
      refine h.statement.attemptPast.bind fun r within => ?_
      cases r with
      | none => exact .then_ fun _ => .pure none
      | some st =>
        refine (h.finishStatement st).bind fun comments listed => .pure ?_
        rintro _ ⟨⟩
        exact List.forall_mem_cons.mpr ⟨within st rfl, listed⟩

theorem block (closers : List Kind) : Finds mode n true (block g closers) (Fit T n ·.slots) := by
  refine .then_ fun start => h.trailingComment.bind fun header first => ?_
  refine (h.statements closers).bind fun stmts rest => .pure ?_
  exact fit_makeBlock start (List.forall_mem_append.mpr ⟨first, rest⟩)

theorem option : Finds mode n false (some <$> g.expression) (Fit T n <| optionSlots ·) :=
  h.expression.map fun _ within => List.forall_mem_singleton.mpr within

theorem parameter : Finds mode n false (parameter g) (Fit T n ·.slots) := by
  refine .ranged (.then_ fun name => .then_ fun given => ?_)
  have rest (fallback : Option Expr) (fit : Fit T n (optionSlots fallback)) :
      Finds mode n false (do
        let type ← asType .dynamic
        checkFallback fallback type
        Pure.pure fun range => (⟨name, type, fallback, range⟩ : Parameter Expr))
        fun node => ∀ range, Fit T n (node range).slots :=
    .then_ fun type => .then_ fun _ => .pure fun range => fit
  cases given with
  | true => exact h.option.bind rest
  | false => exact noOption.bind rest

theorem parameterRound (seen : List (Parameter Expr) × Bool)
    (holds : ∀ p ∈ seen.1, Fit T n p.slots) :
    Finds mode n false (parameterRound g seen)
      (Round.Holds (∀ p ∈ ·.1, Fit T n p.slots) (∀ p ∈ ·, Fit T n p.slots)) := by
  refine h.parameter.bind fun p fit => ?_
  have more : ∀ q ∈ seen.1 ++ [p], Fit T n q.slots :=
    List.forall_mem_append.mpr ⟨holds, List.forall_mem_singleton.mpr fit⟩
  split
  · refine .then_ fun _ => .then_ fun comma => ?_
    cases comma <;> exact .pure more
  · refine .then_ fun comma => ?_
    cases comma <;> exact .pure more

theorem parameters : Finds mode n false (parameters g) (∀ p ∈ ·, Fit T n p.slots) := by
  refine .then_ fun closed => ?_
  cases closed with
  | true =>
    refine (Finds.pure (P := (∀ p ∈ ·, Fit T n p.slots)) (by simp)).bind fun params fit => ?_
    exact .then_ fun _ => .pure fit
  | false =>
    refine (Finds.loop (I := fun seen => ∀ p ∈ seen.1, Fit T n p.slots) (by simp)
      h.parameterRound).bind fun params fit => ?_
    exact .then_ fun _ => .pure fit

theorem functionRest (first : Range) (isSub : Bool) :
    Finds mode n false (functionRest g first isSub) (Fit T n ·.slots) := by
  refine .spanned (.then_ fun _ => h.parameters.bind fun params fit => .then_ fun returns => ?_)
  refine (h.block functionClosers).of_total.inFunction.bind fun body inner => .then_ fun _ => ?_
  refine .pure fun range => List.forall_mem_append.mpr ⟨?_, inner⟩
  exact List.forall_mem_flatMap.mpr fit

theorem arguments : Finds mode n false (arguments g) fun args => ∀ e ∈ args, Whole T n e := by
  have round (args : List Expr) (holds : ∀ e ∈ args, Whole T n e) :
      Finds mode n false (argumentRound g args)
        (Round.Holds (∀ e ∈ ·, Whole T n e) (∀ e ∈ ·, Whole T n e)) := by
    refine h.expression.bind fun e within => .then_ fun _ => .then_ fun comma => ?_
    have more : ∀ x ∈ args ++ [e], Whole T n x :=
      List.forall_mem_append.mpr ⟨holds, List.forall_mem_singleton.mpr within⟩
    cases comma with
    | true => exact .then_ fun _ => .pure more
    | false => exact .pure more
  refine .then_ fun _ => .then_ fun closed => ?_
  cases closed with
  | true =>
    refine (Finds.pure (P := (∀ e ∈ ·, Whole T n e)) (by simp)).bind
      fun args holds => ?_
    exact .then_ fun _ => .pure holds
  | false =>
    exact (Finds.loop (I := (∀ e ∈ ·, Whole T n e)) (by simp) round).bind fun args holds =>
      .then_ fun _ => .pure holds

theorem arrayLiteral : Finds mode n false (arrayLiteral g) (Inner T n) := by
  have round : Finds mode n false (elementRound g)
      fun r => ∀ found, r = some found → ∀ e ∈ found, Whole T n e := by
    refine .then_ fun _ => .then_ fun closed => ?_
    cases closed with
    | true => exact .pure fun _ same => by cases same
    | false =>
      refine h.expression.bind fun e within => .then_ fun _ => .pure ?_
      rintro _ ⟨⟩
      exact List.forall_mem_singleton.mpr within
  refine .ranged (.then_ fun _ => round.many.bind fun es holds => .then_ fun _ => ?_)
  exact .pure fun range => (h.node rfl).mpr (List.forall_mem_map.mpr holds)

theorem assocLiteral : Finds mode n false (assocLiteral g) (Inner T n) := by
  have round : Finds mode n false (memberRound g)
      fun r => ∀ found, r = some found → ∀ m ∈ found, Fit T n m.slots := by
    refine .then_ fun _ => .then_ fun k => ?_
    split
    · exact .pure fun _ same => by cases same
    split
    · refine .then_ fun c => .pure ?_
      rintro _ ⟨⟩
      exact List.forall_mem_singleton.mpr fun _ mem => by cases mem
    · refine .then_ fun start => .then_ fun key => .then_ fun _ => ?_
      refine h.expression.bind fun e within => .then_ fun _ => .pure ?_
      rintro _ ⟨⟩
      exact List.forall_mem_singleton.mpr (List.forall_mem_singleton.mpr within)
  refine .ranged (.then_ fun _ => round.many.bind fun ms holds => .then_ fun _ => ?_)
  exact .pure fun range => (h.node rfl).mpr (List.forall_mem_flatMap.mpr holds)

theorem primary : Finds mode n false (primary g) (Inner T n) := by
  have anonymous : Finds mode n false (anonymousFunction g) (Inner T n) :=
    .then_ fun t => .then_ fun _ => (h.functionRest _ _).bind fun f fit =>
      .pure ((h.node rfl).mpr fit)
  have leaf {e : Expr} (ordinary : e.ordinary = true) (none : e.slots = []) : Inner T n e :=
    (h.node ordinary).mpr (by simp [none])
  refine .then_ fun t => ?_
  split
  · exact Finds.any.map fun _ _ => leaf rfl rfl
  · refine .ranged (.then_ fun _ => h.expression.bind fun e within => .then_ fun _ => ?_)
    exact .pure fun range => (h.node rfl).mpr (List.forall_mem_singleton.mpr within)
  · exact h.arrayLiteral
  · exact h.assocLiteral
  · exact anonymous
  · exact anonymous
  · split
    · exact .then_ fun _ => .pure (leaf rfl rfl)
    · exact .never fun _ => rfl

theorem memberAccess {e : Expr} (within : Inner T n e) :
    Finds mode n false (memberAccess e) (Round.Holds (Inner T n) (Inner T n)) := by
  refine .then_ fun dot => .then_ fun _ => .then_ fun k => ?_
  split
  · exact .then_ fun name => .pure ((h.node rfl).mpr (List.forall_mem_singleton.mpr within))
  · split
    iterate 4 exact .then_ fun _ => .pure within
    exact .never fun _ => rfl

theorem accessed : Finds mode n false (accessed g) (Inner T n) := by
  refine h.primary.bind fun e first => ?_
  refine .loop (I := Inner T n) first fun e within => .then_ fun k => ?_
  split
  · refine .map (.spanned (P := Inner T n) ?_) fun _ holds => holds
    refine .then_ fun _ => h.arguments.bind fun args inner => .pure fun range => (h.node rfl).mpr ?_
    exact List.forall_mem_cons.mpr ⟨within, List.forall_mem_map.mpr inner⟩
  · exact h.memberAccess within
  · refine .map (.spanned (P := Inner T n) ?_) fun _ holds => holds
    refine .then_ fun _ => h.expression.bind fun index inner => .then_ fun _ => ?_
    exact .pure fun range => (h.node rfl).mpr (by simp [Expr.slots, within, inner])
  · exact .pure within

theorem binaryRest {operandAt : Nat → Parser Expr}
    (operands : ∀ level, Finds mode n false (operandAt level) (Inner T n)) (level : Nat)
    {left : Expr} (first : Inner T n left) :
    Finds mode n false (binaryRest operandAt level left) (Inner T n) := by
  refine .loop (I := Inner T n) first fun left within => .then_ fun t => ?_
  split
  · rename_i p _
    split
    · refine .then_ fun _ => (operands p).bind fun right inner => .pure ?_
      exact (h.node rfl).mpr (by simp [Expr.slots, within, inner])
    · exact .pure within
  · exact .pure within

theorem binary {operand : Parser Expr} (operands : Finds mode n false operand (Inner T n))
    (level : Nat) : Finds mode n false (binary operand level) (Inner T n) := by
  have from_ (depth : Nat) :
      ∀ level, Finds mode n false (binaryFrom operand depth level) (Inner T n) := by
    induction depth with
    | zero => exact fun _ => operands
    | succ depth ih =>
      exact fun level => operands.bind fun left within => h.binaryRest ih level within
  exact from_ tightestLevel level

theorem operandStep : Finds mode n false (Parser.operand g) (Inner T n) := by
  refine .then_ fun k => ?_
  split
  · have inner (k : Kind) :
        Finds mode (n + 1) false (prefixOperand k g.operand) (Inner T (n + 1)) := by
      unfold prefixOperand
      split
      · exact h.binary h.operand notLevel
      · exact h.operand
    exact .nested fun shallow => .then_ fun t => .then_ fun _ => (inner _).bind fun e within =>
      .pure (h.signed shallow within)
  · exact h.accessed

theorem conditionalRest {test : Expr} (within : Inner T n test) :
    Finds mode n false (conditionalRest g test) (Inner T n) := by
  refine .then_ fun here => ?_
  cases here with
  | false => exact .pure within
  | true =>
    cases mode with
    | brightScript =>
      intro s e s' language _ run kept
      obtain ⟨_, t, mark, rest⟩ := run_bind_eq_some.mp run
      obtain rfl : s.markUnsupported = t := by simpa [markUnsupported, Parser.run] using mark
      have marked : s.markUnsupported.discard = true := by
        cases already : s.discard <;>
          simp [State.markUnsupported, State.withDiscard, language, already]
      simp [(advances_of_run rest).marked marked] at kept
    | brighterScript =>
      refine .then_ fun _ => .then_ fun _ => h.expression.bind fun consequent first => ?_
      refine .then_ fun _ => h.expression.bind fun alternate second => .pure ?_
      exact h.conditional rfl within first second

theorem expressionStep : Finds mode n false (Parser.expression g) (Whole T n) := by
  refine .nested fun shallow => ?_
  refine (h.binary h.operandStep conditionalLevel).bind fun test within => ?_
  intro s e s' language level run kept
  exact h.whole shallow (h.conditionalRest within s e s' language level run kept)

theorem assignedValue : Finds mode n false (assignedValue g) fun r => Whole T n r.2 :=
  .then_ fun _ => .then_ fun _ => h.expression.bind fun _ within => .pure within

theorem setStatement {target : Expr} (within : Inner T n target) :
    Finds mode n false (setStatement g target) (Fit T n ·.slots) := by
  unfold Parser.setStatement
  split
  · exact h.assignedValue.bind fun _ value => .pure (List.forall_mem_singleton.mpr value)
  · have parts := (h.node rfl).mp within
    refine h.assignedValue.bind fun _ value => .pure ?_
    simp_all [Fit, Expr.slots, Stmt.slots]
  · have parts := (h.node rfl).mp within
    refine h.assignedValue.bind fun _ value => .pure ?_
    simp_all [Fit, Expr.slots, Stmt.slots]
  · exact .never fun _ => rfl

theorem expressionStatement : Finds mode n false (expressionStatement g) (Fit T n ·.slots) := by
  refine h.operandStep.bind fun left within => .then_ fun k => ?_
  split
  · exact h.setStatement within
  split
  · exact .then_ fun t => .then_ fun _ => .pure (List.forall_mem_singleton.mpr within)
  split
  · refine (h.binaryRest (h.binary h.operandStep) conditionalLevel within).bind fun test inner => ?_
    exact (h.conditionalRest inner).bind fun _ => callStatement
  · exact callStatement within

theorem printStatement : Finds mode n false (printStatement g) (Fit T n ·.slots) := by
  have round : Finds mode n false (printRound g)
      fun r => ∀ found, r = some found → ∀ i ∈ found, Fit T n i.slots := by
    refine .then_ fun k => ?_
    split
    · exact .pure fun _ same => by cases same
    split
    · refine .then_ fun _ => .pure ?_
      rintro _ ⟨⟩
      exact List.forall_mem_singleton.mpr fun _ mem => by cases mem
    · refine h.expression.bind fun e within => .pure ?_
      rintro _ ⟨⟩
      exact List.forall_mem_singleton.mpr (List.forall_mem_singleton.mpr within)
  refine .ranged (.then_ fun _ => round.many.bind fun items holds => .pure fun range => ?_)
  exact List.forall_mem_flatMap.mpr holds

theorem returnStatement : Finds mode n false (returnStatement g) (Fit T n ·.slots) := by
  refine .ranged (.then_ fun _ => .then_ fun k => ?_)
  split
  · exact noOption.bind fun value fit => .pure fun range => fit
  · exact h.option.bind fun value fit => .pure fun range => fit

theorem ifBranches {branches : Branches}
    (body : Finds mode n false branches.body (Fit T n ·.slots))
    (lastBody : Finds mode n false branches.lastBody (Fit T n ·.slots)) :
    Finds mode n false (ifBranches g branches) fun (first, elseIfs, last) =>
      Fit T n (first.slots ++ elseIfs.flatMap ElseIf.slots ++
        last.toList.flatMap Block.slots) := by
  have round : Finds mode n false (elseIfRound g branches)
      fun r => ∀ found, r = some found → ∀ e ∈ found, Fit T n e.slots := by
    refine .then_ fun here => ?_
    cases here with
    | false => exact .pure fun _ same => by cases same
    | true =>
      have clause : Finds mode n false (elseIf g branches) (Fit T n ·.slots) := by
        refine .ranged (.then_ fun _ => h.expression.bind fun e within => .then_ fun _ => ?_)
        refine body.bind fun b inner => .pure fun range => ?_
        exact List.forall_mem_cons.mpr ⟨within, inner⟩
      refine clause.bind fun e fit => .pure ?_
      rintro _ ⟨⟩
      exact List.forall_mem_singleton.mpr fit
  refine body.bind fun first start => round.many.bind fun elseIfs middle => .then_ fun more => ?_
  have rest (last : Option (Block Stmt)) (holds : ∀ b ∈ last.toList, Fit T n b.slots) :
      Finds mode n false (Pure.pure (first, elseIfs, last)) fun (first, elseIfs, last) =>
        Fit T n (first.slots ++ elseIfs.flatMap ElseIf.slots ++
          last.toList.flatMap Block.slots) := by
    refine .pure (List.forall_mem_append.mpr ⟨List.forall_mem_append.mpr ⟨start, ?_⟩, ?_⟩)
    · exact List.forall_mem_flatMap.mpr middle
    · exact List.forall_mem_flatMap.mpr holds
  cases more with
  | true =>
    exact (lastBody.map (R := fun last => ∀ b ∈ last.toList, Fit T n b.slots)
      fun b fit => by simpa using fit).bind rest
  | false =>
    exact (Finds.pure (P := fun last => ∀ b ∈ Option.toList last, Fit T n b.slots)
      (by simp)).bind rest

theorem inlineBlock : Finds mode n false (inlineBlock g) (Fit T n ·.slots) := by
  have round (stmts : List Stmt) (listed : Listed T n stmts) :
      Finds mode n false (inlineRound g stmts) (Round.Holds (Listed T n) (Listed T n)) := by
    refine h.statement.of_total.bind fun st within => .then_ fun colon => ?_
    have more : Listed T n (stmts ++ [st]) :=
      List.forall_mem_append.mpr ⟨listed, List.forall_mem_singleton.mpr within⟩
    cases colon with
    | false => exact .pure more
    | true =>
      refine .then_ fun k => ?_
      split <;> exact .pure more
  refine .then_ fun start =>
    (Finds.loop (I := Listed T n) listed_nil round).bind fun stmts listed => ?_
  exact .pure (fit_makeBlock start listed)

theorem ifStatement : Finds mode n false (ifStatement g) (Fit T n ·.slots) := by
  refine .ranged (.then_ fun _ => h.expression.bind fun condition within => .then_ fun _ => ?_)
  have lines : Finds mode n false (blockIf g condition)
      fun node => ∀ range, Fit T n (node range).slots :=
    (h.ifBranches (h.block _).of_total (h.block _).of_total).bind fun parts fit => .then_ fun _ =>
      .pure fun range => List.forall_mem_cons.mpr ⟨within, fit⟩
  have inline : Finds mode n false (inlineIf g condition)
      fun node => ∀ range, Fit T n (node range).slots :=
    (h.ifBranches h.inlineBlock h.inlineBlock).withCleanup.bind fun parts fit =>
      .pure fun range => List.forall_mem_cons.mpr ⟨within, fit⟩
  refine .then_ fun k => ?_
  split
  · exact lines
  · exact inline

theorem whileStatement : Finds mode n false (whileStatement g) (Fit T n ·.slots) := by
  refine .ranged (.then_ fun _ => h.expression.bind fun condition within => ?_)
  refine (h.block _).of_total.bind fun body inner => .then_ fun _ => .pure fun range => ?_
  exact List.forall_mem_cons.mpr ⟨within, inner⟩

theorem forEachRest :
    Finds mode n false (forEachRest g) fun node => ∀ range, Fit T n (node range).slots := by
  refine .then_ fun item => .then_ fun here => ?_
  cases here with
  | false => exact .never fun _ => rfl
  | true =>
    refine .then_ fun _ => h.expression.bind fun target within => ?_
    refine (h.block _).of_total.bind fun body inner => .then_ fun _ => .pure fun range => ?_
    exact List.forall_mem_cons.mpr ⟨within, inner⟩

theorem forRest :
    Finds mode n false (forRest g) fun node => ∀ range, Fit T n (node range).slots := by
  refine .then_ fun counter => .then_ fun _ => h.expression.bind fun first start => ?_
  refine .then_ fun _ => h.expression.bind fun last stop => .then_ fun given => ?_
  have rest (step : Option Expr) (fit : Fit T n (optionSlots step)) :
      Finds mode n false (do
        let body ← Parser.block g forClosers
        closeFor
        Pure.pure (Stmt.forLoop counter first last step body))
        fun node => ∀ range, Fit T n (node range).slots := by
    refine (h.block _).of_total.bind fun body inner => .then_ fun _ => .pure fun range => ?_
    refine List.forall_mem_cons.mpr ⟨start, List.forall_mem_cons.mpr ⟨stop, ?_⟩⟩
    exact List.forall_mem_append.mpr ⟨fit, inner⟩
  cases given with
  | true => exact h.option.bind rest
  | false => exact noOption.bind rest

theorem forStatement : Finds mode n false (forStatement g) (Fit T n ·.slots) := by
  refine .ranged (.then_ fun _ => .then_ fun each => ?_)
  cases each with
  | true => exact h.forEachRest
  | false => exact h.forRest

theorem statementBody : Finds mode n false (statementBody g) (Fit T n ·.slots) := by
  have none {st : Stmt} (empty : st.slots = []) : Fit T n st.slots := by simp [Fit, empty]
  have keyword {node : Range → Stmt} (empty : ∀ range, (node range).slots = []) :
      Finds mode n false (keywordStatement node) (Fit T n ·.slots) :=
    .then_ fun range => .then_ fun _ => .pure (none (empty range))
  have declaration : Finds mode n false (functionDeclaration g) (Fit T n ·.slots) :=
    .then_ fun t => .then_ fun _ => .then_ fun name =>
      (h.functionRest _ _).bind fun f fit => .pure fit
  refine .then_ fun target => ?_
  split
  · refine .then_ fun name => h.assignedValue.bind fun _ value => .pure ?_
    exact List.forall_mem_singleton.mpr value
  refine .then_ fun label => ?_
  split
  · exact .then_ fun name => .then_ fun _ => .pure (none rfl)
  refine .then_ fun k => ?_
  unfold byKeyword
  split
  · exact h.ifStatement
  · exact h.whileStatement
  · exact h.forStatement
  · exact declaration
  · exact declaration
  · exact h.returnStatement
  · exact h.printStatement
  · exact h.printStatement
  · exact .then_ fun start => .then_ fun _ => .then_ fun label => .pure (none rfl)
  iterate 4 exact keyword fun _ => rfl
  split
  · exact .never fun _ => rfl
  · exact h.expressionStatement

theorem statementStep : Finds mode n true (Parser.statement g) fun st => T n (.statement st) := by
  refine .nested fun shallow => .droppable ?_
  intro s st s' language level run kept
  exact h.listed shallow (h.statementBody s st s' language level run kept)

end

end Inherits

theorem Inherited.unroll {mode : Mode} {T : Nat → Slot → Prop} (t : Inherited mode T) (n : Nat) :
    Inherits mode T (unroll n) := by
  induction n with
  | zero => exact ⟨t, .never fun _ => rfl, .never fun _ => rfl, .never fun _ => rfl⟩
  | succ n ih => exact ⟨t, ih.expressionStep, ih.operandStep, ih.statementStep⟩

end Parser
end BrightScript
