import BrightScript.Parser.Expression

/-! Chains of binary operators and their trees.
A chain has one tree in which no operator stands below one that binds tighter: to the left it may
also stand below one that binds as tight. Climbing builds this tree from left to right, with an
operand that is put off until the operators in it have been taken. -/
namespace BrightScript

def Kind.operatorGroups : List (List Kind) :=
  [[.or_], [.and_], [.equal, .lessGreater, .less, .lessEqual, .greater, .greaterEqual],
    [.leftShift, .rightShift], [.plus, .minus], [.star, .slash, .backslash, .mod_], [.caret]]

def Kind.group? (k : Kind) : Option Nat := Kind.operatorGroups.findIdx? (·.contains k)

/-- A single token that stands between two operands. -/
structure Connective where
  token : Token
  operator : token.kind.group?.isSome = true

def Connective.group (c : Connective) : Nat := c.token.kind.group?.get c.operator

/-- A single token that is an operand. -/
structure Operand where
  token : Token
  single : (token.kind = .identifier || token.kind.isLiteral) = true

def Operand.expr (a : Operand) : Expr :=
  if a.token.kind = .identifier then .var ⟨a.token.text, a.token.range⟩
  else .literal ⟨a.token.kind, a.token.text, a.token.range⟩

/-- Operators, each with the operand behind it. -/
abbrev Chain := List (Connective × Operand)

def Chain.tokens (chain : Chain) : List Token := chain.flatMap fun (c, a) => [c.token, a.token]

theorem Chain.tokens_append (chain chain' : Chain) :
    Chain.tokens (chain ++ chain') = chain.tokens ++ chain'.tokens := List.flatMap_append

inductive OperatorTree where
  | leaf (a : Operand)
  | node (left : OperatorTree) (c : Connective) (right : OperatorTree)

namespace OperatorTree

/-- The operand that a tree begins with when it is read from left to right. -/
def first : OperatorTree → Operand
  | leaf a => a
  | node left _ _ => left.first

/-- The rest of what is read from left to right. -/
def rest : OperatorTree → Chain
  | leaf _ => []
  | node left c right => left.rest ++ (c, right.first) :: right.rest

/-- The operator of the uppermost node. -/
def top? : OperatorTree → Option Connective
  | leaf _ => none
  | node _ c _ => some c

/-- A left operand binds at least as tight as the node that it belongs to, a right operand binds
tighter. -/
def Ordered : OperatorTree → Prop
  | leaf _ => True
  | node left c right => left.Ordered ∧ right.Ordered ∧
    (∀ c' ∈ left.top?, c.group ≤ c'.group) ∧ ∀ c' ∈ right.top?, c.group < c'.group

instance decidableOrdered : (t : OperatorTree) → Decidable t.Ordered
  | leaf _ => isTrue trivial
  | node left c right =>
    have := decidableOrdered left
    have := decidableOrdered right
    inferInstanceAs (Decidable (left.Ordered ∧ right.Ordered ∧
      (∀ c' ∈ left.top?, c.group ≤ c'.group) ∧ ∀ c' ∈ right.top?, c.group < c'.group))

def expr : OperatorTree → Expr
  | leaf a => a.expr
  | node left c right =>
    .binary ⟨c.token.kind, c.token.text⟩ left.expr right.expr
      (left.expr.range.union right.expr.range)

end OperatorTree

/-- Between `and` and the relational operators there is room for prefix `not`. -/
def Connective.level (c : Connective) : Nat := if c.group < 2 then c.group + 2 else c.group + 3

namespace Connective

variable {c c' : Connective}

theorem precedence? (c : Connective) : c.token.kind.precedence? = some c.level := by
  obtain ⟨⟨kind, text, range, value⟩, operator⟩ := c
  cases kind <;> first | rfl | cases operator

theorem kind_ne (c : Connective) {k : Kind} (other : k.group? = none) : c.token.kind ≠ k := by
  intro same
  have operator := c.operator
  rw [same, other] at operator
  cases operator

theorem level_le_tightest (c : Connective) : c.level ≤ Parser.tightestLevel := by
  have binds := c.precedence?
  revert binds
  generalize c.level = level
  cases c.token.kind <;> rintro ⟨⟩ <;> decide

theorem level_lt : c.level < c'.level ↔ c.group < c'.group := by
  unfold level
  split <;> split <;> omega

theorem level_le : c.level ≤ c'.level ↔ c.group ≤ c'.group := by
  unfold level
  split <;> split <;> omega

end Connective

theorem OperatorTree.forall_top_leaf {P : Connective → Prop} (a : Operand) :
    ∀ c ∈ (leaf a).top?, P c := fun _ top => by cases top

/-- `Climbs level left chain tree beyond` says that the operators of the chain that bind tighter than
`level` are taken in turn, with the operands between them, and make `tree` out of `left`; `beyond` is
the rest of the chain. -/
inductive Climbs : Nat → OperatorTree → Chain → OperatorTree → Chain → Prop where
  | stop {level : Nat} {left : OperatorTree} {chain : Chain} :
      (∀ next ∈ chain.head?, next.1.level ≤ level) → Climbs level left chain left chain
  | take {level : Nat} {left right tree : OperatorTree} {c : Connective} {a : Operand}
      {chain between beyond : Chain} : level < c.level →
      Climbs c.level (.leaf a) chain right between →
      Climbs level (.node left c right) between tree beyond →
      Climbs level left ((c, a) :: chain) tree beyond

namespace Climbs

variable {level : Nat} {left tree tree' : OperatorTree} {chain beyond beyond' : Chain}

/- By induction on the length of the chain: both the operand and what follows it have less. -/
theorem exists_climbs (level : Nat) (left : OperatorTree) (chain : Chain) :
    ∃ tree beyond, Climbs level left chain tree beyond ∧ beyond.length ≤ chain.length := by
  induction size : chain.length using Nat.strongRecOn generalizing level left chain with
  | ind size ih =>
    subst size
    cases chain with
    | nil => exact ⟨left, [], .stop (by simp), Nat.le_refl _⟩
    | cons next chain =>
      obtain ⟨c, a⟩ := next
      by_cases tighter : level < c.level
      · obtain ⟨right, between, climbs, shorter⟩ :=
          ih chain.length (Nat.lt_succ_self _) c.level (.leaf a) chain rfl
        obtain ⟨tree, beyond, climbs', shorter'⟩ :=
          ih between.length (Nat.lt_succ_of_le shorter) level (.node left c right) between rfl
        refine ⟨tree, beyond, .take tighter climbs climbs', ?_⟩
        exact Nat.le_succ_of_le (Nat.le_trans shorter' shorter)
      · refine ⟨left, (c, a) :: chain, .stop ?_, Nat.le_refl _⟩
        rintro _ ⟨⟩
        exact Nat.le_of_not_lt tighter

theorem unique (h : Climbs level left chain tree beyond) (h' : Climbs level left chain tree' beyond') :
    tree = tree' ∧ beyond = beyond' := by
  induction h generalizing tree' beyond' with
  | stop loose =>
    cases h' with
    | stop => exact ⟨rfl, rfl⟩
    | take tighter => exact absurd (loose _ rfl) (Nat.not_le_of_lt tighter)
  | take tighter _ _ ih ih' =>
    cases h' with
    | stop loose => exact absurd (loose _ rfl) (Nat.not_le_of_lt tighter)
    | take _ operand rest =>
      obtain ⟨rfl, rfl⟩ := ih operand
      exact ih' rest

theorem reading (h : Climbs level left chain tree beyond) :
    tree.first = left.first ∧ left.rest ++ chain = tree.rest ++ beyond := by
  induction h with
  | stop => exact ⟨rfl, rfl⟩
  | @take level left right tree c a chain between beyond _ _ _ ih ih' =>
    refine ⟨ih'.1, ?_⟩
    have operand : chain = right.rest ++ between := ih.2
    have first : right.first = a := ih.1
    rw [← ih'.2, OperatorTree.rest, operand, first]
    simp

theorem ordered (h : Climbs level left chain tree beyond) (before : left.Ordered)
    (tight : ∀ c ∈ left.top?, level < c.level)
    (loose : ∀ c ∈ left.top?, ∀ next ∈ chain.head?, next.1.level ≤ c.level) :
    tree.Ordered ∧ (∀ c ∈ tree.top?, level < c.level) ∧
      ∀ next ∈ beyond.head?, next.1.level ≤ level := by
  induction h with
  | stop ends => exact ⟨before, tight, ends⟩
  | @take level left right tree c a chain between beyond tighter _ _ ih ih' =>
    obtain ⟨inner, above, below⟩ := ih trivial (OperatorTree.forall_top_leaf a)
      (OperatorTree.forall_top_leaf a)
    apply ih'
    · refine ⟨before, inner, fun c' top => ?_, fun c' top => ?_⟩
      · exact Connective.level_le.mp (loose c' top _ rfl)
      · exact Connective.level_lt.mp (above c' top)
    · rintro _ ⟨⟩
      exact tighter
    · rintro _ ⟨⟩
      exact below

end Climbs

namespace OperatorTree

/- By induction on the tree: the right operand is climbed at the level of its operator, and what
stands to the left is climbed before. -/
theorem Ordered.climbs {t : OperatorTree} (h : t.Ordered) {level : Nat} {more beyond : Chain}
    {tree : OperatorTree} (tight : ∀ c ∈ t.top?, level < c.level)
    (loose : ∀ c ∈ t.top?, ∀ next ∈ more.head?, next.1.level ≤ c.level)
    (rest : Climbs level t more tree beyond) :
    Climbs level (.leaf t.first) (t.rest ++ more) tree beyond := by
  induction t generalizing level more tree beyond with
  | leaf a => exact rest
  | node left c right ihLeft ihRight =>
    obtain ⟨before, after, least, greater⟩ := h
    have tighter : level < c.level := tight c rfl
    have operand : Climbs c.level (.leaf right.first) (right.rest ++ more) right more := by
      apply ihRight after
      · exact fun c' top => Connective.level_lt.mpr (greater c' top)
      · intro c' top next head
        have below := loose c rfl next head
        have above := Connective.level_lt.mpr (greater c' top)
        omega
      · exact .stop (loose c rfl)
    have whole : Climbs level (.leaf left.first)
        (left.rest ++ (c, right.first) :: (right.rest ++ more)) tree beyond := by
      apply ihLeft before
      · intro c' top
        exact Nat.lt_of_lt_of_le tighter (Connective.level_le.mpr (least c' top))
      · rintro c' top _ ⟨⟩
        exact Connective.level_le.mpr (least c' top)
      · exact .take tighter operand rest
    simpa [OperatorTree.rest, first] using whole

theorem exists_unique_ordered (a : Operand) (chain : Chain) :
    ∃ tree, Climbs 1 (.leaf a) chain tree [] ∧
      ∀ t, (t.first = a ∧ t.rest = chain ∧ t.Ordered) ↔ t = tree := by
  have lowest (c : Connective) : 1 < c.level := by
    unfold Connective.level
    split <;> omega
  obtain ⟨tree, beyond, climbs, -⟩ := Climbs.exists_climbs 1 (.leaf a) chain
  obtain ⟨ordered, -, ends⟩ := climbs.ordered trivial (forall_top_leaf a) (forall_top_leaf a)
  obtain ⟨first, rest⟩ := climbs.reading
  have none : beyond = [] := by
    cases beyond with
    | nil => rfl
    | cons next beyond => exact absurd (ends next rfl) (Nat.not_le_of_lt (lowest next.1))
  subst none
  refine ⟨tree, climbs, fun t => ⟨?_, ?_⟩⟩
  · rintro ⟨rfl, rfl, h⟩
    have ends : Climbs 1 t [] t [] := .stop (by simp)
    have again := h.climbs (fun c _ => lowest c) (by simp) ends
    rw [List.append_nil] at again
    exact (again.unique climbs).1
  · rintro rfl
    exact ⟨first, (List.append_nil _).symm.trans rest.symm, ordered⟩

end OperatorTree
end BrightScript
