import BrightScript.Proofs.Tree.Contents
import BrightScript.Token

/-! The tokens of a text whose words a tree keeps.
Most words are kept wherever they stand. A few names only mark what is around them, and a comment
among the elements of an array is skipped, so the tokens are read with what they stand in. -/
namespace BrightScript

/-- A construct that a token stands in. -/
inductive Enclosure where
  -- the parentheses around parameters
  | header
  | parens
  | square
  | curly
  | body
  deriving DecidableEq, Repr

/-- What the tokens so far end with, as far as it matters for the next one. -/
inductive Mark where
  | plain
  | operand
  | dot
  -- `function` or `sub`, with a name or without one
  | opener
  -- the parenthesis after the parameters
  | headerEnd
  | as_
  | each
  -- the name after `each`
  | item
  | next
  -- where the next member of an associative array may begin
  | entry
  deriving DecidableEq, Repr

namespace Mark

/- Any word may be a member after a point, a key or a type. -/
def takesWord : Mark → Bool
  | dot | as_ | entry => true
  | _ => false

end Mark

structure Context where
  around : List Enclosure
  mark : Mark
  deriving DecidableEq, Repr

namespace Context

def opensType (p : Context) (t : Token) : Bool :=
  (p.mark = .headerEnd || p.mark = .operand && p.around.head? = some .header) &&
    Text.sameWord t.text "as"

/-- Whether a name is not kept: `as` and the type, `in`, and a name after `next`. -/
def skips (p : Context) (t : Token) : Bool :=
  p.mark = .as_ || p.mark = .item || p.mark = .next || p.opensType t

/- An index holds no comment, so the brackets around one are those of an array. -/
def contents (p : Context) (t : Token) : List Content :=
  match t.kind with
  | .comment => if p.around.head? = some .square then [] else [.comment t.text]
  | .identifier => if p.skips t then [] else [.name t.text]
  | k => if k.isValue then [.literal k t.text] else []

def afterName (p : Context) (t : Token) : Mark :=
  match p.mark with
  | .opener => .opener
  | .each => .item
  | .item | .next => .plain
  | _ => if p.opensType t then .as_ else .operand

def pass (p : Context) (k : Kind) : Context :=
  match k with
  | .leftParen => ⟨(if p.mark = .opener then .header else .parens) :: p.around, .plain⟩
  | .rightParen =>
    if p.around.head? = some .header then ⟨.body :: p.around.tail, .headerEnd⟩
    else ⟨p.around.tail, .operand⟩
  | .leftSquare => ⟨.square :: p.around, .plain⟩
  | .leftCurly => ⟨.curly :: p.around, .entry⟩
  | .rightSquare | .rightCurly | .endFunction | .endSub => ⟨p.around.tail, .operand⟩
  | .function | .sub => ⟨p.around, .opener⟩
  | .each => ⟨p.around, .each⟩
  | .next => ⟨p.around, .next⟩
  | .dot => ⟨p.around, .dot⟩
  | .newline | .comma | .comment =>
    ⟨p.around, if p.around.head? = some .curly then .entry else .plain⟩
  | k => ⟨p.around, if k.isLiteral then .operand else .plain⟩

def step (p : Context) (t : Token) : Context :=
  if t.kind.isWord && p.mark.takesWord then
    ⟨p.around, if p.mark = .as_ then .plain else .operand⟩
  else if t.kind = .identifier then ⟨p.around, p.afterName t⟩
  else p.pass t.kind

theorem contents_of_isWord {t : Token} (word : t.kind.isWord = true) (p : Context) :
    p.contents t = if t.kind = .identifier ∧ p.skips t = false then [.name t.text] else [] := by
  have other : t.kind ≠ .comment ∧ t.kind.isValue = false := by
    revert word
    cases t.kind <;> decide
  unfold contents
  split
  · exact absurd ‹_› other.1
  · rename_i name
    cases p.skips t <;> simp [name]
  · rename_i name
    have none : ¬ (t.kind = .identifier ∧ p.skips t = false) := fun h => name h.1
    rw [if_neg none, other.2]
    rfl

end Context

def contentsFrom : Context → List Token → List Content
  | _, [] => []
  | p, t :: rest => p.contents t ++ contentsFrom (p.step t) rest

theorem contentsFrom_dropWhile {skips : Kind → Bool} {fs : List Enclosure} {after : Mark}
    (each : ∀ m t, skips t.kind = true →
      Context.contents ⟨fs, m⟩ t = [] ∧ Context.step ⟨fs, m⟩ t = ⟨fs, after⟩)
    (tokens : List Token) (m : Mark) :
    contentsFrom ⟨fs, m⟩ tokens =
      contentsFrom ⟨fs, if tokens.head?.any (skips ·.kind) then after else m⟩
        (tokens.dropWhile (skips ·.kind)) := by
  induction tokens generalizing m with
  | nil => rfl
  | cons t rest ih =>
    cases skip : skips t.kind with
    | false => simp [skip]
    | true =>
      obtain ⟨none, next⟩ := each m t skip
      rw [contentsFrom, none, next, List.nil_append, ih after]
      simp [skip]

def contents (tokens : List Token) : List Content := contentsFrom ⟨[], .plain⟩ tokens

theorem filter_contents (tokens : List Token) :
    (contents tokens).filter (·.isLiteral) =
      (tokens.filter (·.kind.isValue)).map fun t => .literal t.kind t.text := by
  have each : ∀ p, (contentsFrom p tokens).filter (·.isLiteral) =
      (tokens.filter (·.kind.isValue)).map fun t => .literal t.kind t.text := by
    induction tokens with
    | nil => exact fun _ => rfl
    | cons t rest ih =>
      intro p
      have own : (p.contents t).filter (·.isLiteral) =
          if t.kind.isValue then [.literal t.kind t.text] else [] := by
        unfold Context.contents
        split
        · rename_i comment
          rw [comment]
          split <;> rfl
        · rename_i name
          rw [name]
          split <;> rfl
        · split <;> rfl
      rw [contentsFrom, List.filter_append, ih, own]
      cases value : t.kind.isValue <;> simp [value]
  exact each _

/-- A token whose words are those that the tree is compared with. -/
structure Token.Faithful (t : Token) : Prop where
  name : t.kind.isWord = true → isPlainName t.text = decide (t.kind = .identifier)
  string : t.kind = .stringLiteral →
    ∃ key, t.value = some (.string key) ∧ t.text = Emit.quote key
  line : t.kind = .comment → '\n' ∉ t.text.toList

theorem Token.Faithful.nameContents_eq {t : Token} (h : t.Faithful) (word : t.kind.isWord = true) :
    nameContents t.text = if t.kind = .identifier then [.name t.text] else [] := by
  rw [nameContents, h.name word]
  simp

end BrightScript
