import BrightScript.Parser.Function

/-! Expressions: primaries, accessors, prefix operators, binary operators by precedence, and the
conditional operator of BrighterScript. -/
namespace BrightScript

/-- Binding strength of a binary operator. The conditional operator is below all of them, and
prefix `not` stands between `and` and the relational operators. -/
def Kind.precedence? : Kind → Option Nat
  | .or_ => some 2
  | .and_ => some 3
  | .equal | .lessGreater | .less | .lessEqual | .greater | .greaterEqual => some 5
  | .leftShift | .rightShift => some 6
  | .plus | .minus => some 7
  | .star | .slash | .backslash | .mod_ => some 8
  | .caret => some 9
  | _ => none

namespace Parser

def conditionalLevel : Nat := 1
def notLevel : Nat := 4
def tightestLevel : Nat := 9

def argumentRound (g : Grammar) (args : List Expr) : Parser (Round (List Expr) (List Expr)) := do
  let e ← g.expression
  skipNewlines
  if ← accept .comma then
    skipNewlines
    pure (.again (args ++ [e]))
  else pure (.done (args ++ [e]))

/-- Arguments up to and including the closing parenthesis. -/
def arguments (g : Grammar) : Parser (List Expr) := do
  skipNewlines
  let args ← if ← isAt .rightParen then pure [] else loop (argumentRound g) []
  expect .rightParen
  pure args

/- A line break, a comment or the closing mark may stand for the comma between two entries. -/
def separator (closer : Kind) : Parser Unit := do
  if ← accept .comma then pure ()
  else
    let k ← kind
    unless k = .newline || k = .comment || k = closer do
      refuse (.expectedToken closer.label) (expectedKind_isError closer)

def elementRound (g : Grammar) : Parser (Option (List Expr)) := do
  skipWhile fun k => k = .newline || k = .comment
  if ← isAt .rightSquare then pure none
  else
    let e ← g.expression
    separator .rightSquare
    pure (some [e])

def arrayLiteral (g : Grammar) : Parser Expr := ranged do
  advance
  let elements ← many (elementRound g)
  expect .rightSquare
  pure (.array elements)

def trimQuotes (text : String) : String :=
  let inner := text.toList.dropWhile (· = '"')
  String.ofList (inner.reverse.dropWhile (· = '"')).reverse

/-- A key is a string or any word, reserved or not. -/
def memberKey : Parser (String × Bool) := do
  let k ← kind
  if k = .stringLiteral then
    let t ← member
    match t.value with
    | some (.string text) => pure (text, true)
    | _ => pure (trimQuotes t.text, true)
  else if k.isWord then
    let t ← member
    pure (t.text, false)
  else refuse .expectedIdentifier Problem.expectedIdentifier_isError

/- Comments between members are members too. -/
def memberRound (g : Grammar) : Parser (Option (List (Member Expr))) := do
  skipNewlines
  let k ← kind
  if k = .rightCurly then pure none
  else if k = .comment then
    let c ← comment
    pure (some [.comment c])
  else
    let start ← here
    let (key, quoted) ← memberKey
    expect .colon
    let value ← g.expression
    separator .rightCurly
    pure (some [.property ⟨key, quoted, value, start.union value.range⟩])

def assocLiteral (g : Grammar) : Parser Expr := ranged do
  advance
  let members ← many (memberRound g)
  expect .rightCurly
  pure (.assoc members)

def grouping (g : Grammar) : Parser Expr := ranged do
  advance
  let inner ← g.expression
  expect .rightParen
  pure (.group inner)

def anonymousFunction (g : Grammar) : Parser Expr := do
  let t ← token
  advance
  let f ← functionRest g t.range (t.kind = .sub)
  pure (.function f)

def primary (g : Grammar) : Parser Expr := do
  let t ← token
  match t.kind with
  | .identifier => .var <$> takeIdent
  | .leftParen => grouping g
  | .leftSquare => arrayLiteral g
  | .leftCurly => assocLiteral g
  | .function | .sub => anonymousFunction g
  | k =>
    if k.isLiteral then
      advance
      pure (.literal ⟨k, t.text, t.range⟩)
    else refuse .expectedExpression

def memberName : Parser Ident := do
  let t ← member
  pure ⟨t.text, t.range⟩

/- After a point: any word. At the end of a line what stands before the point is kept, since the
line is still of use. -/
def memberAccess (e : Expr) : Parser (Round Expr Expr) := do
  let dot ← here
  advance
  let k ← kind
  if k.isWord then
    let name ← memberName
    pure (.again (.dotted e name (e.range.union name.range)))
  else
    match k with
    | .newline | .endOfFile | .comment | .colon =>
      report .expectedProperty dot
      pure (.done e)
    | _ => refuseAt .expectedProperty dot

def callAccess (g : Grammar) (e : Expr) : Parser Expr := spanned e.range do
  advance
  let args ← arguments g
  pure (.call e args)

def indexAccess (g : Grammar) (e : Expr) : Parser Expr := spanned e.range do
  advance
  let index ← g.expression
  expect .rightSquare
  pure (.indexed e index)

def accessRound (g : Grammar) (e : Expr) : Parser (Round Expr Expr) := do
  match ← kind with
  | .leftParen => .again <$> callAccess g e
  | .dot => memberAccess e
  | .leftSquare => .again <$> indexAccess g e
  | _ => pure (.done e)

/-- A primary with any number of calls, members and indexes after it. -/
def accessed (g : Grammar) : Parser Expr := do
  let e ← primary g
  loop (accessRound g) e

/-- One more operator that binds tighter than `level`, and its right operand. -/
def binaryRound (operandAt : Nat → Parser Expr) (level : Nat) (left : Expr) :
    Parser (Round Expr Expr) := do
  let t ← token
  match t.kind.precedence? with
  | some p =>
    if level < p then
      advance
      let right ← operandAt p
      pure (.again (.binary ⟨t.kind, t.text⟩ left right (left.range.union right.range)))
    else pure (.done left)
  | none => pure (.done left)

/-- Goes on from a left operand as long as an operator binds tighter than `level`. -/
def binaryRest (operandAt : Nat → Parser Expr) (level : Nat) (left : Expr) : Parser Expr :=
  loop (binaryRound operandAt level) left

/- A right operand is read at the level of its operator, which is higher than `level`, so the
recursion is never deeper than there are levels. -/
def binaryFrom (operand : Parser Expr) : (depth : Nat) → (level : Nat) → Parser Expr
  | 0, _ => operand
  | depth + 1, level => do
    let left ← operand
    binaryRest (binaryFrom operand depth) level left

def binary (operand : Parser Expr) (level : Nat) : Parser Expr :=
  binaryFrom operand tightestLevel level

def isPrefixOperator : Kind → Bool
  | .not_ | .minus | .plus => true
  | _ => false

def prefixOperand (k : Kind) (p : Parser Expr) : Parser Expr :=
  if k = .not_ then binary p notLevel else p

def prefixed (g : Grammar) : Parser Expr := do
  let t ← token
  advance
  let operand ← prefixOperand t.kind g.operand
  pure (.unary ⟨t.kind, t.text⟩ operand (t.range.union operand.range))

def operand (g : Grammar) : Parser Expr := do
  if isPrefixOperator (← kind) then nested (prefixed g) else accessed g

/- The conditional operator belongs to BrighterScript. In BrightScript it is reported once a
statement and read all the same, so that the statement ends where it should. -/
def State.markUnsupported (s : State) : State :=
  if s.mode = .brightScript && !s.discard then
    (s.report (.unsupportedFeature "ternary operator") s.range).withDiscard true
  else s

theorem State.advances_markUnsupported (s : State) : s.Advances s.markUnsupported := by
  unfold markUnsupported
  split
  · exact .of_rest rfl rfl rfl rfl (List.prefix_append _ _) (.inr (.report s _ rfl)) (fun _ => rfl)
      rfl
  · exact .refl s

theorem State.markUnsupported_behind (earlier : List Diagnostic) (s : State) :
    (s.behind earlier).markUnsupported = s.markUnsupported.behind earlier := by
  by_cases marks : (s.mode = .brightScript && !s.discard) = true
  · have marks' : ((s.behind earlier).mode = .brightScript && !(s.behind earlier).discard) = true :=
      marks
    simp only [markUnsupported, if_pos marks, if_pos marks', report_behind]
    rfl
  · have marks' :
        ¬ ((s.behind earlier).mode = .brightScript && !(s.behind earlier).discard) = true := marks
    simp only [markUnsupported, if_neg marks, if_neg marks']

/- In BrightScript an unmarked state gets its mark along with a report. -/
theorem State.impartial_markUnsupported : State.Impartial State.markUnsupported := by
  intro s mode unmarked supported
  have marks : s.markUnsupported =
      (s.report (.unsupportedFeature "ternary operator") s.range).withDiscard true := by
    simp [markUnsupported, mode, unmarked]
  rw [marks] at supported
  exact absurd rfl (supported _ (List.mem_append_right _ List.mem_cons_self))

def markUnsupported : Parser Unit :=
  update State.markUnsupported State.advances_markUnsupported State.markUnsupported_behind
    State.impartial_markUnsupported

/-- `test ? consequent : alternate`, once the test has been read. -/
def conditionalRest (g : Grammar) (test : Expr) : Parser Expr := do
  if ← isAt .questionMark then
    markUnsupported
    advance
    let consequent ← g.expression
    expect .colon
    let alternate ← g.expression
    pure (.conditional test consequent alternate (test.range.union alternate.range))
  else pure test

def expression (g : Grammar) : Parser Expr :=
  nested do
    let test ← binary (operand g) conditionalLevel
    conditionalRest g test

end Parser
end BrightScript
