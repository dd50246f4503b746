import BrightScript.Parser.Expression

/-! Statements. -/
namespace BrightScript.Parser

/- Kinds before which a value or an item list may simply be missing. -/
def endsItems : Kind → Bool
  | .newline | .colon | .endOfFile | .comment | .else_ | .elseIf => true
  | _ => false

/-- Consumes the keyword that closes a construct, or reports that it is missing. -/
def close (closer : Kind) (construct : String) : Parser Unit := do
  unless ← accept closer do
    reportHere fun _ => .unclosed closer.label construct

/-- Consumes an assignment operator and the value after it. -/
def assignedValue (g : Grammar) : Parser (Kind × Expr) := do
  let operator ← kind
  advance
  let value ← g.expression
  pure (operator, value)

def assignment (g : Grammar) : Parser Stmt := do
  let name ← declaredName
  let (operator, value) ← assignedValue g
  pure (.assign name operator value (name.range.union value.range))

/-- An assignment whose target has been read as an expression. -/
def setStatement (g : Grammar) (target : Expr) : Parser Stmt :=
  match target with
  | .var name => do
    let (operator, value) ← assignedValue g
    pure (.assign name operator value (name.range.union value.range))
  | .dotted object name range => do
    let (operator, value) ← assignedValue g
    pure (.setDotted object name operator value (range.union value.range))
  | .indexed object index range => do
    let (operator, value) ← assignedValue g
    pure (.setIndexed object index operator value (range.union value.range))
  | _ => refusePast .unexpectedToken Problem.unexpectedToken_isError

def incrementStatement (target : Expr) : Parser Stmt := do
  let t ← token
  advance
  pure (.increment target t.kind (target.range.union t.range))

/- Once a statement is to be discarded, its missing call goes without saying. -/
def State.missCall (range : Range) (s : State) : State :=
  if s.discard then s else s.report .expectedCall range

def missingCall (range : Range) : Parser Stmt :=
  giveUp (State.missCall range)
    (fun s => by
      unfold State.missCall
      split
      · exact .refl s
      · exact .report s _ _)
    (fun earlier s => by
      cases marked : s.discard <;> simp [State.missCall, State.behind, State.report, marked])
    (fun s => by
      unfold State.missCall
      split
      · exact .inl ‹_›
      · exact .inr (.report s _ rfl))
    fun s _ unmarked _ => by
      simp [State.missCall, State.report, State.inMode, unmarked]

def callStatement (e : Expr) : Parser Stmt :=
  if e.isCall then pure (.expression e) else missingCall e.range

/-- A statement after the operand that it starts with: an assignment to a member or an index, an
increment, or a call. -/
def operandRest (g : Grammar) (left : Expr) : Parser Stmt := do
  let k ← kind
  if k.isAssignment then setStatement g left
  else if k = .plusPlus || k = .minusMinus then incrementStatement left
  else if k.precedence?.isSome || k = .questionMark then
    let test ← binaryRest (binary (operand g)) conditionalLevel left
    let e ← conditionalRest g test
    callStatement e
  else callStatement left

def expressionStatement (g : Grammar) : Parser Stmt := do
  let left ← operand g
  operandRest g left

def printRound (g : Grammar) : Parser (Option (List (PrintItem Expr))) := do
  let k ← kind
  if endsItems k then pure none
  else if k = .semicolon || k = .comma then
    advance
    pure (some [.separator k])
  else
    let e ← g.expression
    pure (some [.expression e])

def printStatement (g : Grammar) : Parser Stmt := ranged do
  advance
  let items ← many (printRound g)
  pure (.print items)

def returnStatement (g : Grammar) : Parser Stmt := ranged do
  advance
  let value ← if endsItems (← kind) then pure none else some <$> g.expression
  pure (.returns value)

/- The two layouts of an `if` differ in how a branch is read. -/
structure Branches where
  body : Parser (Block Stmt)
  lastBody : Parser (Block Stmt)

def elseIf (g : Grammar) (branches : Branches) : Parser (ElseIf Expr Stmt) := ranged do
  advance
  let condition ← g.expression
  let _ ← accept .then_
  let body ← branches.body
  pure fun range => ⟨condition, body, range⟩

def elseIfRound (g : Grammar) (branches : Branches) :
    Parser (Option (List (ElseIf Expr Stmt))) := do
  if ← isAt .elseIf then
    let e ← elseIf g branches
    pure (some [e])
  else pure none

/-- The branches of an `if` after its condition. -/
def ifBranches (g : Grammar) (branches : Branches) :
    Parser (Block Stmt × List (ElseIf Expr Stmt) × Option (Block Stmt)) := do
  let body ← branches.body
  let elseIfs ← many (elseIfRound g branches)
  let elseBody ← if ← accept .else_ then some <$> branches.lastBody else pure none
  pure (body, elseIfs, elseBody)

/- Kinds that end an inline branch after a colon. -/
def endsBranch : Kind → Bool
  | .newline | .endOfFile | .comment | .else_ | .elseIf => true
  | _ => false

def inlineRound (g : Grammar) (stmts : List Stmt) : Parser (Round (List Stmt) (List Stmt)) := do
  let stmt ← g.statement
  let stmts := stmts ++ [stmt]
  if ← accept .colon then
    if endsBranch (← kind) then pure (.done stmts) else pure (.again stmts)
  else pure (.done stmts)

/-- Statements with colons between them, up to the end of the line or an `else`. -/
def inlineBlock (g : Grammar) : Parser (Block Stmt) := do
  let start ← here
  let stmts ← loop (inlineRound g) []
  pure (makeBlock start stmts)

/- A branch that fails drops the whole line, so that its report is the only one. -/
def inlineIf (g : Grammar) (condition : Expr) : Parser (Range → Stmt) := do
  let (body, elseIfs, elseBody) ←
    withCleanup (ifBranches g ⟨inlineBlock g, inlineBlock g⟩) synchronizeInlineIf
  pure (.ifThen condition body elseIfs elseBody true)

def blockIf (g : Grammar) (condition : Expr) : Parser (Range → Stmt) := do
  let (body, elseIfs, elseBody) ← ifBranches g ⟨block g ifClosers, block g [.endIf]⟩
  close .endIf "if"
  pure (.ifThen condition body elseIfs elseBody false)

/- Kinds after which the branches of an `if` are blocks. -/
def opensBlock : Kind → Bool
  | .newline | .comment | .endOfFile => true
  | _ => false

def ifStatement (g : Grammar) : Parser Stmt := ranged do
  advance
  let condition ← g.expression
  let _ ← accept .then_
  if opensBlock (← kind) then blockIf g condition else inlineIf g condition

def whileStatement (g : Grammar) : Parser Stmt := ranged do
  advance
  let condition ← g.expression
  let body ← block g [.endWhile]
  close .endWhile "while"
  pure (.whileLoop condition body)

/-- `end for`, or `next` with perhaps the name of the counter. -/
def closeFor : Parser Unit := do
  if ← accept .next then
    let _ ← accept .identifier
  else close .endFor "for"

def forEachRest (g : Grammar) : Parser (Range → Stmt) := do
  let item ← declaredName
  if ← atName "in" then
    advance
    let target ← g.expression
    let body ← block g forClosers
    closeFor
    pure (.forEach item target body)
  else refuse (.expectedToken "in")

def forRest (g : Grammar) : Parser (Range → Stmt) := do
  let counter ← declaredName
  expect .equal
  let first ← g.expression
  expect .to_
  let last ← g.expression
  let step ← if ← accept .step then some <$> g.expression else pure none
  let body ← block g forClosers
  closeFor
  pure (.forLoop counter first last step body)

def forStatement (g : Grammar) : Parser Stmt := ranged do
  advance
  if ← accept .each then forEachRest g else forRest g

def functionDeclaration (g : Grammar) : Parser Stmt := do
  let t ← token
  advance
  let name ← declaredName
  let f ← functionRest g t.range (t.kind = .sub)
  pure (.declare name f)

def gotoStatement : Parser Stmt := do
  let start ← here
  advance
  let label ← declaredName
  pure (.goto label (start.union label.range))

def labelStatement : Parser Stmt := do
  let name ← takeIdent
  advance
  pure (.label name)

def keywordStatement (stmt : Range → Stmt) : Parser Stmt := do
  let range ← here
  advance
  pure (stmt range)

def startsExpression : Kind → Bool
  | .true_ | .false_ | .invalid | .not_ => true
  | _ => false

/-- A name and a colon with nothing else on the line. -/
def State.atLabel (s : State) : Bool :=
  s.kind = .identifier && s.kindAt 1 = .colon &&
    (s.kindAt 2 = .newline || s.kindAt 2 = .endOfFile || s.kindAt 2 = .comment)

/-- Any word before an assignment operator is a target, even one that starts a statement. -/
def State.atTarget (s : State) : Bool := s.kind.isWord && (s.kindAt 1).isAssignment

/-- The statement that a word or a mark starts, if it is neither a target nor a label. -/
def byKeyword (g : Grammar) : Kind → Parser Stmt
  | .if_ => ifStatement g
  | .while_ => whileStatement g
  | .for_ => forStatement g
  | .function | .sub => functionDeclaration g
  | .return_ => returnStatement g
  | .print | .questionMark => printStatement g
  | .goto => gotoStatement
  | .exitFor => keywordStatement .exitFor
  | .exitWhile => keywordStatement .exitWhile
  | .end_ => keywordStatement .endProgram
  | .stop => keywordStatement .stop
  | k =>
    if k.isKeyword && !startsExpression k then
      refusePast .unexpectedToken Problem.unexpectedToken_isError
    else expressionStatement g

def statementBody (g : Grammar) : Parser Stmt := do
  if ← inspect State.atTarget then assignment g
  else if ← inspect State.atLabel then labelStatement
  else byKeyword g (← kind)

def statement (g : Grammar) : Parser Stmt := nested (droppable (statementBody g))

end BrightScript.Parser
