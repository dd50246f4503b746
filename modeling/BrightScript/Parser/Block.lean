import BrightScript.Parser.State

/-! Statement lists: comments, recovery after a bad statement, and blocks.
What a list is made of comes in through `Grammar`, which stands for the routines that are one
level of nesting further in. -/
namespace BrightScript.Parser

structure Grammar where
  expression : Parser Expr
  /- An operand with its prefix operators and accessors. -/
  operand : Parser Expr
  statement : Parser Stmt

/- Keywords that close a block. Recovery never skips past them. -/
def closesBlock : Kind → Bool
  | .endIf | .else_ | .elseIf | .endWhile | .endFor | .next | .endSub | .endFunction => true
  | _ => false

def closesFunction : Kind → Bool
  | .endSub | .endFunction => true
  | _ => false

def ifClosers : List Kind := [.elseIf, .else_, .endIf]
def forClosers : List Kind := [.endFor, .next]
def functionClosers : List Kind := [.endSub, .endFunction]

/-- Skips to the next statement boundary. -/
def synchronize : Parser Unit := skipWhile fun k => !(k.isSeparator || closesBlock k)

/- The `else` branches of a single-line `if` share its line, so they are skipped with it. -/
def skipsInlineIf : Kind → Bool
  | .newline | .comment | .endOfFile => false
  | .else_ | .elseIf => true
  | k => !closesBlock k

def synchronizeInlineIf : Parser Unit := skipWhile skipsInlineIf

/-- The comments that stand, one each, on the lines right below a range. -/
def followingComments (range : Range) : List Token → List Token
  | n :: t :: rest =>
    if n.kind = .newline && t.kind = .comment && t.range.start.line = range.stop.line + 1 then
      t :: followingComments (range.union t.range) rest
    else []
  | _ => []

def joinComment (c : Comment) (t : Token) : Comment :=
  ⟨c.text ++ "\n" ++ t.text, c.range.union t.range⟩

def comment : Parser Comment := do
  let t ← token
  advance
  pure ⟨t.text, t.range⟩

/-- Consumes a comment and those on the lines right after it. -/
def commentRun : Parser Comment := do
  let first ← comment
  let more ← inspect fun s => followingComments first.range s.rest.items
  take (2 * more.length)
  pure (more.foldl joinComment first)

def trailingComment : Parser (List Stmt) := do
  if ← isAt .comment then
    let c ← comment
    pure [.comment c]
  else pure []

/-- What follows a complete statement: perhaps a comment, then the end of the statement. -/
def finishStatement (stmt : Stmt) : Parser (List Stmt) := do
  let comments ← trailingComment
  let k ← kind
  if k.isSeparator || closesBlock k then pure comments
  else
    reportHere fun _ => .expectedLineEnd
    advance
    if comments.isEmpty && stmt.isInlineIf then synchronizeInlineIf else synchronize
    pure comments

/- Inside a function its end closes every nested body as well. A keyword before an assignment
operator is a target and closes nothing. -/
def State.closes (s : State) (closers : List Kind) : Bool :=
  (closers.contains s.kind || (0 < s.functions && closesFunction s.kind)) &&
    !(s.kindAt 1).isAssignment

/-- A statement and what follows it, unless a keyword closes the list. -/
def codeRound (g : Grammar) (closers : List Kind) : Parser (Option (List Stmt)) := do
  if ← inspect (State.closes · closers) then pure none
  else
    match ← attemptPast g.statement with
    | some stmt =>
      let comments ← finishStatement stmt
      pure (some (stmt :: comments))
    | none =>
      synchronize
      pure (some [])

def statementRound (g : Grammar) (closers : List Kind) : Parser (Option (List Stmt)) := do
  match ← kind with
  | .newline | .colon =>
    advance
    pure (some [])
  | .endOfFile => pure none
  | .comment =>
    let c ← commentRun
    pure (some [.comment c])
  | _ => codeRound g closers

/-- Statements up to the end of the file or a closing keyword, which is left where it is. -/
def statements (g : Grammar) (closers : List Kind) : Parser (List Stmt) :=
  many (statementRound g closers)

/- A block starts on its header's line, so that a comment there can be told from one on a line of
its own. -/
def makeBlock (start : Range) (stmts : List Stmt) : Block Stmt :=
  match stmts.getLast? with
  | some last => ⟨stmts, start.union last.range⟩
  | none => ⟨stmts, .empty start.start⟩

def block (g : Grammar) (closers : List Kind) : Parser (Block Stmt) := do
  let start ← here
  let header ← trailingComment
  let stmts ← statements g closers
  pure (makeBlock start (header ++ stmts))

end BrightScript.Parser
