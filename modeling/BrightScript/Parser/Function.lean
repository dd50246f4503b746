import BrightScript.Parser.Block

/-! Names being declared, types, parameters and function bodies. -/
namespace BrightScript.Parser

/-- A name being declared or assigned. A reserved word or another keyword is reported and taken,
so that the rest of the statement can still be read. -/
def declaredName : Parser Ident := do
  let k ← kind
  if k.isWord then
    let name ← takeIdent
    if isReserved name.name then report (.reservedWord name.name) name.range
    else if k ≠ .identifier then report (.expectedIdentifier name.name) name.range
    pure name
  else refuse .expectedIdentifier Problem.expectedIdentifier_isError

/-- The type name after `as`. An unknown one is reported and read as `dynamic`. -/
def typeName : Parser Ty := do
  let t ← token
  if t.kind.isWord then
    advance
    match Ty.ofName? t.text with
    | some type => pure type
    | none =>
      report (.unknownType t.text) t.range
      pure .dynamic
  else refuse .expectedIdentifier Problem.expectedIdentifier_isError

def asType (missing : Ty) : Parser Ty := do
  if ← atName "as" then
    advance
    typeName
  else pure missing

/- `invalid` stands for "no value" and goes with every type. -/
def checkFallback (fallback : Option Expr) (type : Ty) : Parser Unit :=
  match fallback with
  | some (.literal l) =>
    if l.kind ≠ .invalid && !l.type.convertible type then
      report (.notConvertible l.type.display type.display) l.range
    else pure ()
  | _ => pure ()

/-- `name [= default] [as type]` -/
def parameter (g : Grammar) : Parser (Parameter Expr) := ranged do
  let name ← declaredName
  let fallback ← if ← accept .equal then some <$> g.expression else pure none
  let type ← asType .dynamic
  checkFallback fallback type
  pure fun range => ⟨name, type, fallback, range⟩

/- The flag tells whether an optional parameter has been seen. -/
def parameterRound (g : Grammar) (seen : List (Parameter Expr) × Bool) :
    Parser (Round (List (Parameter Expr) × Bool) (List (Parameter Expr))) := do
  let p ← parameter g
  if p.isRequired && seen.2 then report (.requiredAfterOptional p.name.name) p.name.range
  let params := seen.1 ++ [p]
  if ← accept .comma then pure (.again (params, seen.2 || !p.isRequired))
  else pure (.done params)

def parameters (g : Grammar) : Parser (List (Parameter Expr)) := do
  let params ← if ← isAt .rightParen then pure [] else loop (parameterRound g) ([], false)
  expect .rightParen
  pure params

/- The end of the other kind of function is reported and still taken as the end. -/
def closeFunction (isSub : Bool) : Parser Unit := do
  let closer := if isSub then Kind.endSub else Kind.endFunction
  let k ← kind
  unless k = closer do
    reportHere fun _ => .unclosed closer.label (if isSub then "sub" else "function")
  if closesFunction k then advance

def functionRest (g : Grammar) (first : Range) (isSub : Bool) : Parser (Function Expr Stmt) :=
    spanned first do
  expect .leftParen
  let params ← parameters g
  let returns ← asType (if isSub then .void else .dynamic)
  let body ← inFunction (block g functionClosers)
  closeFunction isSub
  pure fun range => ⟨isSub, params, returns, body, range⟩

end BrightScript.Parser
