import BrightScript.Proofs.Tree.Bare

/-! What a tree keeps of the text that it was read from, in source order. -/
namespace BrightScript

/-- A word of the text that a tree keeps. -/
inductive Content where
  | literal (kind : Kind) (text : String)
  | comment (text : String)
  | name (text : String)
  deriving DecidableEq, Repr

def Content.isLiteral : Content → Bool
  | literal _ _ => true
  | _ => false

/-- The literals that are not keywords. -/
def Kind.isValue : Kind → Bool
  | stringLiteral | integerLiteral | longIntegerLiteral | floatLiteral | doubleLiteral => true
  | _ => false

/- A keyword of two words has blanks between them, which no name has. -/
def isPlainName (text : String) : Bool :=
  Kind.ofKeyword? text.toLower = none && !text.toList.any Text.isSpace

def nameContents (text : String) : List Content := if isPlainName text then [.name text] else []

def Literal.contents (l : Literal) : List Content :=
  if l.kind.isValue then [.literal l.kind l.text] else []

def Comment.contents (c : Comment) : List Content :=
  (Emit.splitLines c.text.toList).map fun line => .comment (String.ofList line)

/- A quoted key stands for the string literal that it was written as. -/
def keyContents (key : String) (quoted : Bool) : List Content :=
  if quoted then [.literal .stringLiteral (Emit.quote key)] else nameContents key

mutual
def Expr.contents : Expr → List Content
  | .literal l => l.contents
  | .var name => nameContents name.name
  | .dotted object name _ => object.contents ++ nameContents name.name
  | .indexed object index _ => object.contents ++ index.contents
  | .call callee args _ => callee.contents ++ exprsContents args
  | .array elements _ => exprsContents elements
  | .assoc members _ => membersContents members
  | .binary _ left right _ => left.contents ++ right.contents
  | .unary _ operand _ => operand.contents
  | .group inner _ => inner.contents
  | .function f => functionContents f
  | .conditional test consequent alternate _ =>
    test.contents ++ (consequent.contents ++ alternate.contents)

def Stmt.contents : Stmt → List Content
  | .assign name _ value _ => nameContents name.name ++ value.contents
  | .setDotted object name _ value _ =>
    object.contents ++ nameContents name.name ++ value.contents
  | .setIndexed object index _ value _ => object.contents ++ index.contents ++ value.contents
  | .expression e => e.contents
  | .increment value _ _ => value.contents
  | .print items _ => itemsContents items
  | .ifThen condition body elseIfs elseBody _ _ =>
    condition.contents ++ (blockContents body ++ (elseIfsContents elseIfs ++ elseContents elseBody))
  | .whileLoop condition body _ => condition.contents ++ blockContents body
  | .forLoop counter first last step body _ =>
    nameContents counter.name ++ (first.contents ++ (last.contents ++
      (optionContents step ++ blockContents body)))
  | .forEach item target body _ =>
    nameContents item.name ++ (target.contents ++ blockContents body)
  | .comment c => c.contents
  | .declare name f => nameContents name.name ++ functionContents f
  | .returns value _ => optionContents value
  | .goto label _ => nameContents label.name
  | .label name => nameContents name.name
  | .exitFor _ | .exitWhile _ | .endProgram _ | .stop _ => []

def functionContents : Function Expr Stmt → List Content
  | ⟨_, parameters, _, body, _⟩ => parametersContents parameters ++ blockContents body

def blockContents : Block Stmt → List Content
  | ⟨statements, _⟩ => stmtsContents statements

def exprsContents : List Expr → List Content
  | [] => []
  | e :: rest => e.contents ++ exprsContents rest

def optionContents : Option Expr → List Content
  | none => []
  | some e => e.contents

def membersContents : List (Member Expr) → List Content
  | [] => []
  | .property ⟨key, quoted, value, _⟩ :: rest =>
    keyContents key quoted ++ value.contents ++ membersContents rest
  | .comment c :: rest => c.contents ++ membersContents rest

def parametersContents : List (Parameter Expr) → List Content
  | [] => []
  | ⟨name, _, fallback, _⟩ :: rest =>
    nameContents name.name ++ optionContents fallback ++ parametersContents rest

def itemsContents : List (PrintItem Expr) → List Content
  | [] => []
  | .expression e :: rest => e.contents ++ itemsContents rest
  | .separator _ :: rest => itemsContents rest

def elseIfsContents : List (ElseIf Expr Stmt) → List Content
  | [] => []
  | ⟨condition, body, _⟩ :: rest =>
    condition.contents ++ blockContents body ++ elseIfsContents rest

def elseContents : Option (Block Stmt) → List Content
  | none => []
  | some last => blockContents last

def stmtsContents : List Stmt → List Content
  | [] => []
  | st :: rest => st.contents ++ stmtsContents rest
end

theorem stmtsContents_append (a b : List Stmt) :
    stmtsContents (a ++ b) = stmtsContents a ++ stmtsContents b := by
  induction a with
  | nil => rfl
  | cons st rest ih => simp [stmtsContents, ih]

end BrightScript
