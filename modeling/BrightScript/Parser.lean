import BrightScript.Parser.Statement

/-! Parsing a token list into statements. -/
namespace BrightScript
namespace Parser

/- The grammar written out to a number of levels. Each way back into it passes `nested`, which
refuses to go deeper than `maxNesting`, so with one level more than that the end of the
unrolling is never reached. -/
def unroll : Nat → Grammar
  | 0 => ⟨tooDeep, tooDeep, tooDeep⟩
  | n + 1 =>
    let g := unroll n
    ⟨expression g, operand g, statement g⟩

def grammar : Grammar := unroll (maxNesting + 1)

end Parser

/- The statement list is there even when something was reported. -/
structure Parsed where
  statements : List Stmt
  diagnostics : List Diagnostic

def parse (mode : Mode) (tokens : List Token) : Parsed :=
  let (result, s) := (Parser.statements Parser.grammar []).run (.start mode tokens)
  ⟨result.getD [], s.diagnostics⟩

end BrightScript
