import BrightScript.Text.Identifier

/-! The kinds of token, and the spelling of those that have a fixed one. -/
namespace BrightScript

/- In declaration order: marks, operators, compound assignments, then keywords. -/
inductive Kind where
  | unknown | endOfFile | newline | comment
  | stringLiteral | integerLiteral | longIntegerLiteral | floatLiteral | doubleLiteral
  | identifier
  | leftParen | rightParen | leftSquare | rightSquare | leftCurly | rightCurly
  | comma | colon | semicolon | dot | questionMark
  | equal | lessGreater | less | lessEqual | greater | greaterEqual
  | plus | minus | star | slash | backslash | caret | leftShift | rightShift
  | plusPlus | minusMinus
  | plusEqual | minusEqual | starEqual | slashEqual | backslashEqual
  | leftShiftEqual | rightShiftEqual
  | and_ | or_ | not_ | mod_ | true_ | false_ | invalid
  | if_ | then_ | else_ | elseIf | endIf
  | for_ | to_ | step | next | endFor | each
  | while_ | endWhile | exit | exitFor | exitWhile
  | function | endFunction | sub | endSub | return_ | print | end_ | stop | goto
  deriving DecidableEq, Repr, Ord

namespace Kind

/-- Every kind, in declaration order. -/
def all : List Kind :=
  [unknown, endOfFile, newline, comment, stringLiteral, integerLiteral, longIntegerLiteral,
    floatLiteral, doubleLiteral, identifier, leftParen, rightParen, leftSquare, rightSquare,
    leftCurly, rightCurly, comma, colon, semicolon, dot, questionMark, equal, lessGreater, less,
    lessEqual, greater, greaterEqual, plus, minus, star, slash, backslash, caret, leftShift,
    rightShift, plusPlus, minusMinus, plusEqual, minusEqual, starEqual, slashEqual,
    backslashEqual, leftShiftEqual, rightShiftEqual, and_, or_, not_, mod_, true_, false_,
    invalid, if_, then_, else_, elseIf, endIf, for_, to_, step, next, endFor, each, while_,
    endWhile, exit, exitFor, exitWhile, function, endFunction, sub, endSub, return_, print, end_,
    stop, goto]

theorem mem_all (k : Kind) : k ∈ all := by cases k <;> decide

def keywordText : Kind → Option String
  | and_ => some "and"
  | or_ => some "or"
  | not_ => some "not"
  | mod_ => some "mod"
  | true_ => some "true"
  | false_ => some "false"
  | invalid => some "invalid"
  | if_ => some "if"
  | then_ => some "then"
  | else_ => some "else"
  | elseIf => some "else if"
  | endIf => some "end if"
  | for_ => some "for"
  | to_ => some "to"
  | step => some "step"
  | next => some "next"
  | endFor => some "end for"
  | each => some "each"
  | while_ => some "while"
  | endWhile => some "end while"
  | exit => some "exit"
  | exitFor => some "exit for"
  | exitWhile => some "exit while"
  | function => some "function"
  | endFunction => some "end function"
  | sub => some "sub"
  | endSub => some "end sub"
  | return_ => some "return"
  | print => some "print"
  | end_ => some "end"
  | stop => some "stop"
  | goto => some "goto"
  | _ => none

def markText : Kind → Option String
  | leftParen => some "("
  | rightParen => some ")"
  | leftSquare => some "["
  | rightSquare => some "]"
  | leftCurly => some "\x7b"
  | rightCurly => some "\x7d"
  | comma => some ","
  | colon => some ":"
  | semicolon => some ";"
  | dot => some "."
  | questionMark => some "?"
  | equal => some "="
  | lessGreater => some "<>"
  | less => some "<"
  | lessEqual => some "<="
  | greater => some ">"
  | greaterEqual => some ">="
  | plus => some "+"
  | minus => some "-"
  | star => some "*"
  | slash => some "/"
  | backslash => some "\\"
  | caret => some "^"
  | leftShift => some "<<"
  | rightShift => some ">>"
  | plusPlus => some "++"
  | minusMinus => some "--"
  | plusEqual => some "+="
  | minusEqual => some "-="
  | starEqual => some "*="
  | slashEqual => some "/="
  | backslashEqual => some "\\="
  | leftShiftEqual => some "<<="
  | rightShiftEqual => some ">>="
  | _ => none

/-- How a message names a kind that it misses. -/
def label (k : Kind) : String :=
  match k.markText, k.keywordText with
  | some text, _ => text
  | none, some text => text
  | none, none =>
    match k with
    | newline => "newline"
    | endOfFile => "end of file"
    | identifier => "identifier"
    | _ => "token"

def isKeyword (k : Kind) : Bool := k.keywordText.isSome

/- Any word may name a member of an associative array or follow a dot. -/
def isWord (k : Kind) : Bool := k = identifier || k.isKeyword

def isLiteral : Kind → Bool
  | stringLiteral | integerLiteral | longIntegerLiteral | floatLiteral | doubleLiteral
  | true_ | false_ | invalid => true
  | _ => false

def isAssignment : Kind → Bool
  | equal | plusEqual | minusEqual | starEqual | slashEqual | backslashEqual | leftShiftEqual
  | rightShiftEqual => true
  | _ => false

def isSeparator : Kind → Bool
  | newline | colon | endOfFile => true
  | _ => false

def keywords : List (String × Kind) :=
  [("and", and_), ("or", or_), ("not", not_), ("mod", mod_), ("true", true_), ("false", false_),
    ("invalid", invalid), ("if", if_), ("then", then_), ("else", else_), ("elseif", elseIf),
    ("endif", endIf), ("for", for_), ("to", to_), ("step", step), ("next", next),
    ("endfor", endFor), ("each", each), ("while", while_), ("endwhile", endWhile),
    ("exit", exit), ("exitfor", exitFor), ("exitwhile", exitWhile), ("function", function),
    ("endfunction", endFunction), ("sub", sub), ("endsub", endSub), ("return", return_),
    ("print", print), ("end", end_), ("stop", stop), ("goto", goto)]

def ofKeyword? (word : String) : Option Kind := keywords.lookup word

/-- The keyword that two words make together, as `end if` does. -/
def combine? : Kind → Kind → Option Kind
  | end_, if_ => some endIf
  | end_, for_ => some endFor
  | end_, while_ => some endWhile
  | end_, function => some endFunction
  | end_, sub => some endSub
  | exit, for_ => some exitFor
  | exit, while_ => some exitWhile
  | else_, if_ => some elseIf
  | _, _ => none

end Kind

def reservedWords : List String :=
  ["and", "dim", "each", "else", "elseif", "end", "endfunction", "endif", "endsub", "endwhile",
    "eval", "exit", "exitwhile", "false", "for", "function", "goto", "if", "invalid", "let",
    "line_num", "next", "not", "objfun", "or", "pos", "print", "rem", "return", "step", "stop",
    "sub", "tab", "then", "to", "true", "type", "while"]

def isReserved (word : String) : Bool := reservedWords.contains word.toLower

end BrightScript
