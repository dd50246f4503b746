/-! Message templates: a text with numbered places such as `{0}`, filled in one after another. -/
namespace BrightScript.Text

/- `skip` characters belong to a match that has already been replaced. -/
def replaceFrom (pattern new : List Char) (skip : Nat) : List Char → List Char
  | [] => []
  | c :: cs =>
    match skip with
    | n + 1 => replaceFrom pattern new n cs
    | 0 =>
      if pattern.isPrefixOf (c :: cs) then
        new ++ replaceFrom pattern new (pattern.length - 1) cs
      else c :: replaceFrom pattern new 0 cs

def replaceAll (pattern new text : List Char) : List Char := replaceFrom pattern new 0 text

def place (index : Nat) : List Char := '{' :: (toString index).toList ++ ['}']

/- The arguments are put in in order, and each one looks at the text that the earlier ones have
left, their own characters included. -/
def fillFrom (index : Nat) (text : List Char) : List String → List Char
  | [] => text
  | arg :: rest => fillFrom (index + 1) (replaceAll (place index) arg.toList text) rest

def fill (template : String) (args : List String) : String :=
  String.ofList (fillFrom 0 template.toList args)

end BrightScript.Text
