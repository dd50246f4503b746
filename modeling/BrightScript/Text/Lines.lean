/-! Lines of a text. -/
namespace BrightScript.Text

/- A line is collected backwards. A carriage return right before its end belongs to the end. -/
def endLine : List Char → List Char
  | '\r' :: line => line.reverse
  | line => line.reverse

def splitLines : List Char → List Char → List (List Char)
  | [], line => if line.isEmpty then [] else [line.reverse]
  | c :: rest, line =>
    if c = '\n' then endLine line :: splitLines rest [] else splitLines rest (c :: line)

def lines (text : String) : List String := (splitLines text.toList []).map String.ofList

def unlines (texts : List String) : String := String.join (texts.map (· ++ "\n"))

end BrightScript.Text
