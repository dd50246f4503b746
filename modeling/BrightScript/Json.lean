import BrightScript.Table

/-! JSON values. A number is kept as it is written, and an object keeps its fields in order and
repeated keys with them. -/
namespace BrightScript

inductive Json where
  | null
  | bool (b : Bool)
  | number (literal : String)
  | string (text : String)
  | array (items : List Json)
  | object (fields : List (String × Json))

namespace Json

def nat (n : Nat) : Json := number (toString n)

def ofOption {α : Type} (f : α → Json) : Option α → Json
  | some a => f a
  | none => null

mutual
def lastFields : Json → Json
  | array items => array (lastFieldsItems items)
  | object fields => object (lastFieldsInto [] fields)
  | null => null
  | bool b => bool b
  | number literal => number literal
  | string text => string text

def lastFieldsItems : List Json → List Json
  | [] => []
  | j :: rest => j.lastFields :: lastFieldsItems rest

def lastFieldsInto (done : List (String × Json)) : List (String × Json) → List (String × Json)
  | [] => done
  | (key, value) :: rest => lastFieldsInto (Table.put done key value.lastFields) rest
end

end Json
end BrightScript
