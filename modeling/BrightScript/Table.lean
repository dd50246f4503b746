/-! Lists of values under keys, in the order in which the keys first came. -/
namespace BrightScript.Table

variable {α : Type}

/-- Gives a key a value: in its place if the key is there, else at the end. -/
def put (table : List (String × α)) (key : String) (value : α) : List (String × α) :=
  if table.any (·.1 == key) then table.map fun x => if x.1 == key then (key, value) else x
  else table ++ [(key, value)]

end BrightScript.Table
