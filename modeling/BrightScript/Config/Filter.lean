import BrightScript.Json
import BrightScript.Number.Decimal

/-! Filters that keep reports back, by code, by path or by both. -/
namespace BrightScript

inductive Filter where
  | code (code : UInt32)
  | path (path : String)
  /- Without codes, everything below the path. -/
  | source (path : String) (codes : Option (List UInt32))
  | codes (codes : List UInt32)
  deriving DecidableEq, Repr

namespace Filter

def normalize (path : String) : List Char :=
  match path.toList.map fun c => if c = '\\' then '/' else c with
  | '.' :: '/' :: rest => rest
  | chars => chars

def trimSlashes (chars : List Char) : List Char := (chars.reverse.dropWhile (· = '/')).reverse

def covers (pattern file : String) : Bool :=
  let pattern := trimSlashes (normalize pattern)
  let file := normalize file
  pattern.isPrefixOf file &&
    match file.drop pattern.length with
    | [] => true
    | c :: _ => c = '/'

def hides (filter : Filter) (code : Nat) (file : Option String) : Bool :=
  match filter with
  | .code c => c.toNat = code
  | codes cs => cs.any (·.toNat = code)
  | path p => file.any (covers p)
  | source p cs => file.any (covers p) && cs.all fun cs => cs.any (·.toNat = code)

end Filter

namespace Json

def toCode? : Json → Option UInt32
  | number literal => (Number.below? (Nat.pow 2 32) literal.toList).map UInt32.ofNat
  | _ => none

def ofCode (code : UInt32) : Json := nat code.toNat

def toCodes? : Json → Option (List UInt32)
  | array items => items.mapM toCode?
  | _ => none

def ofCodes (codes : List UInt32) : Json := array (codes.map ofCode)

def valuesOf (fields : List (String × Json)) (key : String) : List Json :=
  (fields.filter (·.1 == key)).map (·.2)

end Json

namespace Filter

/- A repeated key fits no shape that has the key. -/
def ofSource? (fields : List (String × Json)) : Option Filter :=
  match Json.valuesOf fields "src", Json.valuesOf fields "codes" with
  | [.string p], [] => some (source p none)
  | [.string p], [.null] => some (source p none)
  | [.string p], [cs] => cs.toCodes?.map fun cs => source p (some cs)
  | _, _ => none

def ofCodes? (fields : List (String × Json)) : Option Filter :=
  match Json.valuesOf fields "codes" with
  | [cs] => cs.toCodes?.map codes
  | _ => none

def ofJson? : Json → Option Filter
  | .string s => some (path s)
  | .object fields => (ofSource? fields).or (ofCodes? fields)
  | j => j.toCode?.map code

def toJson : Filter → Json
  | code c => .ofCode c
  | path p => .string p
  | source p cs => .object [("src", .string p), ("codes", .ofOption .ofCodes cs)]
  | codes cs => .object [("codes", .ofCodes cs)]

end Filter
end BrightScript
