/-! The types of values, and when a value of one may stand where another is wanted. -/
namespace BrightScript

structure TyParam (T : Type) where
  name : String
  type : T
  required : Bool

/- The type of a `function` or a `sub`. The name is for display only. -/
structure Signature (T : Type) where
  returns : T
  name : Option String := none
  isSub : Bool := false
  params : List (TyParam T) := []

inductive Ty where
  | dynamic | boolean | integer | longInteger | float | double | string | object | void | invalid
  | function (signature : Signature Ty)

abbrev FunctionType := Signature Ty

namespace Ty

/-- The type that a name after `as` stands for. -/
def ofName? (name : String) : Option Ty :=
  [("dynamic", dynamic), ("boolean", boolean), ("integer", integer), ("longinteger", longInteger),
    ("float", float), ("double", double), ("string", string), ("object", object), ("void", void),
    ("function", function { returns := dynamic })].lookup name.toLower

def isNumeric : Ty → Bool
  | integer | longInteger | float | double => true
  | _ => false

mutual
def display : Ty → String
  | dynamic => "dynamic"
  | boolean => "boolean"
  | integer => "integer"
  | longInteger => "longinteger"
  | float => "float"
  | double => "double"
  | string => "string"
  | object => "object"
  | void => "void"
  | invalid => "invalid"
  | function ⟨returns, name, isSub, params⟩ =>
    (if isSub then "sub " else "function ") ++ name.getD "" ++ "(" ++ displayParams params ++
      ") as " ++ returns.display

def displayParams : List (TyParam Ty) → String
  | [] => ""
  | [p] => displayParam p
  | p :: rest => displayParam p ++ ", " ++ displayParams rest

def displayParam : TyParam Ty → String
  | ⟨name, type, required⟩ => name ++ (if required then "" else "?") ++ " as " ++ type.display
end

mutual
/-- Whether a value of the first type may be stored where the second is wanted. `dynamic` goes
with everything; functions are compared place by place, parameters in the same direction as
the result. -/
def assignable : Ty → Ty → Bool
  | _, dynamic => true
  | dynamic, _ => true
  | boolean, boolean => true
  | integer, integer => true
  | longInteger, longInteger => true
  | float, float => true
  | double, double => true
  | string, string => true
  | object, object => true
  | void, void => true
  | invalid, invalid => true
  | function ⟨r, _, _, ps⟩, function ⟨r', _, _, ps'⟩ => paramsAssignable ps ps' && assignable r r'
  | _, _ => false

def paramsAssignable : List (TyParam Ty) → List (TyParam Ty) → Bool
  | [], [] => true
  | ⟨_, a, _⟩ :: ps, ⟨_, b, _⟩ :: ps' => assignable a b && paramsAssignable ps ps'
  | _, _ => false
end

def convertible (a b : Ty) : Bool := (a.isNumeric && b.isNumeric) || a.assignable b

mutual
/-- Equality of types with every name and flag of a signature counted. -/
def same : Ty → Ty → Bool
  | dynamic, dynamic => true
  | boolean, boolean => true
  | integer, integer => true
  | longInteger, longInteger => true
  | float, float => true
  | double, double => true
  | string, string => true
  | object, object => true
  | void, void => true
  | invalid, invalid => true
  | function ⟨r, n, s, ps⟩, function ⟨r', n', s', ps'⟩ =>
    same r r' && n == n' && s == s' && sameParams ps ps'
  | _, _ => false

def sameParams : List (TyParam Ty) → List (TyParam Ty) → Bool
  | [], [] => true
  | ⟨n, a, r⟩ :: ps, ⟨n', b, r'⟩ :: ps' => n == n' && same a b && r == r' && sameParams ps ps'
  | _, _ => false
end

end Ty

namespace Signature

def addParam (f : FunctionType) (name : String) (type : Ty) (required : Option Bool) :
    FunctionType :=
  { f with params := f.params ++ [⟨name, type, required != some false⟩] }

def assignable (f : FunctionType) : Ty → Bool
  | .dynamic => true
  | .function ⟨r, _, _, ps⟩ => Ty.paramsAssignable f.params ps && f.returns.assignable r
  | _ => false

def convertible (f : FunctionType) (target : Ty) : Bool := f.assignable target

def display (f : FunctionType) : String := (Ty.function f).display

end Signature
end BrightScript
