import BrightScript.Proofs.Config.Decode

/-! Options survive being written and read again.
In JSON the order of the fields of an object does not count, so the options come back from every
arrangement of the value that they are written to. A filter with a path and codes fits the shape
with codes only as well, but that one is tried last. -/
namespace BrightScript

theorem Number.natural?_toDigits (n : Nat) : natural? (Nat.toDigits 10 n) = some n := by
  have digits : ∀ c ∈ Nat.toDigits 10 n, c.isDigit = true := fun c mem =>
    Nat.isDigit_of_mem_toDigits (by decide) (by decide) mem
  have value : ofDigits 10 (Nat.toDigits 10 n) = Nat.ofDigitChars 10 (Nat.toDigits 10 n) 0 :=
    List.foldl_ext _ _ 0 fun m c mem => by simp [digitValue, digits c mem]
  rw [natural?, value, Nat.ofDigitChars_ten_toDigits]
  simpa using digits

namespace Json

/-- The same value, with the fields of its objects in any order. -/
inductive Rearranged : Json → Json → Prop where
  | refl (j : Json) : Rearranged j j
  | array {items items' : List Json} : List.Forall₂ Rearranged items items' →
      Rearranged (array items) (array items')
  | object {fields fields' fields'' : List (String × Json)} :
      fields.map (·.1) = fields'.map (·.1) →
      List.Forall₂ Rearranged (fields.map (·.2)) (fields'.map (·.2)) → fields'.Perm fields'' →
      Rearranged (object fields) (object fields'')

variable {α : Type} {j : Json}

theorem forall₂_refl (items : List Json) : List.Forall₂ Rearranged items items :=
  List.forall₂_same.mpr fun j _ => .refl j

theorem Rearranged.of_array {items : List Json} (h : Rearranged (.array items) j) :
    ∃ items', j = .array items' ∧ List.Forall₂ Rearranged items items' := by
  cases h with
  | refl => exact ⟨items, rfl, forall₂_refl items⟩
  | array h => exact ⟨_, rfl, h⟩

def Matched (fields fields' : List (String × Json)) : Prop :=
  fields.map (·.1) = fields'.map (·.1) ∧
    List.Forall₂ Rearranged (fields.map (·.2)) (fields'.map (·.2))

theorem Matched.of_cons {key : String} {fields fields' : List (String × Json)}
    (h : Matched ((key, j) :: fields) fields') :
    ∃ j' rest, fields' = (key, j') :: rest ∧ Rearranged j j' ∧ Matched fields rest := by
  obtain ⟨keys, values⟩ := h
  match fields', values with
  | (_, j') :: rest, .cons first values =>
    obtain ⟨rfl, tail⟩ := List.cons.inj keys
    exact ⟨j', rest, rfl, first, tail, values⟩

theorem Matched.of_nil {fields : List (String × Json)} (h : Matched [] fields) : fields = [] :=
  List.map_eq_nil_iff.mp h.1.symm

theorem Rearranged.of_object {fields : List (String × Json)} (h : Rearranged (.object fields) j) :
    ∃ fields' fields'', j = .object fields'' ∧ Matched fields fields' ∧ fields'.Perm fields'' := by
  cases h with
  | refl => exact ⟨fields, fields, rfl, ⟨rfl, forall₂_refl _⟩, List.Perm.refl _⟩
  | object keys values order => exact ⟨_, _, rfl, ⟨keys, values⟩, order⟩

/-- Reading takes back what is written, in any arrangement. -/
def Inverts (read : Json → Option α) (write : α → Json) : Prop :=
  ∀ a j, Rearranged (write a) j → read j = some a

theorem inverts_string : Inverts toString? string := by
  rintro a _ ⟨⟩
  rfl

theorem inverts_bool : Inverts toBool? bool := by
  rintro a _ ⟨⟩
  rfl

theorem inverts_code : Inverts toCode? ofCode := by
  rintro code _ ⟨⟩
  have small : code.toNat < 4294967296 := code.toNat_lt
  simp [ofCode, nat, toCode?, Number.below?, Number.natural?_toDigits, small]

theorem Inverts.list {read : Json → Option α} {write : α → Json} (back : Inverts read write) :
    Inverts (toList? read) fun as => .array (as.map write) := by
  intro as j h
  obtain ⟨items, rfl, each⟩ := h.of_array
  clear h
  change items.mapM read = some as
  induction as generalizing items with
  | nil =>
    cases each
    rfl
  | cons a as ih =>
    cases each with
    | cons first rest => simp [back a _ first, ih _ rest]

theorem Inverts.option {read : Json → Option α} {write : α → Json} (back : Inverts read write)
    (other : read null = none) : Inverts (toOption? read) (ofOption write) := by
  rintro (_ | a) j h
  · cases h
    rfl
  · have found := back a j h
    cases j <;> simp_all [toOption?]

theorem inverts_word {words : List (String × α)} {word : α → String}
    (listed : ∀ a, words.lookup (word a) = some a) :
    Inverts (toWord? words) fun a => string (word a) := by
  rintro a _ ⟨⟩
  exact listed a

theorem inverts_codes : Inverts toCodes? ofCodes := by
  intro codes j h
  obtain ⟨items, rfl, -⟩ := Rearranged.of_array h
  exact inverts_code.list codes _ h

theorem valuesOf_eq {fields fields' : List (String × Json)} (order : fields.Perm fields')
    (key : String) (js : List Json) (short : js.length ≤ 1) (here : valuesOf fields key = js) :
    valuesOf fields' key = js := by
  have same : js.Perm (valuesOf fields' key) := here ▸ (order.filter _).map _
  match js, short with
  | [], _ => exact same.nil_eq.symm
  | [_], _ => exact same.singleton_eq.symm

end Json

open Json

theorem Filter.inverts : Inverts ofJson? toJson := by
  rintro (code | path | ⟨path, codes⟩ | codes) j h
  · have found := inverts_code code j h
    cases j <;> simp_all [ofJson?, toCode?]
  · cases h
    rfl
  · obtain ⟨_, fields, rfl, fits, order⟩ := Rearranged.of_object h
    obtain ⟨_, _, rfl, ⟨⟩, tail⟩ := fits.of_cons
    obtain ⟨x, _, rfl, second, tail⟩ := tail.of_cons
    obtain rfl := tail.of_nil
    have src := valuesOf_eq order "src" [.string path] (by simp) rfl
    have rest := valuesOf_eq order "codes" [x] (by simp) rfl
    have found := inverts_codes.option rfl codes x second
    rw [ofJson?, ofSource?, src, rest]
    cases x <;> simp_all [toOption?]
  · obtain ⟨_, fields, rfl, fits, order⟩ := Rearranged.of_object h
    obtain ⟨x, _, rfl, first, tail⟩ := fits.of_cons
    obtain rfl := tail.of_nil
    have src := valuesOf_eq order "src" [] (by simp) rfl
    have rest := valuesOf_eq order "codes" [x] (by simp) rfl
    simp [ofJson?, ofSource?, ofCodes?, src, rest, inverts_codes codes x first]

theorem Field.inverts (c : Config) (f : Field) {j : Json} (h : Rearranged (f.encode c) j) :
    f.value? j = some (f.get c) := by
  cases f with
  | extends_ | cwd | rootDir | stagingDir => exact inverts_string.option rfl _ j h
  | files => exact inverts_string.list _ j h
  | ignoredCodes => exact inverts_codes _ j h
  | filters => exact Filter.inverts.list _ j h
  | level => exact inverts_word (fun a => by cases a <;> rfl) _ j h
  | logLevel => exact inverts_word (fun a => by cases a <;> rfl) _ j h
  | protection => exact inverts_word (fun a => by cases a <;> rfl) _ j h
  | fullPaths | showsDiagnostics => exact inverts_bool _ j h

namespace Config

theorem given_matched {fields fields' : List (String × Json)} (h : Matched fields fields')
    (f : Field) : List.Forall₂ Rearranged (given fields f) (given fields' f) := by
  induction fields generalizing fields' with
  | nil =>
    rw [h.of_nil]
    exact .nil
  | cons field fields ih =>
    obtain ⟨j, rest, rfl, here, h⟩ := h.of_cons
    rw [given_cons, given_cons]
    split
    · exact .cons here (ih h)
    · exact ih h

/-- Options are read again from the value that they are written to, whatever the order of the fields
in its objects. -/
theorem read_rearranged (c : Config) {j : Json} (h : Rearranged c.toJson j) :
    ofJson? j = some c := by
  obtain ⟨fields, fields', rfl, fits, order⟩ := h.of_object
  refine ofFields?_eq_some.mpr fun f => .inr ?_
  have written : given (Field.all.map fun f => (f.name, f.encode c)) f = [f.encode c] := by
    cases f <;> rfl
  have once := given_matched fits f
  rw [written] at once
  match eq : given fields f, once with
  | [j], .cons here .nil =>
    have same : (given fields f).Perm (given fields' f) := (order.filter _).map _
    exact ⟨j, (eq ▸ same).singleton_eq.symm, Field.inverts c f here⟩

theorem read_reversed :
    let c : Config := { ignoredCodes := [1020], filters := [.code 1001, .path "lib",
      .source "a.brs" (some [1002]), .source "b.brs" none, .codes [1003, 1004]] }
    let j := .object (Field.all.map fun f => (f.name, f.encode c)).reverse
    Rearranged c.toJson j ∧ ofJson? j = some c := by
  intro c j
  have arranged : Rearranged c.toJson j :=
    .object rfl (forall₂_refl _) (List.reverse_perm _).symm
  exact ⟨arranged, read_rearranged c arranged⟩

end Config
end BrightScript
