import BrightScript.Emit.Capture

/-! What a scope holds after the variables of an expression have been put into it.
Collecting is a fold over the occurrences in visit order, so what it keeps can be said of lists
alone. -/
namespace BrightScript

/- The order is the one in which `captures` looks: arguments before what is called, an index
before its object. -/
mutual
def Expr.occurrences : Expr → List Ident
  | .literal _ => []
  | .var name => [name]
  | .dotted object _ _ => object.occurrences
  | .indexed object index _ => index.occurrences ++ object.occurrences
  | .call callee args _ =>
    exprsOccurrences args ++
      (match callee with
      | .var _ => []
      | callee => callee.occurrences)
  | .array elements _ => exprsOccurrences elements
  | .assoc members _ => membersOccurrences members
  | .binary _ left right _ => left.occurrences ++ right.occurrences
  | .unary _ operand _ => operand.occurrences
  | .group inner _ => inner.occurrences
  | .function _ => []
  | .conditional test consequent alternate _ =>
    test.occurrences ++ consequent.occurrences ++ alternate.occurrences

def exprsOccurrences : List Expr → List Ident
  | [] => []
  | e :: rest => e.occurrences ++ exprsOccurrences rest

def membersOccurrences : List (Member Expr) → List Ident
  | [] => []
  | .property ⟨_, _, value, _⟩ :: rest => value.occurrences ++ membersOccurrences rest
  | .comment _ :: rest => membersOccurrences rest
end

/-- Two spellings of one variable. -/
def Ident.same (x y : Ident) : Bool := Text.sameWord x.name y.name

mutual
theorem captures_eq_foldl (scope : Scope) (e : Expr) :
    e.captures scope = e.occurrences.foldl Scope.insert scope := by
  match e with
  | .literal _ | .var _ | .function _ => simp [Expr.captures, Expr.occurrences]
  | .dotted object _ _ => simp [Expr.captures, Expr.occurrences, captures_eq_foldl _ object]
  | .indexed object index _ =>
    simp [Expr.captures, Expr.occurrences, captures_eq_foldl _ object, captures_eq_foldl _ index]
  | .call callee args _ =>
    have inner := captures_eq_foldl (exprsCaptures scope args) callee
    have first := exprsCaptures_eq_foldl scope args
    cases callee <;>
      simp_all [Expr.captures, Expr.occurrences]
  | .array elements _ => simp [Expr.captures, Expr.occurrences, exprsCaptures_eq_foldl _ elements]
  | .assoc members _ => simp [Expr.captures, Expr.occurrences, membersCaptures_eq_foldl _ members]
  | .binary _ left right _ =>
    simp [Expr.captures, Expr.occurrences, captures_eq_foldl _ left, captures_eq_foldl _ right]
  | .unary _ operand _ => simp [Expr.captures, Expr.occurrences, captures_eq_foldl _ operand]
  | .group inner _ => simp [Expr.captures, Expr.occurrences, captures_eq_foldl _ inner]
  | .conditional test consequent alternate _ =>
    simp [Expr.captures, Expr.occurrences, captures_eq_foldl _ test,
      captures_eq_foldl _ consequent, captures_eq_foldl _ alternate]

theorem exprsCaptures_eq_foldl (scope : Scope) (es : List Expr) :
    exprsCaptures scope es = (exprsOccurrences es).foldl Scope.insert scope := by
  match es with
  | [] => rfl
  | e :: rest =>
    simp [exprsCaptures, exprsOccurrences, captures_eq_foldl _ e, exprsCaptures_eq_foldl _ rest]

theorem membersCaptures_eq_foldl (scope : Scope) (members : List (Member Expr)) :
    membersCaptures scope members = (membersOccurrences members).foldl Scope.insert scope := by
  match members with
  | [] => rfl
  | .property ⟨_, _, value, _⟩ :: rest =>
    simp [membersCaptures, membersOccurrences, captures_eq_foldl _ value,
      membersCaptures_eq_foldl _ rest]
  | .comment _ :: rest =>
    simp [membersCaptures, membersOccurrences, membersCaptures_eq_foldl _ rest]
end

namespace Scope

def keys (scope : Scope) : List String := scope.map (·.1)

theorem contains_iff (scope : Scope) (name : String) :
    scope.contains name = true ↔ name.toLower ∈ scope.keys := by
  unfold contains get? keys
  induction scope with
  | nil => simp
  | cons entry rest ih =>
    obtain ⟨key, x⟩ := entry
    by_cases same : name.toLower = key
    · simp [same]
    · have different : (name.toLower == key) = false := by simpa using same
      simp [List.lookup_cons, different, same, ih]

/-- How a scope keeps a variable. -/
def entry (x : Ident) : String × Ident := (x.name.toLower, x)

theorem insert_of_contains {scope : Scope} {x : Ident} (known : scope.contains x.name = true) :
    scope.insert x = scope := if_pos known

theorem insert_of_new {scope : Scope} {x : Ident} (new : scope.contains x.name = false) :
    scope.insert x = scope ++ [entry x] := if_neg (by simp [new])

/- Each variable stands once, and under its own name. -/
structure Proper (scope : Scope) : Prop where
  nodup : scope.keys.Nodup
  folded : ∀ entry ∈ scope, entry.1 = entry.2.name.toLower

theorem keys_insert (scope : Scope) (x : Ident) :
    (scope.insert x).keys =
      if x.name.toLower ∈ scope.keys then scope.keys else scope.keys ++ [x.name.toLower] := by
  unfold insert
  by_cases known : scope.contains x.name = true
  · rw [if_pos known, if_pos ((contains_iff scope x.name).mp known)]
  · rw [if_neg known, if_neg fun h => known ((contains_iff scope x.name).mpr h)]
    simp [keys]

theorem proper_insert {scope : Scope} (h : scope.Proper) (x : Ident) : (scope.insert x).Proper := by
  constructor
  · rw [keys_insert]
    split
    · exact h.nodup
    · rename_i new
      exact List.nodup_append.mpr ⟨h.nodup, by simp, by simp; exact fun k hk e => new (e ▸ hk)⟩
  · intro entry member
    unfold insert at member
    split at member
    · exact h.folded entry member
    · rcases List.mem_append.mp member with old | new
      · exact h.folded entry old
      · rw [List.mem_singleton.mp new]

theorem proper_foldl (xs : List Ident) {scope : Scope} (h : scope.Proper) :
    (xs.foldl insert scope).Proper := by
  induction xs generalizing scope with
  | nil => exact h
  | cons x rest ih => exact ih (proper_insert h x)

theorem mem_keys_insert (scope : Scope) (x : Ident) (key : String) :
    key ∈ (scope.insert x).keys ↔ key ∈ scope.keys ∨ x.name.toLower = key := by
  rw [keys_insert]
  split
  · rename_i known
    exact ⟨.inl, fun h => h.elim id fun e => e ▸ known⟩
  · simp [eq_comm]

theorem mem_keys_foldl (xs : List Ident) (scope : Scope) (key : String) :
    key ∈ (xs.foldl insert scope).keys ↔ key ∈ scope.keys ∨ ∃ x ∈ xs, x.name.toLower = key := by
  induction xs generalizing scope with
  | nil => simp
  | cons x rest ih =>
    rw [List.foldl_cons, ih, mem_keys_insert]
    simp [or_assoc]

theorem proper_collect (es : List Expr) : (collect es).Proper := by
  rw [collect, exprsCaptures_eq_foldl]
  exact proper_foldl _ ⟨by simp [keys], by simp⟩

theorem mem_keys_collect (es : List Expr) (key : String) :
    key ∈ (collect es).keys ↔ ∃ x ∈ exprsOccurrences es, x.name.toLower = key := by
  rw [collect, exprsCaptures_eq_foldl, mem_keys_foldl]
  simp [keys]

theorem Proper.keys_eq {scope : Scope} (h : scope.Proper) :
    scope.keys = scope.idents.map fun x => x.name.toLower := by
  rw [keys, idents, List.map_map]
  exact List.map_congr_left h.folded

theorem contains_append_entry (scope : Scope) (x : Ident) (name : String) :
    (scope ++ [entry x]).contains name = (scope.contains name || Text.sameWord name x.name) := by
  rw [Bool.eq_iff_iff, Bool.or_eq_true, contains_iff, contains_iff]
  simp [keys, entry, Text.sameWord]

/- What is in the scope already stays in front, and of what follows the first of each name is
kept. -/
theorem foldl_insert_eq (xs : List Ident) (scope : Scope) :
    xs.foldl insert scope =
      scope ++ ((xs.filter fun x => !scope.contains x.name).eraseDupsBy Ident.same).map entry := by
  induction xs generalizing scope with
  | nil => simp
  | cons x rest ih =>
    rw [List.foldl_cons, ih]
    cases known : scope.contains x.name with
    | true => rw [insert_of_contains known, List.filter_cons_of_neg (by simp [known])]
    | false =>
      have later : (rest.filter fun y => !(scope ++ [entry x]).contains y.name) =
          (rest.filter fun y => !scope.contains y.name).filter fun y => y.same x = false := by
        rw [List.filter_filter]
        refine List.filter_congr fun y _ => ?_
        rw [contains_append_entry, Bool.not_or, Bool.and_comm]
        cases same : y.same x <;> simp_all [Ident.same]
      rw [insert_of_new known, later, List.filter_cons_of_pos (by simp [known]),
        List.eraseDupsBy_cons, List.map_cons, List.append_assoc, List.singleton_append]

theorem idents_collect (es : List Expr) :
    (collect es).idents = (exprsOccurrences es).eraseDupsBy Ident.same := by
  have all : (exprsOccurrences es).filter (fun x => !contains [] x.name) = exprsOccurrences es :=
    List.filter_eq_self.mpr fun _ _ => rfl
  rw [collect, exprsCaptures_eq_foldl, foldl_insert_eq, all, List.nil_append, idents, List.map_map]
  exact List.map_id _

theorem get?_append_entry (scope : Scope) (x : Ident) (name : String) :
    (scope ++ [entry x]).get? name =
      (scope.get? name).or (if Text.sameWord name x.name then some x else none) := by
  have same : (name.toLower == (entry x).1) = Text.sameWord name x.name := rfl
  rw [get?, List.lookup_append, List.lookup_cons, same]
  cases Text.sameWord name x.name <;> rfl

theorem get?_insert (scope : Scope) (x : Ident) (name : String) :
    (scope.insert x).get? name =
      (scope.get? name).or (if Text.sameWord name x.name then some x else none) := by
  cases known : scope.contains x.name with
  | false => rw [insert_of_new known, get?_append_entry]
  | true =>
    rw [insert_of_contains known]
    split
    · rename_i same
      have found : (scope.get? name).isSome = true := by
        rw [get?, show name.toLower = x.name.toLower by simpa [Text.sameWord] using same]
        exact known
      rw [Option.or_of_isSome found]
    · rw [Option.or_none]

theorem get?_foldl (xs : List Ident) (scope : Scope) (name : String) :
    (xs.foldl insert scope).get? name =
      (scope.get? name).or (xs.find? fun x => Text.sameWord name x.name) := by
  induction xs generalizing scope with
  | nil => simp
  | cons x rest ih =>
    rw [List.foldl_cons, ih, get?_insert, List.find?_cons, Option.or_assoc]
    cases Text.sameWord name x.name <;> rfl

theorem get?_collect (es : List Expr) (name : String) :
    (collect es).get? name = (exprsOccurrences es).find? fun x => Text.sameWord name x.name := by
  rw [collect, exprsCaptures_eq_foldl, get?_foldl]
  rfl

end Scope
end BrightScript
