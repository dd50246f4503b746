import BrightScript.Config.Field
import BrightScript.Proofs.Files.Tree
import Mathlib.Data.List.Nodup
import Mathlib.Tactic.Choose

/-! Which options a list of fields stands for.
The options are a value for each field. Fields decode to options exactly if each field is given at
most once, under either of its names, with a value of its kind; the fields that are not given keep
their defaults. -/
namespace BrightScript

variable {f : Field} {key : String}

namespace Field

/-- What a field holds. -/
abbrev Value : Field → Type
  | extends_ | cwd | rootDir | stagingDir => Option String
  | files => List String
  | ignoredCodes => List UInt32
  | filters => List Filter
  | level => Severity
  | logLevel => LogLevel
  | protection => Protection
  | fullPaths | showsDiagnostics => Bool

def get (c : Config) : (f : Field) → f.Value
  | extends_ => c.extends_
  | cwd => c.cwd
  | rootDir => c.rootDir
  | files => c.files
  | stagingDir => c.stagingDir
  | ignoredCodes => c.ignoredCodes
  | filters => c.filters
  | level => c.level
  | logLevel => c.logLevel
  | protection => c.protection
  | fullPaths => c.fullPaths
  | showsDiagnostics => c.showsDiagnostics

open Json in
def value? (j : Json) : (f : Field) → Option f.Value
  | extends_ | cwd | rootDir | stagingDir => j.toOption? toString?
  | files => j.toList? toString?
  | ignoredCodes => j.toCodes?
  | filters => j.toList? Filter.ofJson?
  | level => j.toWord? Severity.words
  | logLevel => j.toWord? LogLevel.words
  | protection => j.toWord? Protection.words
  | fullPaths | showsDiagnostics => j.toBool?

def set (c : Config) : (f : Field) → f.Value → Config
  | extends_, x => { c with extends_ := x }
  | cwd, x => { c with cwd := x }
  | rootDir, x => { c with rootDir := x }
  | files, x => { c with files := x }
  | stagingDir, x => { c with stagingDir := x }
  | ignoredCodes, x => { c with ignoredCodes := x }
  | filters, x => { c with filters := x }
  | level, x => { c with level := x }
  | logLevel, x => { c with logLevel := x }
  | protection, x => { c with protection := x }
  | fullPaths, x => { c with fullPaths := x }
  | showsDiagnostics, x => { c with showsDiagnostics := x }

theorem decode?_eq (c : Config) (j : Json) (f : Field) :
    f.decode? c j = (f.value? j).map (f.set c) := by
  cases f <;> rfl

theorem get_set (c : Config) (f : Field) (x : f.Value) : f.get (f.set c x) = x := by
  cases f <;> rfl

theorem get_set_of_ne (c : Config) {g : Field} (x : f.Value) (other : g ≠ f) :
    g.get (f.set c x) = g.get c := by
  cases f <;> cases g <;> first | rfl | exact absurd rfl other

def build (value : (f : Field) → f.Value) : Config where
  extends_ := value extends_
  cwd := value cwd
  rootDir := value rootDir
  files := value files
  stagingDir := value stagingDir
  ignoredCodes := value ignoredCodes
  filters := value filters
  level := value level
  logLevel := value logLevel
  protection := value protection
  fullPaths := value fullPaths
  showsDiagnostics := value showsDiagnostics

theorem get_build (value : (f : Field) → f.Value) (f : Field) : f.get (build value) = value f := by
  cases f <;> rfl

theorem eq_of_get {c c' : Config} (h : ∀ f : Field, f.get c = f.get c') : c = c' :=
  congrArg build (funext h)

theorem ofName?_eq_some : ofName? key = some f ↔
    key = f.name ∨ key = "stagingFolderPath" ∧ f = stagingDir := by
  constructor
  · intro h
    obtain ⟨before, after, split, -⟩ := List.lookup_eq_some_iff.mp h
    have listed : (key, f) ∈ names := by simp [split]
    rcases List.mem_append.mp listed with own | second
    · obtain ⟨g, -, eq⟩ := List.mem_map.mp own
      obtain ⟨rfl, rfl⟩ := Prod.mk.inj eq
      exact .inl rfl
    · exact .inr (Prod.mk.inj (List.mem_singleton.mp second))
  · rintro (rfl | ⟨rfl, rfl⟩)
    · cases f <;> decide
    · decide

/-- The names of a field. -/
def keys : Field → List String
  | stagingDir => ["stagingDir", "stagingFolderPath"]
  | f => [f.name]

theorem mem_keys : key ∈ f.keys ↔ ofName? key = some f := by
  rw [ofName?_eq_some]
  cases f <;> simp [keys, name]

theorem nodup_keys (f : Field) : f.keys.Nodup := by
  cases f <;> decide

theorem keys_of_ne (single : f ≠ stagingDir) : f.keys = [f.name] := by
  cases f <;> first | rfl | exact absurd rfl single

end Field

namespace Config

variable {fields : List (String × Json)}

/-- The values that are given to a field, under all of its names. -/
def given (fields : List (String × Json)) (f : Field) : List Json :=
  (fields.filter fun x => Field.ofName? x.1 = some f).map (·.2)

theorem given_cons (key : String) (j : Json) (rest : List (String × Json)) (f : Field) :
    given ((key, j) :: rest) f =
      if Field.ofName? key = some f then j :: given rest f else given rest f := by
  unfold given
  rw [List.filter_cons]
  split <;> simp_all

/-- Fields are read from the left; those that were seen before may not come again. -/
theorem decodeFrom_eq_some (fields : List (String × Json)) (seen : List Field) (c c' : Config) :
    decodeFrom seen c fields = some c' ↔ ∀ f : Field,
      given fields f = [] ∧ f.get c' = f.get c ∨
      f ∉ seen ∧ ∃ j, given fields f = [j] ∧ f.value? j = some (f.get c') := by
  induction fields generalizing seen c with
  | nil =>
    have all : (∀ f : Field, f.get c' = f.get c) ↔ c = c' :=
      ⟨fun h => (Field.eq_of_get h).symm, fun h f => by rw [h]⟩
    simpa [decodeFrom, given] using all.symm
  | cons field rest ih =>
    obtain ⟨key, j⟩ := field
    rw [decodeFrom]
    simp only [given_cons]
    cases known : Field.ofName? key with
    | none => simpa using ih seen c
    | some g =>
      simp only [Option.some.injEq]
      by_cases again : g ∈ seen
      · rw [if_pos again]
        refine iff_of_false (by simp) fun h => ?_
        simpa [again] using h g
      rw [if_neg again, Field.decode?_eq]
      cases fits : g.value? j with
      | none =>
        refine iff_of_false (by simp) fun h => ?_
        rcases h g with ⟨absent, -⟩ | ⟨-, j', only, value⟩
        · simp at absent
        · rw [if_pos rfl, List.cons.injEq] at only
          rw [← only.1, fits] at value
          cases value
      | some x =>
        simp only [Option.map_some, Option.bind_some, ih]
        refine forall_congr' fun f => ?_
        by_cases same : g = f
        · subst same
          simp only [Field.get_set, List.mem_cons_self, not_true_eq_false, false_and, or_false,
            if_true, again, not_false_eq_true, true_and, reduceCtorEq, false_or, List.cons.injEq]
          constructor
          · rintro ⟨none, eq⟩
            exact ⟨j, ⟨rfl, none⟩, by rw [fits, eq]⟩
          · rintro ⟨j', ⟨rfl, none⟩, eq⟩
            exact ⟨none, Option.some.inj (eq.symm.trans fits)⟩
        · rw [if_neg same, Field.get_set_of_ne c x (Ne.symm same), List.mem_cons, not_or]
          simp [Ne.symm same]

/-- Each field is given once with a value of its kind, or not at all. -/
def Gives (fields : List (String × Json)) (f : Field) (x : f.Value) : Prop :=
  given fields f = [] ∧ x = f.get {} ∨ ∃ j, given fields f = [j] ∧ f.value? j = some x

theorem ofFields?_eq_some {c : Config} :
    ofFields? fields = some c ↔ ∀ f : Field, Gives fields f (f.get c) := by
  simp [ofFields?, decodeFrom_eq_some, Gives]

theorem exists_ofFields?_eq_some :
    (∃ c, ofFields? fields = some c) ↔ ∀ f : Field, ∃ x, Gives fields f x := by
  constructor
  · rintro ⟨c, h⟩ f
    exact ⟨f.get c, ofFields?_eq_some.mp h f⟩
  · intro h
    choose value gives using h
    exact ⟨Field.build value, ofFields?_eq_some.mpr fun f => by simpa [Field.get_build] using gives f⟩

theorem mem_given {j : Json} (known : Field.ofName? key = some f)
    (found : fields.lookup key = some j) : j ∈ given fields f := by
  obtain ⟨before, after, rfl, -⟩ := List.lookup_eq_some_iff.mp found
  exact List.mem_map.mpr ⟨(key, j), by simp [known], rfl⟩

theorem Gives.value {x : f.Value} (gives : Gives fields f x) {j : Json}
    (known : Field.ofName? key = some f) (found : fields.lookup key = some j) :
    f.value? j = some x := by
  have listed := mem_given known found
  rcases gives with ⟨none, -⟩ | ⟨j', one, value⟩
  · simp [none] at listed
  · rw [one, List.mem_singleton] at listed
    rwa [listed]

/-- No key stands twice. -/
def Apart (fields : List (String × Json)) : Prop := (fields.map (·.1)).Nodup

theorem Apart.lookup_eq_some_iff (apart : Apart fields) {j : Json} :
    fields.lookup key = some j ↔ (key, j) ∈ fields := by
  rw [List.lookup_eq_some_iff]
  constructor
  · rintro ⟨before, after, rfl, -⟩
    simp
  · intro mem
    obtain ⟨before, after, rfl⟩ := List.append_of_mem mem
    refine ⟨before, after, rfl, fun x first => ?_⟩
    rw [Apart, List.map_append, List.nodup_append] at apart
    have ne := apart.2.2 x.1 (List.mem_map_of_mem first) key (by simp)
    simpa using Ne.symm ne

theorem given_perm (apart : Apart fields) (f : Field) :
    (given fields f).Perm (f.keys.filterMap fun key => fields.lookup key) := by
  have pairs : (fields.filter fun x => Field.ofName? x.1 = some f).Perm
      (f.keys.filterMap fun key => (fields.lookup key).map (key, ·)) := by
    rw [List.perm_ext_iff_of_nodup]
    · rintro ⟨key, j⟩
      simp only [List.mem_filter, decide_eq_true_eq, List.mem_filterMap, Option.map_eq_some_iff,
        Prod.mk.injEq, Field.mem_keys, apart.lookup_eq_some_iff]
      constructor
      · rintro ⟨mem, known⟩
        exact ⟨key, known, j, mem, rfl, rfl⟩
      · rintro ⟨_, known, _, mem, rfl, rfl⟩
        exact ⟨mem, known⟩
    · exact (List.Nodup.of_map _ apart).filter _
    · refine List.Nodup.filterMap (fun key key' x found found' => ?_) f.nodup_keys
      obtain ⟨_, -, rfl⟩ := Option.map_eq_some_iff.mp found
      obtain ⟨_, -, eq⟩ := Option.map_eq_some_iff.mp found'
      exact (Prod.mk.inj eq).1.symm
  have values := pairs.map (·.2)
  simpa [given, List.map_filterMap, Function.comp_def] using values

theorem gives_iff_keys (apart : Apart fields) (x : f.Value) : Gives fields f x ↔
      (f.keys.filterMap fun key => fields.lookup key) = [] ∧ x = f.get {} ∨
      ∃ j, (f.keys.filterMap fun key => fields.lookup key) = [j] ∧ f.value? j = some x := by
  have same := given_perm apart f
  have none : given fields f = [] ↔ (f.keys.filterMap fun key => fields.lookup key) = [] :=
    ⟨fun eq => (eq ▸ same).nil_eq.symm, fun eq => (eq ▸ same).eq_nil⟩
  have one (j : Json) :
      given fields f = [j] ↔ (f.keys.filterMap fun key => fields.lookup key) = [j] :=
    ⟨fun eq => (eq ▸ same).singleton_eq.symm, fun eq => (eq ▸ same).eq_singleton⟩
  simp only [Gives, none, one]

theorem gives_iff (apart : Apart fields) (single : f ≠ .stagingDir) (x : f.Value) :
    Gives fields f x ↔
      match fields.lookup f.name with
      | none => x = f.get {}
      | some j => f.value? j = some x := by
  rw [gives_iff_keys apart, Field.keys_of_ne single]
  cases found : fields.lookup f.name <;> simp [found]

theorem gives_stagingDir (apart : Apart fields) (x : Field.Value .stagingDir) :
    Gives fields .stagingDir x ↔
      match fields.lookup "stagingDir", fields.lookup "stagingFolderPath" with
      | none, none => x = Field.get {} .stagingDir
      | some j, none | none, some j => Field.value? j .stagingDir = some x
      | some _, some _ => False := by
  rw [gives_iff_keys apart, Field.keys]
  cases first : fields.lookup "stagingDir" <;>
  cases second : fields.lookup "stagingFolderPath" <;> simp [first, second]

end Config
end BrightScript
