import BrightScript.Proofs.Config.Decode
import BrightScript.Proofs.Config.Extends

/-! Options that a file takes over from the files that it extends.
The fields of all files of a chain are put together under their keys before they are decoded. So a
field has the value of the first file that sets it, as long as no two files call it by different
names. -/
namespace BrightScript

namespace Table

variable {α : Type}

theorem keys_put (table : List (String × α)) (key : String) (value : α) :
    (put table key value).map (·.1) =
      if key ∈ table.map (·.1) then table.map (·.1) else table.map (·.1) ++ [key] := by
  have known : table.any (·.1 == key) = true ↔ key ∈ table.map (·.1) := by
    simp [List.any_eq_true]
  unfold put
  by_cases mem : key ∈ table.map (·.1)
  · rw [if_pos (known.mpr mem), if_pos mem, List.map_map]
    refine List.map_congr_left fun x _ => ?_
    by_cases same : x.1 = key <;> simp [same]
  · rw [if_neg (mt known.mp mem), if_neg mem, List.map_append]
    rfl

theorem nodup_put {table : List (String × α)} (h : (table.map (·.1)).Nodup) (key : String)
    (value : α) : ((put table key value).map (·.1)).Nodup := by
  rw [keys_put]
  split
  · exact h
  · rename_i new
    exact List.nodup_append.mpr ⟨h, by simp, by grind⟩

end Table

namespace Config

variable {key : String} {fields : List (String × Json)} {j : Json} {files : List File} {f : Field}

theorem apart_lastFieldsInto {done : List (String × Json)} (h : Apart done)
    (fields : List (String × Json)) : Apart (Json.lastFieldsInto done fields) := by
  induction fields generalizing done with
  | nil => simpa [Json.lastFieldsInto] using h
  | cons field rest ih =>
    obtain ⟨key, value⟩ := field
    rw [Json.lastFieldsInto]
    exact ih (Table.nodup_put h key _)

theorem apart_fileFields {t : FileTree} {path : String} (h : fileFields t path = .ok fields) :
    Apart fields := by
  obtain ⟨_, text, -, -, -, read⟩ := fileFields_ok h
  unfold readFields at read
  split at read
  · cases read
  · rename_i j _
    cases j with
    | object all =>
      simp only [Json.lastFields] at read
      obtain rfl := Except.ok.inj read
      have empty : Apart [] := List.nodup_nil
      exact apart_lastFieldsInto empty all
    | _ => simp [Json.lastFields] at read

theorem apart_resolvePaths {dir : String} (h : Apart fields) : Apart (resolvePaths dir fields) := by
  rw [Apart, resolvePaths_eq, List.map_map]
  exact h

theorem apart_putAll {inherited : List (String × Json)} (h : Apart inherited)
    (own : List (String × Json)) :
    Apart (own.foldl (fun fields f => Table.put fields f.1 f.2) inherited) := by
  induction own generalizing inherited with
  | nil => exact h
  | cons f rest ih => exact ih (Table.nodup_put h f.1 f.2)

theorem lookup_putAll {own : List (String × Json)} (h : Apart own)
    (inherited : List (String × Json)) (key : String) :
    (own.foldl (fun fields f => Table.put fields f.1 f.2) inherited).lookup key =
      (own.lookup key).or (inherited.lookup key) := by
  induction own generalizing inherited with
  | nil => rfl
  | cons f rest ih =>
    obtain ⟨name, value⟩ := f
    rw [Apart, List.map_cons, List.nodup_cons] at h
    rw [List.foldl_cons, ih h.2, Table.lookup_put, Table.lookup_cons]
    by_cases same : key = name
    · subst same
      have absent : rest.lookup key = none := by
        rw [List.lookup_eq_none_iff]
        intro x mem
        simpa using Ne.symm (ne_of_mem_of_not_mem (List.mem_map_of_mem mem) h.1)
      simp [absent]
    · simp [same]

theorem lookup_filter_ne (fields : List (String × Json)) (name key : String) :
    (fields.filter (·.1 ≠ name)).lookup key = if key = name then none else fields.lookup key := by
  induction fields with
  | nil => simp
  | cons x rest ih =>
    obtain ⟨first, value⟩ := x
    by_cases same : first = name
    · rw [List.filter_cons_of_neg (by simpa using same), ih, Table.lookup_cons]
      split
      · rfl
      · rename_i other
        rw [if_neg (same ▸ other)]
    · rw [List.filter_cons_of_pos (by simpa using same), Table.lookup_cons, ih, Table.lookup_cons]
      split
      · rename_i eq
        rw [if_neg (eq ▸ same)]
      · rfl

theorem apart_filter (h : Apart fields) (p : String × Json → Bool) : Apart (fields.filter p) :=
  h.sublist ((List.filter_sublist).map _)

theorem lookup_override {own : List (String × Json)} (h : Apart own)
    (inherited : List (String × Json)) (key : String) : (override own inherited).lookup key =
      if key = "extends" then inherited.lookup key
      else (own.lookup key).or (inherited.lookup key) := by
  rw [override, lookup_putAll (apart_filter h _), lookup_filter_ne]
  split <;> simp

/- One of the files that a project is loaded from. -/
structure File where
  path : String
  fields : List (String × Json)

namespace File

/-- Without what the file extends. -/
def own (file : File) : List (String × Json) := file.fields.filter (·.1 ≠ "extends")

def dir (file : File) : String := Path.directory file.path

end File

def seenFrom (dir : String) (c : Config) : Config :=
  { c with
    cwd := c.cwd.map (Path.join dir)
    rootDir := c.rootDir.map (Path.join dir)
    stagingDir := c.stagingDir.map (Path.join dir) }

namespace File

/-- The options in the file by itself. -/
def config? (file : File) : Option Config := (ofFields? file.own).map (seenFrom file.dir)

def sets (file : File) (f : Field) : Bool :=
  file.own.any fun x => Field.ofName? x.1 = some f

def value? (file : File) (f : Field) : Option f.Value :=
  if file.sets f then file.config?.map (f.get ·) else none

end File

theorem resolved_of_other (other : isPathField key = false) (dir : String) (j : Json) :
    resolved dir key j = j := by
  cases j <;> simp [resolved, other]

theorem resolved_path (path : isPathField key = true) (dir : String) {x : Option String}
    (h : j.toOption? Json.toString? = some x) :
    (resolved dir key j).toOption? Json.toString? = some (x.map (Path.join dir)) := by
  cases j with
  | null =>
    obtain rfl := Option.some.inj h
    rfl
  | string s =>
    obtain rfl := Option.some.inj h
    simp [resolved, path, Json.toOption?, Json.toString?]
  | _ => simp [Json.toOption?, Json.toString?] at h

theorem value?_resolved (known : Field.ofName? key = some f) (dir : String) {c : Config}
    (h : f.value? j = some (f.get c)) :
    f.value? (resolved dir key j) = some (f.get (seenFrom dir c)) := by
  rcases Field.ofName?_eq_some.mp known with rfl | ⟨rfl, rfl⟩
  · cases f with
    | cwd | rootDir | stagingDir => exact resolved_path rfl dir h
    | _ =>
      rw [resolved_of_other rfl]
      exact h
  · exact resolved_path rfl dir h

namespace File

variable {file : File}

theorem sets_iff : file.sets f = true ↔ ∃ key, Field.ofName? key = some f ∧ key ≠ "extends" ∧
    (file.fields.lookup key).isSome := by
  simp only [sets, own, List.any_eq_true, List.mem_filter, decide_eq_true_eq]
  constructor
  · rintro ⟨x, ⟨mem, other⟩, known⟩
    refine ⟨x.1, known, other, ?_⟩
    rw [Option.isSome_iff_ne_none, ne_eq, List.lookup_eq_none_iff]
    intro absent
    simpa using absent x mem
  · rintro ⟨key, known, other, found⟩
    obtain ⟨j, eq⟩ := Option.isSome_iff_exists.mp found
    obtain ⟨before, after, split, -⟩ := List.lookup_eq_some_iff.mp eq
    exact ⟨(key, j), ⟨by simp [split], other⟩, known⟩

theorem value_of_lookup (alone : file.config?.isSome) (known : Field.ofName? key = some f)
    (other : key ≠ "extends") (found : file.fields.lookup key = some j) :
    ∃ c, file.config? = some c ∧ f.value? (resolved file.dir key j) = some (f.get c) := by
  obtain ⟨c, eq⟩ := Option.isSome_iff_exists.mp alone
  obtain ⟨c, decoded, rfl⟩ := Option.map_eq_some_iff.mp eq
  refine ⟨_, eq, value?_resolved known file.dir ?_⟩
  refine (ofFields?_eq_some.mp decoded f).value known ?_
  rw [own, lookup_filter_ne, if_neg other, found]

theorem value?_eq (alone : file.config?.isSome) (known : Field.ofName? key = some f)
    (other : key ≠ "extends") (only : ∀ key', Field.ofName? key' = some f → key' ≠ key →
      file.fields.lookup key' = none) : file.value? f =
      ((file.fields.lookup key).map (resolved file.dir key)).bind (f.value? ·) := by
  cases found : file.fields.lookup key with
  | none =>
    have unset : ¬file.sets f = true := by
      rw [sets_iff]
      rintro ⟨key', known', -, found'⟩
      by_cases same : key' = key
      · simp [same, found] at found'
      · simp [only key' known' same] at found'
    rw [value?, if_neg unset]
    rfl
  | some j =>
    have set : file.sets f = true := sets_iff.mpr ⟨key, known, other, by simp [found]⟩
    obtain ⟨c, eq, value⟩ := value_of_lookup alone known other found
    rw [value?, if_pos set, eq]
    exact value.symm

end File

/-- The files from a path on, each extending the next one, and none of them visited before. -/
inductive Chain (t : FileTree) : List Location → String → List File → Prop where
  | last {visited : List Location} {path : String} {at_ : Location}
      {fields : List (String × Json)} : t.locate path = .ok at_ → at_ ∉ visited →
      fileFields t path = .ok fields → parent? (Path.directory path) fields = none →
      Chain t visited path [⟨path, fields⟩]
  | more {visited : List Location} {path next : String} {at_ : Location}
      {fields : List (String × Json)} {rest : List File} : t.locate path = .ok at_ →
      at_ ∉ visited → fileFields t path = .ok fields →
      parent? (Path.directory path) fields = some next → Chain t (at_ :: visited) next rest →
      Chain t visited path (⟨path, fields⟩ :: rest)

def merged : List File → List (String × Json)
  | [] => []
  | [file] => resolvePaths file.dir file.fields
  | file :: rest => override (resolvePaths file.dir file.fields) (merged rest)

namespace Chain

variable {t : FileTree} {visited : List Location} {path : String}

theorem loadFields_eq (h : Chain t visited path files) :
    loadFields t visited path = .ok (merged files) := by
  induction h with
  | @last visited path at_ fields found fresh eq none =>
    have new : ¬Visit.Returns t ⟨visited, path⟩ := by
      rintro ⟨at', mem, found'⟩
      exact fresh (Except.ok.inj (found.symm.trans found') ▸ mem)
    rw [loadFields_of_ok new eq found, none]
    rfl
  | @more visited path next at_ fields rest found fresh eq parent chain ih =>
    have new : ¬Visit.Returns t ⟨visited, path⟩ := by
      rintro ⟨at', mem, found'⟩
      exact fresh (Except.ok.inj (found.symm.trans found') ▸ mem)
    simp only [loadFields_of_ok new eq found, parent, ih]
    cases chain <;> rfl

theorem apart (h : Chain t visited path files) : ∀ file ∈ files, Apart file.fields := by
  induction h with
  | last _ _ eq _ => simpa using apart_fileFields eq
  | more _ _ eq _ _ ih => exact List.forall_mem_cons.mpr ⟨apart_fileFields eq, ih⟩

theorem last_parent (h : Chain t visited path files) :
    ∀ file ∈ files.getLast?, parent? file.dir file.fields = none := by
  induction h with
  | last _ _ _ none => simpa [File.dir] using none
  | more _ _ _ _ chain ih => cases chain <;> simpa using ih

end Chain

theorem apart_merged (h : ∀ file ∈ files, Apart file.fields) : Apart (merged files) := by
  fun_induction merged files with
  | case1 => exact List.nodup_nil
  | case2 file => exact apart_resolvePaths (h file List.mem_cons_self)
  | case3 file rest _ ih => exact apart_putAll (ih (List.forall_mem_cons.mp h).2) _

/-- Under a key, the value of the first file that has the key. -/
theorem lookup_merged (h : ∀ file ∈ files, Apart file.fields) (other : key ≠ "extends") :
    (merged files).lookup key =
      files.findSome? fun file => (file.fields.lookup key).map (resolved file.dir key) := by
  fun_induction merged files with
  | case1 => rfl
  | case2 file =>
    rw [lookup_resolvePaths]
    simp
  | case3 file rest _ ih =>
    rw [List.forall_mem_cons] at h
    rw [lookup_override (apart_resolvePaths h.1), if_neg other, lookup_resolvePaths, ih h.2,
      List.findSome?_cons]
    cases file.fields.lookup key <;> rfl

theorem lookup_extends_merged (h : ∀ file ∈ files, Apart file.fields) :
    (merged files).lookup "extends" = files.getLast?.bind (·.fields.lookup "extends") := by
  fun_induction merged files with
  | case1 => rfl
  | case2 file =>
    have same : resolved file.dir "extends" = id := funext (resolved_of_other rfl file.dir)
    simp [lookup_resolvePaths, same]
  | case3 file rest more ih =>
    rw [List.forall_mem_cons] at h
    rw [lookup_override (apart_resolvePaths h.1), if_pos rfl, ih h.2]
    cases rest with
    | nil => exact absurd rfl more
    | cons next rest => rw [List.getLast?_cons_cons]

theorem findSome?_bind {α β γ : Type} (g : α → Option β) (v : β → Option γ) {l : List α}
    (total : ∀ a ∈ l, ∀ b, g a = some b → (v b).isSome) :
    l.findSome? (fun a => (g a).bind v) = (l.findSome? g).bind v := by
  induction l with
  | nil => rfl
  | cons a rest ih =>
    rw [List.forall_mem_cons] at total
    rw [List.findSome?_cons, List.findSome?_cons]
    cases found : g a with
    | none => simpa using ih total.2
    | some b =>
      obtain ⟨c, value⟩ := Option.isSome_iff_exists.mp (total.1 b found)
      simp [value]

section
variable (apart : ∀ file ∈ files, Apart file.fields) (alone : ∀ file ∈ files, file.config?.isSome)
  (known : Field.ofName? key = some f) (other : key ≠ "extends")
include apart alone known other

theorem isSome_value_merged (found : (merged files).lookup key = some j) : (f.value? j).isSome := by
  rw [lookup_merged apart other] at found
  obtain ⟨file, mem, here⟩ := List.exists_of_findSome?_eq_some found
  obtain ⟨j, eq, rfl⟩ := Option.map_eq_some_iff.mp here
  obtain ⟨c, -, value⟩ := File.value_of_lookup (alone file mem) known other eq
  simp [value]

/-- With the files put together, the value of a field that goes by one name only is that of the
first file that sets it. -/
theorem value_merged (only : ∀ file ∈ files, ∀ key', Field.ofName? key' = some f → key' ≠ key →
      file.fields.lookup key' = none) (x : f.Value) :
    (match (merged files).lookup key with
      | none => x = f.get {}
      | some j => f.value? j = some x) ↔ x = (files.findSome? (·.value? f)).getD (f.get {}) := by
  have values : files.findSome? (·.value? f) = ((merged files).lookup key).bind (f.value? ·) := by
    rw [lookup_merged apart other, ← findSome?_bind]
    · induction files with
      | nil => rfl
      | cons file rest ih =>
        simp only [List.forall_mem_cons] at apart alone only
        rw [List.findSome?_cons, List.findSome?_cons, ih apart.2 alone.2 only.2,
          File.value?_eq alone.1 known other only.1]
    · intro file mem b found
      obtain ⟨j, eq, rfl⟩ := Option.map_eq_some_iff.mp found
      obtain ⟨c, -, value⟩ := File.value_of_lookup (alone file mem) known other eq
      simp [value]
  cases found : (merged files).lookup key with
  | none => simp [values, found]
  | some j =>
    obtain ⟨y, eq⟩ := Option.isSome_iff_exists.mp
      (isSome_value_merged apart alone known other found)
    simp only [values, found, Option.bind_some, eq, Option.some.injEq, Option.getD_some]
    exact eq_comm

end

theorem lookup_withRoot (other : key ≠ "rootDir") (path : String) :
    (withRoot path fields).lookup key = fields.lookup key := by
  unfold withRoot
  split
  · rfl
  · simp [List.lookup_append, Table.lookup_cons, other]

theorem lookup_rootDir_withRoot (fields : List (String × Json)) (path : String)
    (found : (withRoot path fields).lookup "rootDir" = some j) :
    fields.lookup "rootDir" = some j ∨ j = .string (Path.directory path) := by
  unfold withRoot at found
  split at found
  · exact .inl found
  · rw [List.lookup_append, Option.or_eq_some_iff] at found
    rcases found with own | ⟨-, added⟩
    · exact .inl own
    · exact .inr (by simpa [eq_comm] using added)

theorem apart_withRoot (h : Apart fields) (path : String) : Apart (withRoot path fields) := by
  unfold withRoot
  split
  · exact h
  · rename_i none
    have new : "rootDir" ∉ fields.map (·.1) := by
      intro mem
      obtain ⟨x, listed, eq⟩ := List.mem_map.mp mem
      exact none (List.any_eq_true.mpr ⟨x, listed, by simp [eq]⟩)
    rw [Apart, List.map_append, List.nodup_append]
    exact ⟨h, by simp, by grind⟩

/-- Some file of these has the key. -/
def Uses (files : List File) (key : String) : Prop :=
  ∃ file ∈ files, (file.fields.lookup key).isSome

theorem lookup_merged_eq_none (h : ∀ file ∈ files, Apart file.fields) (key : String)
    (other : key ≠ "extends") : (merged files).lookup key = none ↔ ¬Uses files key := by
  simp only [lookup_merged h other, List.findSome?_eq_none_iff, Option.map_eq_none_iff, Uses,
    not_exists, not_and, Bool.not_eq_true, Option.isSome_eq_false_iff, Option.isNone_iff_eq_none]

theorem lookup_of_unused {second : String}
    (names : ∀ name, Field.ofName? name = some f → name = key ∨ name = second)
    (unused : ¬Uses files second) : ∀ file ∈ files, ∀ name, Field.ofName? name = some f →
      name ≠ key → file.fields.lookup name = none := by
  intro file mem name known ne
  obtain rfl := (names name known).resolve_left ne
  cases found : file.fields.lookup name with
  | none => rfl
  | some j => exact absurd ⟨file, mem, by simp [found]⟩ unused

/-- The value of the first file that sets a field, or the default. -/
def firstValue (files : List File) (f : Field) : f.Value :=
  (files.findSome? (·.value? f)).getD (f.get {})

section
variable {t : FileTree} {path : String} (chain : Chain t [] path files)
  (alone : ∀ file ∈ files, file.config?.isSome)
include chain

theorem load_eq_ok_iff {c : Config} : load t path = .ok c ↔
    ∀ f : Field, Gives (withRoot path (merged files)) f (f.get c) := by
  simp only [load, chain.loadFields_eq, ← ofFields?_eq_some]
  cases ofFields? (withRoot path (merged files)) <;> simp

theorem gives_extends (x : Field.Value .extends_) :
    Gives (withRoot path (merged files)) .extends_ x ↔ x = none ∧
      ∀ file ∈ files.getLast?, ∀ j, file.fields.lookup "extends" = some j → j = .null := by
  have key : Field.name .extends_ = "extends" := rfl
  rw [gives_iff (apart_withRoot (apart_merged chain.apart) path) (by decide), key,
    lookup_withRoot (by decide), lookup_extends_merged chain.apart]
  have parent := chain.last_parent
  cases last : files.getLast? with
  | none => simp [Field.get]
  | some file =>
    have string := parent file (by simp [last])
    rw [parent?] at string
    simp only [Option.bind_some, Option.mem_some_iff, forall_eq']
    cases found : file.fields.lookup "extends" with
    | none => simp [Field.get]
    | some j =>
      cases j with
      | string s => simp [found] at string
      | _ => simp [Field.value?, Json.toOption?, Json.toString?, eq_comm]

include alone

theorem gives_firstValue (single : f ≠ .stagingDir) (own : f ≠ .extends_) (root : f ≠ .rootDir)
    (x : f.Value) : Gives (withRoot path (merged files)) f x ↔ x = firstValue files f := by
  have known : Field.ofName? f.name = some f := Field.ofName?_eq_some.mpr (.inl rfl)
  rw [gives_iff (apart_withRoot (apart_merged chain.apart) path) single,
    lookup_withRoot (by cases f <;> simp_all [Field.name])]
  refine value_merged chain.apart alone known (by cases f <;> simp_all [Field.name]) ?_ x
  intro file _ key' known' ne
  rcases Field.ofName?_eq_some.mp known' with rfl | ⟨-, rfl⟩
  · exact absurd rfl ne
  · exact absurd rfl single

theorem exists_gives_rootDir : ∃ x, Gives (withRoot path (merged files)) .rootDir x := by
  have key : Field.name .rootDir = "rootDir" := rfl
  simp only [gives_iff (apart_withRoot (apart_merged chain.apart) path)
    (by decide : Field.rootDir ≠ .stagingDir), key]
  cases found : (withRoot path (merged files)).lookup "rootDir" with
  | none => exact ⟨_, rfl⟩
  | some j =>
    rcases lookup_rootDir_withRoot _ path found with own | rfl
    · exact Option.isSome_iff_exists.mp
        (isSome_value_merged chain.apart alone (f := .rootDir) (by decide) (by decide) own)
    · exact ⟨_, rfl⟩

theorem gives_firstValue_stagingDir (x : Field.Value .stagingDir) :
    Gives (withRoot path (merged files)) .stagingDir x ↔
      ¬(Uses files "stagingDir" ∧ Uses files "stagingFolderPath") ∧
        x = firstValue files .stagingDir := by
  rw [gives_stagingDir (apart_withRoot (apart_merged chain.apart) path),
    lookup_withRoot (by decide), lookup_withRoot (by decide)]
  have absent := lookup_merged_eq_none chain.apart "stagingDir" (by decide)
  have absent' := lookup_merged_eq_none chain.apart "stagingFolderPath" (by decide)
  have names {name : String} (known : Field.ofName? name = some .stagingDir) :
      name = "stagingDir" ∨ name = "stagingFolderPath" := by
    simpa [Field.name] using Field.ofName?_eq_some.mp known
  by_cases used' : Uses files "stagingFolderPath"
  · by_cases used : Uses files "stagingDir"
    · refine iff_of_false ?_ fun h => h.1 ⟨used, used'⟩
      cases found : (merged files).lookup "stagingDir" with
      | none => exact absurd used (absent.mp found)
      | some j =>
        cases found' : (merged files).lookup "stagingFolderPath" with
        | none => exact absurd used' (absent'.mp found')
        | some j' => exact id
    · rw [absent.mpr used, and_iff_right fun both => used both.1, firstValue, ← value_merged
        chain.apart alone (by decide : Field.ofName? "stagingFolderPath" = some .stagingDir)
        (by decide) (lookup_of_unused (fun _ known => (names known).symm) used)]
      cases (merged files).lookup "stagingFolderPath" <;> rfl
  · rw [absent'.mpr used', and_iff_right fun both => used' both.2, firstValue, ← value_merged
      chain.apart alone (by decide : Field.ofName? "stagingDir" = some .stagingDir) (by decide)
      (lookup_of_unused (fun _ known => names known) used')]
    cases (merged files).lookup "stagingDir" <;> rfl

theorem exists_gives (single : f ≠ .stagingDir) (own : f ≠ .extends_) :
    ∃ x, Gives (withRoot path (merged files)) f x := by
  by_cases root : f = .rootDir
  · exact root ▸ exists_gives_rootDir chain alone
  · exact ⟨_, (gives_firstValue chain alone single own root _).mpr rfl⟩

end

theorem firstValue_extends (files : List File) : firstValue files .extends_ = none := by
  have unset (file : File) : ¬file.sets .extends_ = true := by
    rw [File.sets_iff]
    rintro ⟨key, known, other, -⟩
    rcases Field.ofName?_eq_some.mp known with rfl | ⟨-, eq⟩
    · exact other rfl
    · cases eq
  have none : files.findSome? (·.value? .extends_) = none :=
    List.findSome?_eq_none_iff.mpr fun file _ => if_neg (unset file)
  rw [firstValue, none]
  rfl

/-- A chain of files that decode by themselves can be loaded exactly if no two of them call the
staging directory by different names, and the last one extends nothing. Then every option but the
root is that of the first file that sets it. -/
theorem load_overrides {t : FileTree} {path : String} {files : List File}
    (chain : Chain t [] path files) (alone : ∀ file ∈ files, file.config?.isSome) :
    ((∃ c, load t path = .ok c) ↔ ¬(Uses files "stagingDir" ∧ Uses files "stagingFolderPath") ∧
      ∀ file ∈ files.getLast?, ∀ j, file.fields.lookup "extends" = some j → j = .null) ∧
    ∀ c, load t path = .ok c → ∀ f : Field, f ≠ .rootDir → f.get c = firstValue files f := by
  have decodes : (∃ c, load t path = .ok c) ↔
      ∀ f : Field, ∃ x, Gives (withRoot path (merged files)) f x := by
    simp only [load_eq_ok_iff chain, ← ofFields?_eq_some, exists_ofFields?_eq_some]
  refine ⟨?_, fun c loaded f root => ?_⟩
  · rw [decodes]
    constructor
    · intro h
      obtain ⟨x, staging⟩ := h .stagingDir
      obtain ⟨y, extends_⟩ := h .extends_
      exact ⟨((gives_firstValue_stagingDir chain alone x).mp staging).1,
        ((gives_extends chain y).mp extends_).2⟩
    · rintro ⟨staging, last⟩ f
      by_cases single : f = .stagingDir
      · subst single
        exact ⟨_, (gives_firstValue_stagingDir chain alone _).mpr ⟨staging, rfl⟩⟩
      by_cases own : f = .extends_
      · subst own
        exact ⟨none, (gives_extends chain none).mpr ⟨rfl, last⟩⟩
      · exact exists_gives chain alone single own
  · have gives := (load_eq_ok_iff chain).mp loaded f
    by_cases single : f = .stagingDir
    · subst single
      exact ((gives_firstValue_stagingDir chain alone _).mp gives).2
    by_cases own : f = .extends_
    · subst own
      exact ((gives_extends chain _).mp gives).1.trans (firstValue_extends files).symm
    · exact (gives_firstValue chain alone single own root _).mp gives

def workspace (files : List (Location × String)) : FileTree :=
  files.foldl (fun t f => t.put ("work" :: f.1) (.file f.2.toUTF8)) (.empty ["work"])

/-- The file at a path; without fields if it has none. -/
def fileAt (t : FileTree) (path : String) : File := ⟨path, (fileFields t path).toOption.getD []⟩

theorem fileFields_fileAt {t : FileTree} {path : String}
    (h : (fileFields t path).toOption.isSome) : fileFields t path = .ok (fileAt t path).fields := by
  cases eq : fileFields t path with
  | error e => simp [eq, Except.toOption] at h
  | ok fields => simp [fileAt, eq, Except.toOption]

theorem chain_pair {t : FileTree} {child parent : String} (at_ at' : Location)
    (found : (t.locate child).toOption = some at_ ∧ (t.locate parent).toOption = some at' ∧ at' ≠ at_)
    (read : (fileFields t child).toOption.isSome ∧ (fileFields t parent).toOption.isSome)
    (extends_ : parent? (Path.directory child) (fileAt t child).fields = some parent ∧
      parent? (Path.directory parent) (fileAt t parent).fields = none) :
    Chain t [] child [fileAt t child, fileAt t parent] := by
  have located {path : String} {loc : Location} (h : (t.locate path).toOption = some loc) :
      t.locate path = .ok loc := by
    cases eq : t.locate path <;> simp_all [Except.toOption]
  exact .more (located found.1) List.not_mem_nil (fileFields_fileAt read.1) extends_.1
    (.last (located found.2.1) (by simpa using found.2.2) (fileFields_fileAt read.2) extends_.2)

/- A file that sets the staging directory, and extends one that sets it too. -/
def stagedTwice : FileTree :=
  workspace [(["a.json"], "\x7b\"extends\":\"lib/b.json\",\"stagingDir\":\"out\"\x7d"),
    (["lib", "b.json"], "\x7b\"stagingDir\":\"b\",\"emitFullPaths\":true\x7d")]

theorem load_overrides_stagedTwice : ∃ c, load stagedTwice "a.json" = .ok c ∧
    c.stagingDir = some "./out" ∧ c.fullPaths = true ∧ c.logLevel = .log := by
  have chain : Chain stagedTwice [] "a.json"
      [fileAt stagedTwice "a.json", fileAt stagedTwice "./lib/b.json"] := by
    apply chain_pair ["work", "a.json"] ["work", "lib", "b.json"] <;> decide +kernel
  have unused : ¬Uses [fileAt stagedTwice "a.json", fileAt stagedTwice "./lib/b.json"]
      "stagingFolderPath" := by
    unfold Uses
    decide +kernel
  have last : (fileAt stagedTwice "./lib/b.json").fields.lookup "extends" = none := by
    rw [← Option.isNone_iff_eq_none]
    decide +kernel
  obtain ⟨loads, values⟩ := load_overrides chain (by decide +kernel)
  obtain ⟨c, loaded⟩ := loads.mpr ⟨fun both => unused both.2, by simp [last]⟩
  refine ⟨c, loaded, (values c loaded .stagingDir (by decide)).trans ?_,
    (values c loaded .fullPaths (by decide)).trans ?_,
    (values c loaded .logLevel (by decide)).trans ?_⟩ <;> decide +kernel

/- The same by two names. -/
def stagedByTwoNames : FileTree :=
  workspace [(["a.json"], "\x7b\"extends\":\"b.json\",\"stagingDir\":\"x\"\x7d"),
    (["b.json"], "\x7b\"stagingFolderPath\":\"y\"\x7d")]

/-- Each file is right by itself, and still they cannot be loaded. -/
theorem load_stagedByTwoNames :
    Chain stagedByTwoNames [] "a.json"
      [fileAt stagedByTwoNames "a.json", fileAt stagedByTwoNames "./b.json"] ∧
    (∀ file ∈ [fileAt stagedByTwoNames "a.json", fileAt stagedByTwoNames "./b.json"],
      file.config?.isSome) ∧
    (load stagedByTwoNames "a.json").toOption = none := by
  refine ⟨?_, by decide +kernel, by decide +kernel⟩
  apply chain_pair ["work", "a.json"] ["work", "b.json"] <;> decide +kernel

end Config
end BrightScript
