import BrightScript.Config.Load
import BrightScript.Proofs.Files.Tree
import Mathlib.Data.List.Perm.Subperm
import Mathlib.Logic.Relation

/-! Following `extends` from file to file.
Following a project file is a run of steps: each step visits a file that was not visited before
and goes on to the path that this file extends. A run cannot be longer than there are files, so it
comes to an end: at a file that was visited already, which is a cycle, or at one that extends
nothing, be it because it cannot be read. -/
namespace BrightScript.Config

variable {t : FileTree} {path : String} {fields : List (String × Json)}

/-- The fields of the object in the file at a path. -/
def fileFields (t : FileTree) (path : String) : Except ConfigError (List (String × Json)) :=
  match t.readText path with
  | .error cause => .error (.unreadable path cause)
  | .ok text => readFields path text

def extended? (t : FileTree) (path : String) : Option String :=
  match fileFields t path with
  | .ok fields => parent? (Path.directory path) fields
  | .error _ => none

/- Where following has come to: the files behind, the last one first, and the path ahead. -/
structure Visit where
  visited : List Location
  path : String

/-- The file ahead was not visited before, and extends the path that comes next. -/
def Visit.Step (t : FileTree) (v v' : Visit) : Prop :=
  ∃ at_, t.locate v.path = .ok at_ ∧ at_ ∉ v.visited ∧ v'.visited = at_ :: v.visited ∧
    extended? t v.path = some v'.path

/-- What following a path can come to. -/
def Reaches (t : FileTree) (path : String) : Visit → Prop :=
  Relation.ReflTransGen (Visit.Step t) ⟨[], path⟩

/-- The path ahead leads to a file that was visited. -/
def Visit.Returns (t : FileTree) (v : Visit) : Prop := ∃ at_ ∈ v.visited, t.locate v.path = .ok at_

/-- The path ahead leads to no visited file, nor to one that extends another. -/
def Visit.Ends (t : FileTree) (v : Visit) : Prop := ¬v.Returns t ∧ extended? t v.path = none

def resolved (dir key : String) : Json → Json
  | .string path => if isPathField key then .string (Path.join dir path) else .string path
  | value => value

theorem resolvePaths_eq (dir : String) (fields : List (String × Json)) :
    resolvePaths dir fields = fields.map fun f => (f.1, resolved dir f.1 f.2) := by
  refine List.map_congr_left fun f _ => ?_
  obtain ⟨key, value⟩ := f
  cases value with
  | string path =>
    simp only [resolved]
  | _ => rfl

theorem lookup_resolvePaths (dir key : String) (fields : List (String × Json)) :
    (resolvePaths dir fields).lookup key = (fields.lookup key).map (resolved dir key) := by
  rw [resolvePaths_eq]
  induction fields with
  | nil => rfl
  | cons field rest ih =>
    rw [List.map_cons, Table.lookup_cons, ih, Table.lookup_cons]
    split <;> simp_all

theorem parent?_resolvePaths (dir dir' : String) (fields : List (String × Json)) :
    parent? dir (resolvePaths dir' fields) = parent? dir fields := by
  rw [parent?, parent?, lookup_resolvePaths]
  cases fields.lookup "extends" with
  | none => rfl
  | some value => cases value <;> rfl

theorem readText_eq (t : FileTree) (path : String) : t.readText path =
    match FileTree.fault? path, t.locate path with
    | some cause, _ => .error cause
    | none, .error cause => .error cause
    | none, .ok at_ => t.readAt at_ := by
  unfold FileTree.readText FileTree.resolve
  cases FileTree.fault? path <;> cases t.locate path <;> rfl

theorem fileFields_ok (h : fileFields t path = .ok fields) : ∃ at_ text, t.locate path = .ok at_ ∧
      FileTree.fault? path = none ∧ t.readAt at_ = .ok text ∧ readFields path text = .ok fields := by
  unfold fileFields at h
  split at h
  · cases h
  · rename_i text read
    rw [readText_eq] at read
    split at read
    · cases read
    · cases read
    · rename_i at_ sound found
      exact ⟨at_, text, found, sound, read, h⟩

theorem extended?_eq_some {next : String} (h : extended? t path = some next) :
    ∃ fields, fileFields t path = .ok fields ∧ parent? (Path.directory path) fields = some next := by
  unfold extended? at h
  split at h
  · exact ⟨_, ‹_›, h⟩
  · cases h

section
variable {visited : List Location}

theorem loadFields_of_returns (h : Visit.Returns t ⟨visited, path⟩) :
    loadFields t visited path = .error (.cycle path) := by
  obtain ⟨at_, mem, found⟩ := h
  rw [loadFields]
  simp [found, mem]

theorem loadFields_of_error (new : ¬Visit.Returns t ⟨visited, path⟩) {e : ConfigError}
    (h : fileFields t path = .error e) : loadFields t visited path = .error e := by
  rw [loadFields]
  rw [fileFields, readText_eq] at h
  cases found : t.locate path with
  | error cause =>
    cases fault : FileTree.fault? path <;> simpa [fault, found] using h
  | ok at_ =>
    have fresh : at_ ∉ visited := fun mem => new ⟨at_, mem, found⟩
    cases fault : FileTree.fault? path with
    | some cause => simpa [fault, found, fresh] using h
    | none =>
      simp only [found, fault, dif_neg fresh] at h ⊢
      split
      · rename_i cause failed
        simpa [failed] using h
      · rename_i text read
        simp only [read] at h
        rw [h]

theorem loadFields_of_ok (new : ¬Visit.Returns t ⟨visited, path⟩)
    (h : fileFields t path = .ok fields) {at_ : Location} (found : t.locate path = .ok at_) :
    loadFields t visited path =
      match parent? (Path.directory path) fields with
      | none => .ok (resolvePaths (Path.directory path) fields)
      | some next =>
        match loadFields t (at_ :: visited) next with
        | .error e => .error e
        | .ok inherited => .ok (override (resolvePaths (Path.directory path) fields) inherited) := by
  obtain ⟨at', text, found', sound, read, eq⟩ := fileFields_ok h
  obtain rfl := Except.ok.inj (found.symm.trans found')
  have fresh : at_ ∉ visited := fun mem => new ⟨at_, mem, found⟩
  rw [loadFields]
  simp only [found, sound, dif_neg fresh]
  split
  · rename_i failed
    rw [read] at failed
    cases failed
  · rename_i text' read'
    obtain rfl := Except.ok.inj (read.symm.trans read')
    simp only [eq]
    have same := parent?_resolvePaths (Path.directory path) (Path.directory path) fields
    generalize parent? (Path.directory path) (resolvePaths (Path.directory path) fields) = next
      at same ⊢
    subst same
    rfl

end

namespace Visit

variable {v v' : Visit}

/-- A step hands on every error, and makes none. -/
theorem Step.loadFields_error_iff (step : Step t v v') (e : ConfigError) :
    loadFields t v.visited v.path = .error e ↔ loadFields t v'.visited v'.path = .error e := by
  obtain ⟨at_, found, fresh, grown, next⟩ := step
  obtain ⟨fields, eq, parent⟩ := extended?_eq_some next
  have new : ¬Returns t v := by
    rintro ⟨at', mem, found'⟩
    exact fresh (Except.ok.inj (found.symm.trans found') ▸ mem)
  simp only [loadFields_of_ok new eq found, parent, grown]
  cases loadFields t (at_ :: v.visited) v'.path <;> simp

/-- The visited files are in the tree, each of them once. -/
structure Sound (t : FileTree) (v : Visit) : Prop where
  apart : v.visited.Nodup
  listed : v.visited ⊆ t.entries.map (·.1)

theorem Step.sound (step : Step t v v') (h : v.Sound t) : v'.Sound t := by
  obtain ⟨at_, found, fresh, grown, next⟩ := step
  obtain ⟨fields, eq, -⟩ := extended?_eq_some next
  obtain ⟨at', text, found', -, read, -⟩ := fileFields_ok eq
  obtain rfl := Except.ok.inj (found.symm.trans found')
  have listed : at_ ∈ t.entries.map (·.1) := by
    cases entry : t.get? at_ with
    | none => simp [FileTree.readAt, entry] at read
    | some e => exact List.mem_map_of_mem (FileEntry.mem_all entry)
  exact ⟨grown ▸ List.nodup_cons.mpr ⟨fresh, h.apart⟩,
    grown ▸ List.cons_subset.mpr ⟨listed, h.listed⟩⟩

/-- Every run can be led to an end, since each step leaves fewer files to visit. -/
theorem exists_end (t : FileTree) (v : Visit) :
    ∃ last, Relation.ReflTransGen (Step t) v last ∧ (last.Returns t ∨ last.Ends t) := by
  by_cases back : v.Returns t
  · exact ⟨v, .refl, .inl back⟩
  · cases next : extended? t v.path with
    | none => exact ⟨v, .refl, .inr ⟨back, next⟩⟩
    | some path =>
      obtain ⟨fields, eq, -⟩ := extended?_eq_some next
      obtain ⟨at_, text, found, -, read, -⟩ := fileFields_ok eq
      have fresh : at_ ∉ v.visited := fun mem => back ⟨at_, mem, found⟩
      have _fewer := unvisited_lt fresh read
      obtain ⟨last, run, ends⟩ := exists_end t ⟨at_ :: v.visited, path⟩
      exact ⟨last, .head ⟨at_, found, fresh, rfl, next⟩ run, ends⟩
termination_by (unvisited t v.visited).length

end Visit

namespace Reaches

variable {v : Visit}

theorem sound (h : Reaches t path v) : v.Sound t := by
  induction h with
  | refl => exact ⟨List.nodup_nil, List.nil_subset _⟩
  | tail _ step ih => exact step.sound ih

theorem length_le (h : Reaches t path v) : v.visited.length ≤ t.entries.length := by
  have fits := (List.subperm_of_subset h.sound.apart h.sound.listed).length_le
  rwa [List.length_map] at fits

theorem loadFields_error_iff (h : Reaches t path v) (e : ConfigError) :
    loadFields t [] path = .error e ↔ loadFields t v.visited v.path = .error e := by
  induction h with
  | refl => rfl
  | tail _ step ih => exact ih.trans (step.loadFields_error_iff e)

end Reaches

theorem fileFields_ne_cycle (t : FileTree) (path last : String) :
    fileFields t path ≠ .error (.cycle last) := by
  unfold fileFields readFields
  split
  · simp
  · split
    · simp
    · split <;> simp

theorem load_of_error {e : ConfigError} (h : loadFields t [] path = .error e) :
    load t path = .error e := by
  rw [load, h]

theorem load_of_ok (h : loadFields t [] path = .ok fields) :
    (∃ c, load t path = .ok c) ∨ load t path = .error (.malformed path .mismatch) := by
  cases eq : ofFields? (withRoot path fields) with
  | none => exact .inr (by simp [load, h, eq])
  | some c => exact .inl ⟨c, by simp [load, h, eq]⟩

namespace Reaches

variable {v : Visit}

theorem load_of_returns (h : Reaches t path v) (back : v.Returns t) :
    load t path = .error (.cycle v.path) :=
  load_of_error ((h.loadFields_error_iff _).mpr (loadFields_of_returns back))

theorem load_of_ends_error (h : Reaches t path v) (ends : v.Ends t) {e : ConfigError}
    (failed : fileFields t v.path = .error e) : load t path = .error e :=
  load_of_error ((h.loadFields_error_iff e).mpr (loadFields_of_error ends.1 failed))

theorem load_of_ends_ok (h : Reaches t path v) (ends : v.Ends t)
    (eq : fileFields t v.path = .ok fields) :
    (∃ c, load t path = .ok c) ∨ load t path = .error (.malformed path .mismatch) := by
  obtain ⟨at_, -, found, -⟩ := fileFields_ok eq
  have parent : parent? (Path.directory v.path) fields = none := by
    simpa [extended?, eq] using ends.2
  have last := loadFields_of_ok ends.1 eq found
  rw [parent] at last
  cases all : loadFields t [] path with
  | error e =>
    have failed := (h.loadFields_error_iff e).mp all
    rw [last] at failed
    cases failed
  | ok merged => exact load_of_ok all

theorem load_ne_cycle_of_ends (h : Reaches t path v) (ends : v.Ends t) (last : String) :
    load t path ≠ .error (.cycle last) := by
  cases eq : fileFields t v.path with
  | error e =>
    rw [h.load_of_ends_error ends eq]
    rintro ⟨⟩
    exact fileFields_ne_cycle t v.path last eq
  | ok fields => rcases h.load_of_ends_ok ends eq with ⟨c, eq⟩ | eq <;> simp [eq]

end Reaches

/-- Following `extends` visits no more files than there are and comes to an end. Loading tells of a
cycle exactly if the path ahead leads to a visited file; otherwise the file at the end decides: by
its error if its fields cannot be read, and else nothing went wrong on the way. -/
theorem load_follows (t : FileTree) (path : String) :
    (∀ v, Reaches t path v → v.visited.length ≤ t.entries.length) ∧
    (∃ v, Reaches t path v ∧ (v.Returns t ∨ v.Ends t)) ∧
    (∀ last, load t path = .error (.cycle last) ↔
      ∃ v, Reaches t path v ∧ v.Returns t ∧ v.path = last) ∧
    ∀ v, Reaches t path v → v.Ends t →
      (∀ e, fileFields t v.path = .error e → load t path = .error e) ∧
      (∀ fields, fileFields t v.path = .ok fields →
        (∃ c, load t path = .ok c) ∨ load t path = .error (.malformed path .mismatch)) := by
  refine ⟨fun v run => run.length_le, Visit.exists_end t ⟨[], path⟩, fun last => ⟨fun h => ?_, ?_⟩,
    fun v run ends => ⟨fun e => run.load_of_ends_error ends, fun f => run.load_of_ends_ok ends⟩⟩
  · obtain ⟨v, run, back | ends⟩ := Visit.exists_end t ⟨[], path⟩
    · have told := Reaches.load_of_returns run back
      rw [h] at told
      exact ⟨v, run, back, by simpa using told.symm⟩
    · exact absurd h (Reaches.load_ne_cycle_of_ends run ends last)
  · rintro ⟨v, run, back, rfl⟩
    exact run.load_of_returns back

end BrightScript.Config
