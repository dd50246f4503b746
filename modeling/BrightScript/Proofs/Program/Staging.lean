import BrightScript.Proofs.Files.Below
import BrightScript.Proofs.Program.Compile
import BrightScript.Proofs.Program.Outputs

/-! Writing stays below the staging directory.
A source is known by its path below the root of the project. Where each entry of the project is
written as a path inside the root, this path does not leave the root, and the path of the output
does not leave the staging directory. Other paths are kept as they are, with all their `..`. -/
namespace BrightScript

variable {t : FileTree}

/-- Nothing stands in the tree under a text that is no name. -/
def FileTree.Named (t : FileTree) : Prop :=
  ∀ x ∈ t.entries, ∀ name ∈ x.1, Path.IsName name

instance (t : FileTree) : Decidable t.Named :=
  inferInstanceAs (Decidable (∀ x ∈ t.entries, ∀ name ∈ x.1, Path.IsName name))

theorem FileEntry.mem_all_append {e x y : FileEntry} {at_ loc : Location}
    (found : e.get? at_ = some x) (below : (loc, y) ∈ x.all) : (at_ ++ loc, y) ∈ e.all := by
  induction at_ generalizing e with
  | nil =>
    obtain rfl : e = x := by simpa using found
    exact below
  | cons name rest ih =>
    cases e with
    | file => simp at found
    | directory entries =>
      cases listed : entries.lookup name with
      | none => simp [get?_cons, listed] at found
      | some e =>
        have deeper : e.get? rest = some x := by simpa [get?_cons, listed] using found
        obtain ⟨before, after, split, _⟩ := List.lookup_eq_some_iff.1 listed
        have mem : (name, e) ∈ entries := by simp [split]
        rw [all]
        exact List.mem_cons_of_mem _ (mem_allIn mem (ih deeper))

theorem FileTree.Named.below (named : t.Named) {dir loc : Location} (mem : loc ∈ t.below dir) :
    ∀ name ∈ loc, Path.IsName name := by
  unfold FileTree.below at mem
  split at mem
  · rename_i e found
    obtain ⟨⟨loc, x⟩, listed, rfl⟩ := List.mem_map.mp mem
    intro name inner
    exact named _ (FileEntry.mem_all_append found listed) name (List.mem_append_right _ inner)
  · simp at mem

namespace Program

open FileTree (Grows isDots)

variable {c : Config} {path : String} {paths : List String}

theorem dedup_subset (paths : List String) : dedup paths ⊆ paths := by
  fun_induction dedup paths with
  | case1 => simp
  | case2 path => simp
  | case3 a b rest same ih =>
    exact List.Subset.trans ih (List.cons_subset_cons _ (List.subset_cons_self _ _))
  | case4 a b rest apart ih => exact List.cons_subset_cons _ ih

theorem exists_names_of_mem_entryFiles (named : t.Named) {entry : String}
    (ok : entryFiles t entry = .ok paths) (mem : path ∈ paths) :
    ∃ names : List String, (∀ name ∈ names, Path.IsName name) ∧
      path = names.foldl Path.join entry := by
  unfold entryFiles at ok
  split at ok
  · obtain rfl := Except.ok.inj ok
    unfold sourcesBelow at mem
    split at mem
    · simp at mem
    · rename_i at_ leads
      obtain ⟨names, found, rfl⟩ := List.mem_map.mp mem
      exact ⟨names, named.below (List.mem_filter.mp found).1, rfl⟩
  · split at ok
    · obtain rfl := Except.ok.inj ok
      exact ⟨[], by simp, by simpa using mem⟩
    · cases ok

theorem exists_of_mem_mapM {ε α β : Type} {f : α → Except ε β} {xs : List α} {ys : List β}
    (ok : xs.mapM f = .ok ys) {y : β} (mem : y ∈ ys) : ∃ x ∈ xs, f x = .ok y := by
  induction xs generalizing ys with
  | nil =>
    obtain rfl : [] = ys := Except.ok.inj ok
    simp at mem
  | cons x rest ih =>
    rw [List.mapM_cons] at ok
    cases first : f x with
    | error e =>
      rw [first] at ok
      cases ok
    | ok z =>
      cases later : rest.mapM f with
      | error e =>
        rw [first, later] at ok
        cases ok
      | ok zs =>
        rw [first, later] at ok
        obtain rfl : z :: zs = ys := Except.ok.inj ok
        rcases List.mem_cons.mp mem with rfl | mem
        · exact ⟨x, List.mem_cons_self, first⟩
        · obtain ⟨x', mem', eq⟩ := ih later mem
          exact ⟨x', List.mem_cons_of_mem _ mem', eq⟩

theorem exists_entry_of_mem_findFiles (ok : findFiles t c = .ok paths) (mem : path ∈ paths) :
    ∃ entry ∈ entries c, ∃ found, entryFiles t entry = .ok found ∧ path ∈ found := by
  unfold findFiles at ok
  cases each : (entries c).mapM (entryFiles t) with
  | error e =>
    rw [each] at ok
    cases ok
  | ok found =>
    rw [each] at ok
    obtain rfl := Except.ok.inj ok
    obtain ⟨files, listed, here⟩ :=
      List.mem_flatten.mp (List.mem_mergeSort.mp (dedup_subset _ mem))
    obtain ⟨entry, mem_entry, eq⟩ := exists_of_mem_mapM each listed
    exact ⟨entry, mem_entry, files, eq, here⟩

def Sheltered (path : String) : Prop :=
  (Path.descent? (Path.components path)).isSome ∧ Path.Trimmed path

theorem sheltered_of_mem_findFiles (named : t.Named)
    (inside : ∀ entry ∈ entries c, Path.Inside c.root entry) (ok : findFiles t c = .ok paths)
    (mem : path ∈ paths) : Sheltered ((Path.stripPrefix? path c.root).getD path) := by
  obtain ⟨entry, listed, found, files, mem_found⟩ := exists_entry_of_mem_findFiles ok mem
  obtain ⟨names, all_named, rfl⟩ := exists_names_of_mem_entryFiles named files mem_found
  obtain ⟨rest, split, descends⟩ := inside entry listed
  obtain ⟨deep, eq⟩ := Option.isSome_iff_exists.mp descends
  have components := Path.components_foldl_join entry all_named
  rw [split, List.append_assoc] at components
  obtain ⟨r, stripped, rest_eq, trimmed⟩ := Path.stripPrefix?_eq components
  rw [stripped, Option.getD_some, Sheltered, rest_eq, Path.descent?_names eq]
  exact ⟨rfl, trimmed⟩

theorem path_of_mem_add {p : Program} {text : String} {s : Source}
    (mem : s ∈ (p.add path text).sources) : s.path = path ∨ ∃ s' ∈ p.sources, s'.path = s.path := by
  unfold add at mem
  split at mem
  · obtain ⟨s', mem', rfl⟩ := List.mem_map.mp mem
    right
    refine ⟨s', mem', ?_⟩
    split <;> rfl
  · rcases List.mem_append.mp mem with old | new
    · exact .inr ⟨s, old, rfl⟩
    · exact .inl (by rw [List.mem_singleton.mp new])

theorem sheltered_addFiles {p p' : Program} (old : ∀ s ∈ p.sources, Sheltered s.path)
    (new : ∀ path ∈ paths, Sheltered ((Path.stripPrefix? path p.config.root).getD path))
    (ok : addFiles t p paths = (p', none)) : ∀ s ∈ p'.sources, Sheltered s.path := by
  induction paths generalizing p with
  | nil =>
    obtain rfl : p = p' := by simpa [addFiles] using ok
    exact old
  | cons path rest ih =>
    rw [addFiles] at ok
    split at ok
    · cases ok
    · rename_i text read
      rw [List.forall_mem_cons] at new
      refine ih ?_ ?_ ok
      · intro s mem
        rcases path_of_mem_add mem with eq | ⟨s', mem', eq⟩
        · rw [eq]
          exact new.1
        · rw [← eq]
          exact old s' mem'
      · rw [config_add]
        exact new.2

theorem config_addFiles (t : FileTree) (p : Program) (paths : List String) :
    (addFiles t p paths).1.config = p.config := by
  induction paths generalizing p with
  | nil => rfl
  | cons path rest ih =>
    rw [addFiles]
    split
    · rfl
    · rw [ih, config_add]

theorem sheltered_load (named : t.Named) (inside : ∀ entry ∈ entries c, Path.Inside c.root entry)
    {p : Program} (loaded : load t ⟨c, []⟩ = (p, none)) :
    p.config = c ∧ ∀ s ∈ p.sources, Sheltered s.path := by
  unfold load at loaded
  split at loaded
  · cases loaded
  · rename_i paths found
    have config := config_addFiles t ⟨c, []⟩ paths
    rw [loaded] at config
    refine ⟨config, sheltered_addFiles (by simp) (fun path mem => ?_) loaded⟩
    exact sheltered_of_mem_findFiles named inside found mem

theorem below_of_sheltered {s : Source} (h : Sheltered s.path)
    (named : (Path.stem s.path).2 ∉ ["", "."]) (t : FileTree) :
    t.Below c.staging (Path.join c.staging (output c s).path) := by
  obtain ⟨names, eq⟩ := Option.isSome_iff_exists.mp h.1
  obtain ⟨names', some_, eq'⟩ :=
    Path.descent?_withExtension eq named slash_not_mem_brs long_brs
  have joined := FileTree.aim_join t c.staging (Path.isAbsolute_of_descent eq')
  rw [FileTree.enterAll_descent _ eq'] at joined
  exact ⟨names', some_, joined⟩

theorem named_of_sheltered {s : Source} (h : Sheltered s.path)
    (dots : isDots ((Path.parts (Path.join c.staging (output c s).path)).getLast
      (Path.parts_ne_nil _)) = false) : (Path.stem s.path).2 ∉ ["", "."] := by
  intro mem
  obtain ⟨names, eq⟩ := Option.isSome_iff_exists.mp h.1
  obtain ⟨relative, last⟩ :=
    Path.isDots_withExtension h.2 (Path.isAbsolute_of_descent eq) slash_not_mem_brs mem
  simp only [output, Path.parts_join relative,
    List.getLast_append_of_ne_nil _ (Path.parts_ne_nil _)] at dots
  rw [last] at dots
  cases dots

theorem aim_of_current {t' : FileTree} (current : t'.current = t.current) (path : String) :
    t'.aim path = t.aim path := by
  rw [FileTree.aim, FileTree.base, current, ← FileTree.base, ← FileTree.aim]

theorem grows_writeOne (staging : String) (t : FileTree) (o : Output) :
    Grows (fun loc => loc = t.aim (Path.join staging o.path) ∧
      isDots ((Path.parts (Path.join staging o.path)).getLast (Path.parts_ne_nil _)) = false)
      t (writeOne staging t o).1 := by
  cases eq : writeOne staging t o with
  | mk t' failure =>
    cases failure with
    | none =>
      obtain ⟨spot, leads, -, dots, grows⟩ := writeOne_ok eq
      refine grows.mono fun loc here => ⟨?_, dots⟩
      rw [here, FileTree.resolve_eq_aim leads, aim_of_current grows.current]
    | some e =>
      have parent := grows_makeParent t (Path.join staging o.path)
      unfold writeOne at eq
      simp only at eq
      split at eq
      · rename_i t₁ e' made
        obtain ⟨rfl, -⟩ := Prod.mk.inj eq
        rw [made] at parent
        exact parent.mono fun _ => False.elim
      · rename_i t₁ made
        rw [made] at parent
        split at eq
        · cases eq
        · obtain ⟨rfl, -⟩ := Prod.mk.inj eq
          exact parent.mono fun _ => False.elim

theorem grows_writeAll_below {staging : String} {os : List Output}
    (h : ∀ o ∈ os, isDots ((Path.parts (Path.join staging o.path)).getLast
      (Path.parts_ne_nil _)) = false → t.Below staging (Path.join staging o.path)) :
    Grows (fun loc => ∃ names, names ≠ [] ∧ loc = t.aim staging ++ names) t
      (writeAll staging t os).1 := by
  induction os generalizing t with
  | nil => exact .refl _ t
  | cons o rest ih =>
    have first : Grows (fun loc => ∃ names, names ≠ [] ∧ loc = t.aim staging ++ names) t
        (writeOne staging t o).1 := by
      refine (grows_writeOne staging t o).mono ?_
      rintro loc ⟨rfl, named⟩
      exact h o List.mem_cons_self named
    rw [writeAll_cons]
    split
    · rename_i t₁ eq
      rw [eq] at first
      have same := aim_of_current first.current
      have later := @ih t₁ fun o' mem named => by
        obtain ⟨names, some_, below⟩ := h o' (List.mem_cons_of_mem _ mem) named
        exact ⟨names, some_, by rw [same, same, below]⟩
      simp only [same] at later
      exact first.trans later
    · rename_i eq
      rwa [eq] at first

/-- Where each entry of a project is written inside its root, the output of a loaded source leads
below the staging directory, and whatever comes of the writing, it changes files only there. -/
theorem write_below_staging {t : FileTree} (named : t.Named) {c : Config}
    (inside : ∀ entry ∈ entries c, Path.Inside c.root entry) {p : Program}
    (loaded : load t ⟨c, []⟩ = (p, none)) :
    (∀ s ∈ p.sources, (Path.stem s.path).2 ∉ ["", "."] →
      t.Below c.staging (Path.join c.staging (output c s).path)) ∧
    ∀ loc bytes, (p.write t).1.get? loc = some (.file bytes) → t.get? loc ≠ some (.file bytes) →
      ∃ names, names ≠ [] ∧ loc = t.aim c.staging ++ names := by
  obtain ⟨rfl, sheltered⟩ := sheltered_load named inside loaded
  refine ⟨fun s mem stem => below_of_sheltered (sheltered s mem) stem t, ?_⟩
  intro loc bytes after before
  have grows : Grows (fun loc => ∃ names, names ≠ [] ∧ loc = t.aim p.config.staging ++ names) t
      (p.write t).1 := by
    refine grows_writeAll_below fun o mem dots => ?_
    obtain ⟨s, listed, rfl⟩ := List.mem_map.mp mem
    have sheltered' := sheltered s listed
    exact below_of_sheltered sheltered' (named_of_sheltered sheltered' dots) t
  exact Classical.byContradiction fun outside => before (grows.old after outside)

/-- A project with the root `src` and one entry, in a tree with one file. -/
def sample (file : Location) : FileTree :=
  ((FileTree.empty ["work"]).addDirectory ["work", "src"]).put ("work" :: file)
    (.file "x = 1".toUTF8)

@[inherit_doc sample] def sampleConfig (entry : String) : Config :=
  { rootDir := some "src", files := [entry] }

/- One file needs no sorting. -/
theorem load_single (found : ((entries c).mapM (entryFiles t)).toOption = some [[path]]) :
    load t ⟨c, []⟩ = addFiles t ⟨c, []⟩ [path] := by
  cases each : (entries c).mapM (entryFiles t) with
  | error e =>
    rw [each] at found
    cases found
  | ok paths =>
    rw [each] at found
    obtain rfl : paths = [[path]] := Option.some.inj found
    have files : findFiles t c = .ok [path] := by
      rw [findFiles, each]
      simp [dedup, bind, Except.bind, pure, Except.pure]
    simp only [load, files]

theorem write_below_staging_climbing :
    (sample ["src", "lib", "a.bs"]).Named ∧
    (∀ entry ∈ entries (sampleConfig "lib/../lib/a.bs"), Path.Inside "src" entry) ∧
    (load (sample ["src", "lib", "a.bs"]) ⟨sampleConfig "lib/../lib/a.bs", []⟩).2 = none ∧
    (((load (sample ["src", "lib", "a.bs"]) ⟨sampleConfig "lib/../lib/a.bs", []⟩).1.write
      (sample ["src", "lib", "a.bs"])).1.readAt ["work", "out", "lib", "a.brs"]).toOption =
        some "x = 1\n" ∧
    ∀ loc bytes, ((load (sample ["src", "lib", "a.bs"])
      ⟨sampleConfig "lib/../lib/a.bs", []⟩).1.write (sample ["src", "lib", "a.bs"])).1.get? loc =
        some (.file bytes) → (sample ["src", "lib", "a.bs"]).get? loc ≠ some (.file bytes) →
      ∃ names, names ≠ [] ∧ loc = ["work", "out"] ++ names := by
  have named : (sample ["src", "lib", "a.bs"]).Named := by decide +kernel
  have inside : ∀ entry ∈ entries (sampleConfig "lib/../lib/a.bs"), Path.Inside "src" entry := by
    have only : entries (sampleConfig "lib/../lib/a.bs") = ["src/lib/../lib/a.bs"] := by decide +kernel
    rw [only, List.forall_mem_singleton]
    exact ⟨[.name "lib", .parent, .name "lib", .name "a.bs"], by decide +kernel, by decide +kernel⟩
  have loaded : load (sample ["src", "lib", "a.bs"]) ⟨sampleConfig "lib/../lib/a.bs", []⟩ =
      addFiles (sample ["src", "lib", "a.bs"]) ⟨sampleConfig "lib/../lib/a.bs", []⟩
        ["src/lib/../lib/a.bs"] := load_single (by decide +kernel)
  have sound : (load (sample ["src", "lib", "a.bs"])
      ⟨sampleConfig "lib/../lib/a.bs", []⟩).2 = none := by
    rw [loaded]
    decide +kernel
  refine ⟨named, inside, sound, by rw [loaded]; decide +kernel, fun loc bytes after before => ?_⟩
  have staging : (sample ["src", "lib", "a.bs"]).aim
      (sampleConfig "lib/../lib/a.bs").staging = ["work", "out"] := by decide +kernel
  rw [← staging]
  exact (write_below_staging named inside (Prod.ext rfl sound)).2 loc bytes after before

/-- An entry that leaves the root makes an output that leaves the staging directory. -/
theorem output_beside_staging :
    (load (sample ["lib", "a.bs"]) ⟨sampleConfig "../lib/a.bs", []⟩).2 = none ∧
    ((load (sample ["lib", "a.bs"]) ⟨sampleConfig "../lib/a.bs", []⟩).1.write
      (sample ["lib", "a.bs"])).2 = none ∧
    (((load (sample ["lib", "a.bs"]) ⟨sampleConfig "../lib/a.bs", []⟩).1.write
      (sample ["lib", "a.bs"])).1.readAt ["work", "lib", "a.brs"]).toOption = some "x = 1\n" ∧
    (sample ["lib", "a.bs"]).aim (sampleConfig "../lib/a.bs").staging = ["work", "out"] := by
  have loaded : load (sample ["lib", "a.bs"]) ⟨sampleConfig "../lib/a.bs", []⟩ =
      addFiles (sample ["lib", "a.bs"]) ⟨sampleConfig "../lib/a.bs", []⟩ ["src/../lib/a.bs"] :=
    load_single (by decide +kernel)
  rw [loaded]
  decide +kernel

end Program
end BrightScript
