import BrightScript.Program
import BrightScript.Proofs.Files.Tree

/-! Where the output of a program goes.
A file holds the text of the last output that was written to its location. Outputs are named after
their sources by a new extension, so they are apart if no two sources differ in their extensions
only. -/
namespace BrightScript

theorem FileTree.readText_of_get? {t : FileTree} {path text : String} {loc : Location}
    (leads : t.resolve path = .ok loc) (found : t.get? loc = some (.file text.toUTF8)) :
    t.readText path = .ok text := by
  have decoded : String.fromUTF8? text.toUTF8 = some text := by
    simp [String.fromUTF8?, text.isValidUTF8, String.fromUTF8]
  have read : t.readAt loc = .ok text := by rw [readAt, found]; simp only [decoded]
  rw [readText, leads]
  exact read

namespace Program

open FileTree (Grows isDots)

theorem grows_makeParent (t : FileTree) (path : String) :
    Grows (fun _ => False) t (makeParent t path).1 := by
  unfold makeParent
  split
  · exact .refl _ t
  · exact FileTree.grows_makeFrom t _

theorem writeOne_ok {staging : String} {t t' : FileTree} {o : Output}
    (h : writeOne staging t o = (t', none)) :
    ∃ spot, t'.resolve (Path.join staging o.path) = .ok spot ∧
      t'.get? spot = some (.file o.text.toUTF8) ∧
      isDots ((Path.parts (Path.join staging o.path)).getLast (Path.parts_ne_nil _)) = false ∧
      Grows (· = spot) t t' := by
  have parent := grows_makeParent t (Path.join staging o.path)
  unfold writeOne at h
  simp only at h
  split at h
  · cases h
  · rename_i t₁ eq
    rw [eq] at parent
    split at h
    · rename_i t₂ written
      obtain rfl : t₂ = t' := by simpa using h
      obtain ⟨spot, leads, found, dots, grows⟩ := FileTree.writeText_ok written
      exact ⟨spot, leads, found, dots, (parent.mono fun _ => False.elim).trans grows⟩
    · cases h

def IsSpot (staging : String) (t : FileTree) (os : List Output) (loc : Location) : Prop :=
  ∃ o ∈ os, t.resolve (Path.join staging o.path) = .ok loc

theorem grows_writeAll {staging : String} {t t' : FileTree} {os : List Output}
    (h : writeAll staging t os = (t', none)) : Grows (IsSpot staging t' os) t t' := by
  induction os generalizing t with
  | nil =>
    obtain rfl : t = t' := congrArg Prod.fst h
    exact .refl _ t
  | cons o rest ih =>
    rw [writeAll_cons] at h
    split at h
    · rename_i t₁ eq
      obtain ⟨spot, leads, -, -, grows⟩ := writeOne_ok eq
      have later := ih h
      refine (grows.mono ?_).trans (later.mono ?_)
      · rintro loc rfl
        exact ⟨o, List.mem_cons_self, later.resolve leads⟩
      · rintro loc ⟨o', mem, leads'⟩
        exact ⟨o', List.mem_cons_of_mem _ mem, leads'⟩
    · cases h

theorem writeAll_ok {staging : String} {t t' : FileTree} {before after : List Output} {o : Output}
    (h : writeAll staging t (before ++ o :: after) = (t', none)) :
    isDots ((Path.parts (Path.join staging o.path)).getLast (Path.parts_ne_nil _)) = false ∧
    ∃ spot, t'.resolve (Path.join staging o.path) = .ok spot ∧
      (¬IsSpot staging t' after spot → t'.readText (Path.join staging o.path) = .ok o.text) := by
  induction before generalizing t with
  | nil =>
    rw [List.nil_append, writeAll_cons] at h
    split at h
    · rename_i t₁ eq
      obtain ⟨spot, leads, found, dots, -⟩ := writeOne_ok eq
      have later := grows_writeAll h
      refine ⟨dots, spot, later.resolve leads, fun last => ?_⟩
      exact FileTree.readText_of_get? (later.resolve leads) (later.kept found last)
    · cases h
  | cons first before ih =>
    rw [List.cons_append, writeAll_cons] at h
    split at h
    · exact ih h
    · cases h

theorem resolve_join {t : FileTree} {staging path : String} {loc : Location}
    (names : ∀ part ∈ Path.parts path, isDots part = false)
    (leads : t.resolve (Path.join staging path) = .ok loc) :
    ∃ top, (t.base staging ++ Path.basis staging).foldlM t.follow [] = .ok top ∧
      loc = top ++ Path.parts path := by
  have relative : Path.isAbsolute path = false := Path.isAbsolute_of_not_idle fun part mem => by
    have dots := names part mem
    rw [isDots, Bool.or_eq_false_iff] at dots
    exact dots.1
  rw [FileTree.resolve] at leads
  split at leads
  · cases leads
  rw [FileTree.locate_eq, FileTree.base, Path.isAbsolute_join relative, ← FileTree.base,
    Path.parts_join relative, ← List.append_assoc, List.foldlM_append] at leads
  cases top : (t.base staging ++ Path.basis staging).foldlM t.follow [] with
  | error e =>
    rw [top] at leads
    cases leads
  | ok top_ =>
    rw [top] at leads
    exact ⟨top_, rfl, FileTree.followAll_names names leads⟩

theorem slash_not_mem_brs : '/' ∉ "brs".toList := by decide

theorem long_brs : 1 < "brs".length := by decide

theorem names_of_written {staging path : String} (within : Path.Within path)
    (dots : isDots ((Path.parts (Path.join staging (Path.withExtension path "brs"))).getLast
      (Path.parts_ne_nil _)) = false) :
    ∀ part ∈ Path.parts (Path.withExtension path "brs"), isDots part = false := by
  have idle := Path.not_idle_withExtension within slash_not_mem_brs long_brs
  have eq := within.parts_withExtension slash_not_mem_brs
  have joined := @Path.parts_join _ staging (Path.isAbsolute_of_not_idle idle)
  simp only [joined, eq, ← List.append_assoc, List.getLast_concat] at dots
  rw [eq]
  intro part mem
  rcases List.mem_append.mp mem with dir | last
  · obtain ⟨named, up⟩ := within part (List.dropLast_subset _ dir)
    simp [isDots, named, up]
  · rwa [List.mem_singleton.mp last]

theorem same_output_iff {c : Config} {s s' : Source} (h : Path.Within s.path)
    (h' : Path.Within s'.path) : Path.same (output c s).path (output c s').path = true ↔
      Path.stem s.path = Path.stem s'.path := by
  rw [← Path.withExtension_eq_iff h h' slash_not_mem_brs long_brs]
  refine ⟨fun same => ?_, fun eq => ?_⟩
  · exact Path.eq_of_same_of_not_idle (Path.not_idle_withExtension h slash_not_mem_brs long_brs)
      (Path.not_idle_withExtension h' slash_not_mem_brs long_brs) same
  · simp [Path.same, output, eq]

/-- The text of a source stands in the staging directory if no later source has the same stem. -/
theorem readText_write {p : Program} (within : ∀ s ∈ p.sources, Path.Within s.path)
    {before after : List Source} {s : Source} (split : p.sources = before ++ s :: after)
    (last : ∀ s' ∈ after, Path.stem s.path ≠ Path.stem s'.path) {t t' : FileTree}
    (written : p.write t = (t', none)) :
    t'.readText (Path.join p.config.staging (output p.config s).path) =
      .ok (output p.config s).text := by
  have each : ∀ {before after : List Source} {s : Source}, p.sources = before ++ s :: after →
      writeAll p.config.staging t
        (before.map (output p.config) ++ output p.config s :: after.map (output p.config)) =
          (t', none) := by
    intro before after s eq
    rw [← written, write, outputs, eq, List.map_append, List.map_cons]
  have mem : s ∈ p.sources := by rw [split]; simp
  obtain ⟨dots, spot, leads, read⟩ := writeAll_ok (each split)
  refine read ?_
  rintro ⟨o', mem_o, leads'⟩
  obtain ⟨s', mem_after, rfl⟩ := List.mem_map.mp mem_o
  have mem' : s' ∈ p.sources := by rw [split]; simp [mem_after]
  obtain ⟨before', after', split'⟩ := List.append_of_mem mem'
  obtain ⟨dots', -⟩ := writeAll_ok (each split')
  obtain ⟨top, walked, eq⟩ := resolve_join (names_of_written (within s mem) dots) leads
  obtain ⟨top', walked', eq'⟩ := resolve_join (names_of_written (within s' mem') dots') leads'
  obtain rfl := Except.ok.inj (walked.symm.trans walked')
  have paths := Path.parts_injective (List.append_cancel_left (eq.symm.trans eq'))
  exact last s' mem_after ((Path.withExtension_eq_iff (within s mem) (within s' mem')
    slash_not_mem_brs long_brs).mp paths)

/-- Outputs have different paths exactly if no two sources differ in their extensions only. Then,
once all outputs could be written, each of them stands in the staging directory. -/
theorem outputs_apart_iff (p : Program) (within : ∀ s ∈ p.sources, Path.Within s.path) :
    ((p.outputs.Pairwise fun o o' => Path.same o.path o'.path = false) ↔
      p.sources.Pairwise fun s s' => Path.stem s.path ≠ Path.stem s'.path) ∧
    ((p.outputs.Pairwise fun o o' => Path.same o.path o'.path = false) →
      ∀ t t', p.write t = (t', none) → ∀ s ∈ p.sources,
        t'.readText (Path.join p.config.staging (output p.config s).path) =
          .ok (output p.config s).text) := by
  have apart : (p.outputs.Pairwise fun o o' => Path.same o.path o'.path = false) ↔
      p.sources.Pairwise fun s s' => Path.stem s.path ≠ Path.stem s'.path := by
    rw [outputs, List.pairwise_map]
    refine List.Pairwise.iff_of_mem fun {s s'} mem mem' => ?_
    rw [← Bool.not_eq_true, same_output_iff (within s mem) (within s' mem')]
  refine ⟨apart, fun h t t' written s mem => ?_⟩
  obtain ⟨before, after, split⟩ := List.append_of_mem mem
  refine readText_write within split (fun s' mem' => ?_) written
  have pairs := apart.mp h
  rw [split, List.pairwise_append] at pairs
  exact List.rel_of_pairwise_cons pairs.2.1 mem'

theorem outputs_apart_in_directories :
    (∀ s ∈ [Source.mk "a.bs" "x = 1", ⟨"lib/a.brs", "y = 2"⟩], Path.Within s.path) ∧
    (write ⟨{}, [⟨"a.bs", "x = 1"⟩, ⟨"lib/a.brs", "y = 2"⟩]⟩ (.empty ["work"])).2 = none ∧
    ∀ t t', write ⟨{}, [⟨"a.bs", "x = 1"⟩, ⟨"lib/a.brs", "y = 2"⟩]⟩ t = (t', none) →
      ∀ s ∈ [Source.mk "a.bs" "x = 1", ⟨"lib/a.brs", "y = 2"⟩],
        t'.readText (Path.join (Config.staging {}) (output {} s).path) =
          .ok (output {} s).text := by
  have apart := outputs_apart_iff ⟨{}, [⟨"a.bs", "x = 1"⟩, ⟨"lib/a.brs", "y = 2"⟩]⟩ (by decide)
  exact ⟨by decide, by decide +kernel, apart.2 (apart.1.mpr (by decide))⟩

/-- Of two sources with the same stem, only the second one's output is left. -/
theorem output_overwritten :
    (add (add ⟨{}, []⟩ "a.bs" "x = 1") "a.brs" "y = 2").outputs =
      [⟨"a.brs", "x = 1\n"⟩, ⟨"a.brs", "y = 2\n"⟩] ∧
    ((add (add ⟨{}, []⟩ "a.bs" "x = 1") "a.brs" "y = 2").write (.empty ["work"])).2 = none ∧
    (((add (add ⟨{}, []⟩ "a.bs" "x = 1") "a.brs" "y = 2").write (.empty ["work"])).1.readText
      "./../out/a.brs").toOption = some "y = 2\n" := by
  decide +kernel

end Program
end BrightScript
