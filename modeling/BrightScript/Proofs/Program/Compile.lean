import BrightScript.Program
import BrightScript.Proofs.Files.Path
import BrightScript.Proofs.Parser.Bounds

/-! What a program reports does not depend on how its sources were added.
The reports are sorted by file and start with a sort that is stable, so a list of them is known
from its parts with the same file and start. Such a part comes from one source only, as long as
different sources have different names. -/
namespace BrightScript

namespace Diagnostic

theorem fileLE_some {a b : String} : fileLE (some a) (some b) = true ↔ a ≤ b := by
  simp only [fileLE, Bool.or_eq_true, decide_eq_true_eq]
  constructor
  · rintro (rfl | less)
    · exact String.le_refl a
    · exact String.not_lt.mp (String.lt_asymm less)
  · intro le
    by_cases less : a < b
    · exact .inr less
    · exact .inl (String.le_antisymm le (String.not_lt.mp less))

theorem fileLE_total (a b : Option String) : fileLE a b = true ∨ fileLE b a = true := by
  cases a with
  | none => exact .inl rfl
  | some a =>
    cases b with
    | none => exact .inr rfl
    | some b => exact (String.le_total a b).imp fileLE_some.mpr fileLE_some.mpr

theorem fileLE_trans {a b c : Option String} (first : fileLE a b = true)
    (second : fileLE b c = true) : fileLE a c = true := by
  cases a with
  | none => rfl
  | some a =>
    cases b with
    | none => cases first
    | some b =>
      cases c with
      | none => cases second
      | some c =>
        exact fileLE_some.mpr (String.le_trans (fileLE_some.mp first) (fileLE_some.mp second))

theorem fileLE_antisymm {a b : Option String} (first : fileLE a b = true)
    (second : fileLE b a = true) : a = b := by
  cases a with
  | none =>
    cases b with
    | none => rfl
    | some b => cases second
  | some a =>
    cases b with
    | none => cases first
    | some b => rw [String.le_antisymm (fileLE_some.mp first) (fileLE_some.mp second)]

theorem le_iff {a b : Diagnostic} : le a b = true ↔
    (a.file = b.file ∧ a.range.start ≤ b.range.start) ∨
      (a.file ≠ b.file ∧ fileLE a.file b.file = true) := by
  unfold le
  split <;> simp_all

theorem le_total (a b : Diagnostic) : (le a b || le b a) = true := by
  simp only [Bool.or_eq_true, le_iff]
  by_cases file : a.file = b.file
  · exact (LinearOrder.le_total a.range.start b.range.start).imp
      (fun h => .inl ⟨file, h⟩) fun h => .inl ⟨file.symm, h⟩
  · exact (fileLE_total a.file b.file).imp (fun h => .inr ⟨file, h⟩)
      fun h => .inr ⟨Ne.symm file, h⟩

theorem le_trans (a b c : Diagnostic) (first : le a b = true) (second : le b c = true) :
    le a c = true := by
  rw [le_iff] at first second ⊢
  rcases first with ⟨ab, starts⟩ | ⟨ab, files⟩
  · rw [ab]
    rcases second with ⟨bc, starts'⟩ | later
    · exact .inl ⟨bc, Preorder.le_trans _ _ _ starts starts'⟩
    · exact .inr later
  · rcases second with ⟨bc, _⟩ | ⟨bc, files'⟩
    · exact .inr (bc ▸ ⟨ab, files⟩)
    · refine .inr ⟨fun ac => ab ?_, fileLE_trans files files'⟩
      exact fileLE_antisymm files (ac ▸ files')

/-- Whether a report is of this file and starts at this place. -/
def isAt (file : Option String) (place : Position) (d : Diagnostic) : Bool :=
  d.file = file && d.range.start = place

theorem isAt_iff {file : Option String} {place : Position} {d : Diagnostic} :
    d.isAt file place = true ↔ d.file = file ∧ d.range.start = place := by simp [isAt]

theorem isAt_self (d : Diagnostic) : d.isAt d.file d.range.start = true := isAt_iff.mpr ⟨rfl, rfl⟩

theorem eq_of_le_of_le {a b : Diagnostic} (first : le a b = true) (second : le b a = true) :
    b.file = a.file ∧ b.range.start = a.range.start := by
  rcases le_iff.mp first with ⟨file, starts⟩ | ⟨file, files⟩
  · rcases le_iff.mp second with ⟨_, starts'⟩ | ⟨other, _⟩
    · exact ⟨file.symm, le_antisymm starts' starts⟩
    · exact absurd file.symm other
  · rcases le_iff.mp second with ⟨same, _⟩ | ⟨_, files'⟩
    · exact absurd same.symm file
    · exact absurd (fileLE_antisymm files files') file

theorem pairwise_sorted (ds : List Diagnostic) : (sorted ds).Pairwise (le · · = true) :=
  List.pairwise_mergeSort le_trans le_total ds

theorem filter_sorted (ds : List Diagnostic) (file : Option String) (place : Position) :
    (sorted ds).filter (isAt file place) = ds.filter (isAt file place) := by
  have alike : (ds.filter (isAt file place)).Pairwise (le · · = true) := by
    refine List.pairwise_of_forall_mem_list fun a ha b hb => ?_
    obtain ⟨fileA, startA⟩ := isAt_iff.mp (List.mem_filter.mp ha).2
    obtain ⟨fileB, startB⟩ := isAt_iff.mp (List.mem_filter.mp hb).2
    exact le_iff.mpr (.inl ⟨fileA.trans fileB.symm, startA ▸ startB ▸ le_refl _⟩)
  have kept : (ds.filter (isAt file place)).Sublist (sorted ds) :=
    List.sublist_mergeSort le_trans le_total alike List.filter_sublist
  have inside : (ds.filter (isAt file place)).Sublist ((sorted ds).filter (isAt file place)) := by
    simpa using kept.filter (isAt file place)
  exact (inside.eq_of_length ((List.mergeSort_perm ds le).filter _).length_eq.symm).symm

theorem eq_of_sorted {xs ys : List Diagnostic} (hx : xs.Pairwise (le · · = true))
    (hy : ys.Pairwise (le · · = true))
    (same : ∀ file place, xs.filter (isAt file place) = ys.filter (isAt file place)) : xs = ys := by
  induction xs generalizing ys with
  | nil =>
    cases ys with
    | nil => rfl
    | cons y ys =>
      have first := same y.file y.range.start
      rw [List.filter_cons_of_pos (isAt_self y)] at first
      cases first
  | cons x xs ih =>
    have mem_ys : x ∈ ys := by
      have mem : x ∈ (x :: xs).filter (isAt x.file x.range.start) :=
        List.mem_filter.mpr ⟨List.mem_cons_self, isAt_self x⟩
      rw [same] at mem
      exact (List.mem_filter.mp mem).1
    cases ys with
    | nil => cases mem_ys
    | cons y ys =>
      have mem_xs : y ∈ x :: xs := by
        have mem : y ∈ (y :: ys).filter (isAt y.file y.range.start) :=
          List.mem_filter.mpr ⟨List.mem_cons_self, isAt_self y⟩
        rw [← same] at mem
        exact (List.mem_filter.mp mem).1
      -- each of the two heads is not after the other, so they are in the same part
      have at_y : x.isAt y.file y.range.start = true := by
        rcases List.mem_cons.mp mem_xs with rfl | later
        · exact isAt_self y
        rcases List.mem_cons.mp mem_ys with rfl | later'
        · exact isAt_self x
        have first := List.rel_of_pairwise_cons hx later
        have second := List.rel_of_pairwise_cons hy later'
        exact isAt_iff.mpr (eq_of_le_of_le second first)
      have heads := same y.file y.range.start
      rw [List.filter_cons_of_pos at_y, List.filter_cons_of_pos (isAt_self y)] at heads
      obtain rfl : x = y := (List.cons.inj heads).1
      refine congrArg (x :: ·) (ih hx.tail hy.tail fun file place => ?_)
      have rest := same file place
      by_cases here : x.isAt file place = true
      · rw [List.filter_cons_of_pos here, List.filter_cons_of_pos here] at rest
        exact (List.cons.inj rest).2
      · rwa [List.filter_cons_of_neg here, List.filter_cons_of_neg here] at rest

/-- Both are of a file, and the first is of an earlier one or starts no later. -/
def Precedes (a b : Diagnostic) : Prop :=
  ∃ f g, a.file = some f ∧ b.file = some g ∧ (f < g ∨ f = g ∧ a.range.start ≤ b.range.start)

theorem precedes_of_le {a b : Diagnostic} {f g : String} (hf : a.file = some f)
    (hg : b.file = some g) (h : le a b = true) : a.Precedes b := by
  refine ⟨f, g, hf, hg, ?_⟩
  rcases le_iff.mp h with ⟨file, starts⟩ | ⟨file, files⟩
  · exact .inr ⟨Option.some.inj (hf.symm.trans (file.trans hg)), starts⟩
  · rw [hf, hg] at file files
    have ne : f ≠ g := fun eq => file (congrArg some eq)
    refine .inl (Classical.byContradiction fun not_less => ne ?_)
    exact String.le_antisymm (fileLE_some.mp files) (String.not_lt.mp not_less)

end Diagnostic

namespace Program

variable {path : String}

/-- Adds sources one after the other. -/
def addAll (p : Program) (calls : List (String × String)) : Program :=
  calls.foldl (fun p call => p.add call.1 call.2) p

/-- The text that the last of these calls gives to a path. -/
def lastText (calls : List (String × String)) (path : String) : Option String :=
  calls.reverse.lookup path

/-- The sources are the graph of a map from plain paths to texts. -/
structure Holds (p : Program) (text : String → Option String) : Prop where
  plain : ∀ s ∈ p.sources, Path.Plain s.path
  distinct : (p.sources.map (·.path)).Nodup
  mem_iff : ∀ s, s ∈ p.sources ↔ text s.path = some s.text

namespace Holds

variable {p : Program} {text : String → Option String}

theorem any_same_iff (h : p.Holds text) (plain : Path.Plain path) :
    (p.sources.any fun s => Path.same s.path path) = true ↔ (text path).isSome := by
  rw [List.any_eq_true, Option.isSome_iff_exists]
  constructor
  · rintro ⟨s, mem, same⟩
    obtain rfl := (h.plain s mem).eq_of_same plain same
    exact ⟨s.text, (h.mem_iff s).mp mem⟩
  · rintro ⟨t, eq⟩
    exact ⟨⟨path, t⟩, (h.mem_iff ⟨path, t⟩).mpr eq, (plain.same_iff plain).mpr rfl⟩

/-- A new text for a path that is there. -/
theorem replaced (h : p.Holds text) (known : (text path).isSome) (t : String) :
    Holds { p with sources := p.sources.map fun s =>
        if s.path = path then { s with text := t } else s }
      fun q => if q = path then some t else text q := by
  have paths : (p.sources.map fun s => if s.path = path then { s with text := t } else s).map
      (·.path) = p.sources.map (·.path) := by
    rw [List.map_map]
    refine List.map_congr_left fun s _ => ?_
    simp only [Function.comp_apply]
    split <;> rfl
  refine ⟨fun s mem => ?_, by simpa only [paths] using h.distinct, fun s => ?_⟩
  · obtain ⟨s', mem', eq⟩ := List.mem_map.mp (paths ▸ List.mem_map_of_mem mem)
    exact eq ▸ h.plain s' mem'
  simp only [List.mem_map]
  constructor
  · rintro ⟨s', mem, rfl⟩
    by_cases here : s'.path = path
    · simp [here]
    · simpa [here] using (h.mem_iff s').mp mem
  · intro eq
    by_cases here : s.path = path
    · obtain ⟨t', eq'⟩ := Option.isSome_iff_exists.mp known
      refine ⟨⟨path, t'⟩, (h.mem_iff ⟨path, t'⟩).mpr eq', ?_⟩
      rw [if_pos here, Option.some.injEq] at eq
      simp only [if_true, eq, ← here]
    · rw [if_neg here] at eq
      exact ⟨s, (h.mem_iff s).mpr eq, if_neg here⟩

theorem appended (h : p.Holds text) (plain : Path.Plain path) (new : text path = none)
    (t : String) :
    Holds { p with sources := p.sources ++ [⟨path, t⟩] }
      fun q => if q = path then some t else text q := by
  have absent : ∀ s ∈ p.sources, s.path ≠ path := fun s mem eq => by
    have found := (h.mem_iff s).mp mem
    rw [eq, new] at found
    cases found
  refine ⟨fun s mem => ?_, ?_, fun s => ?_⟩
  · rcases List.mem_append.mp mem with old | here
    · exact h.plain s old
    · rw [List.mem_singleton.mp here]
      exact plain
  · rw [List.map_append, List.nodup_append]
    refine ⟨h.distinct, by simp, ?_⟩
    rintro _ old _ here rfl
    obtain ⟨s, mem, rfl⟩ := List.mem_map.mp old
    exact absent s mem (by simpa using here)
  · rw [List.mem_append, List.mem_singleton]
    by_cases here : s.path = path
    · rw [if_pos here, Option.some.injEq]
      constructor
      · rintro (old | rfl)
        · exact absurd here (absent s old)
        · rfl
      · rintro rfl
        exact .inr (by rw [← here])
    · rw [if_neg here, ← h.mem_iff s]
      exact ⟨fun mem => mem.resolve_right fun eq => here (by rw [eq]), .inl⟩

theorem add (h : p.Holds text) (plain : Path.Plain path) (t : String) :
    (p.add path t).Holds fun q => if q = path then some t else text q := by
  unfold Program.add
  split
  · rename_i known
    have eq : (p.sources.map fun s => if Path.same s.path path then { s with text := t } else s)
        = p.sources.map fun s => if s.path = path then { s with text := t } else s :=
      List.map_congr_left fun s mem => by simp only [(h.plain s mem).same_iff plain]
    rw [eq]
    exact h.replaced ((h.any_same_iff plain).mp known) t
  · rename_i unknown
    rw [h.any_same_iff plain, Option.not_isSome_iff_eq_none] at unknown
    exact h.appended plain unknown t

theorem addAll (h : p.Holds text) {calls : List (String × String)}
    (plain : ∀ call ∈ calls, Path.Plain call.1) :
    (p.addAll calls).Holds fun q => (lastText calls q).or (text q) := by
  induction calls generalizing p text with
  | nil => exact h
  | cons call calls ih =>
    obtain ⟨path, t⟩ := call
    have rest := ih (h.add (plain (path, t) List.mem_cons_self) t) fun c mem =>
      plain c (List.mem_cons_of_mem _ mem)
    have texts : (fun q => (lastText ((path, t) :: calls) q).or (text q)) =
        fun q => (lastText calls q).or (if q = path then some t else text q) := by
      funext q
      rw [lastText, List.reverse_cons, List.lookup_append, Option.or_assoc]
      congr 1
      by_cases here : q = path
      · simp [here]
      · simp [List.lookup_cons, here, beq_eq_false_iff_ne.mpr here]
    rw [texts]
    exact rest

end Holds

theorem holds_addAll (c : Config) {calls : List (String × String)}
    (plain : ∀ call ∈ calls, Path.Plain call.1) :
    (addAll ⟨c, []⟩ calls).Holds (lastText calls) := by
  have empty : Holds ⟨c, []⟩ fun _ => none := ⟨by simp, by simp, by simp⟩
  simpa only [Option.or_none] using empty.addAll plain

@[simp] theorem config_add (p : Program) (path text : String) :
    (p.add path text).config = p.config := by
  unfold add
  split <;> rfl

@[simp] theorem config_addAll (p : Program) (calls : List (String × String)) :
    (p.addAll calls).config = p.config := by
  induction calls generalizing p with
  | nil => rfl
  | cons call calls ih => exact (ih _).trans (config_add p call.1 call.2)

/-- The name under which the reports of a source are shown. -/
def shownName (c : Config) (path : String) : String :=
  if c.fullPaths then Path.join c.root path else path

/-- These reports of a source as the project shows them: filtered under the source's own path. -/
def tagged (c : Config) (path : String) (ds : List Diagnostic) : List Diagnostic :=
  ((ds.map (·.inFile path)).filter c.isReported).map (showFile c)

theorem tagged_append (c : Config) (path : String) (ds ds' : List Diagnostic) :
    tagged c path (ds ++ ds') = tagged c path ds ++ tagged c path ds' := by
  simp [tagged]

theorem shownName_injective {c : Config} {a b : String} (ha : Path.Plain a) (hb : Path.Plain b)
    (h : shownName c a = shownName c b) : a = b := by
  unfold shownName at h
  split at h
  · exact ha.join_injective hb h
  · exact h

theorem showFile_inFile (c : Config) (path : String) (d : Diagnostic) :
    showFile c (d.inFile path) = d.inFile (shownName c path) := by
  unfold showFile shownName
  split <;> rfl

theorem tagged_eq (c : Config) (path : String) (ds : List Diagnostic) : tagged c path ds =
    (ds.filter fun d => c.isReported (d.inFile path)).map (·.inFile (shownName c path)) := by
  rw [tagged, List.filter_map, List.map_map]
  exact List.map_congr_left fun d _ => showFile_inFile c path d

theorem file_of_mem_tagged {c : Config} {ds : List Diagnostic} {d : Diagnostic}
    (mem : d ∈ tagged c path ds) : d.file = some (shownName c path) := by
  rw [tagged_eq] at mem
  obtain ⟨d', _, rfl⟩ := List.mem_map.mp mem
  rfl

theorem filter_tagged (c : Config) (path : String) (ds : List Diagnostic) (place : Position) :
    (tagged c path ds).filter (Diagnostic.isAt (some (shownName c path)) place) =
      tagged c path (ds.filter (·.range.start = place)) := by
  rw [tagged_eq, tagged_eq, List.filter_map, List.filter_filter, List.filter_filter]
  congr 2
  funext d
  rw [Bool.and_comm]
  simp [Diagnostic.isAt, Diagnostic.inFile]

theorem filter_tagged_of_ne {c : Config} {ds : List Diagnostic} {file : Option String}
    (other : some (shownName c path) ≠ file) (place : Position) :
    (tagged c path ds).filter (Diagnostic.isAt file place) = [] := by
  refine List.filter_eq_nil_iff.mpr fun d mem here => other ?_
  rw [← file_of_mem_tagged mem]
  exact (Diagnostic.isAt_iff.mp here).1

/-- What is wrong with a text: first what the scanner reports, then what the parser does. -/
def found (path text : String) : List Diagnostic :=
  (scan text).diagnostics ++ (parse (.ofPath path) (scan text).tokens).diagnostics

theorem name_of_free {s : Source} (free : '\\' ∉ s.path.toList) : s.name = s.path := by
  have kept : s.path.toList.map (fun c => if c = '\\' then '/' else c) = s.path.toList := by
    refine (List.map_congr_left fun c mem => ?_).trans (List.map_id _)
    exact if_neg fun (eq : c = '\\') => free (eq ▸ mem)
  rw [Source.name, ← String.toList_inj, String.toList_map, kept]

theorem tagged_found (c : Config) {s : Source} (plain : Path.Plain s.path) :
    (s.diagnostics.filter c.isReported).map (showFile c) =
      tagged c s.path (found s.path s.text) := by
  rw [tagged, found, Source.diagnostics, name_of_free plain.1]
  rfl

namespace Holds

variable {p : Program} {text : String → Option String}

theorem compile_eq (h : p.Holds text) : p.compile = Diagnostic.sorted
    (p.sources.flatMap fun s => tagged p.config s.path (found s.path s.text)) := by
  rw [Program.compile, List.filter_flatMap, List.map_flatMap]
  congr 1
  rw [List.flatMap_def, List.flatMap_def]
  exact congrArg List.flatten
    (List.map_congr_left fun s mem => tagged_found p.config (h.plain s mem))

/-- The reports of one file are those of the one source with that name. -/
theorem filter_compile (h : p.Holds text) {t : String} (known : text path = some t)
    (place : Position) :
    p.compile.filter (Diagnostic.isAt (some (shownName p.config path)) place) =
      tagged p.config path ((found path t).filter (·.range.start = place)) := by
  have mem : ⟨path, t⟩ ∈ p.sources := (h.mem_iff ⟨path, t⟩).mpr known
  obtain ⟨before, after, eq⟩ := List.append_of_mem mem
  have others : ∀ s ∈ before ++ after, (tagged p.config s.path (found s.path s.text)).filter
      (Diagnostic.isAt (some (shownName p.config path)) place) = [] := by
    intro s mem'
    refine filter_tagged_of_ne (fun same => ?_) place
    have mem_s : s ∈ p.sources := by
      rw [eq]
      simp only [List.mem_append, List.mem_cons] at mem' ⊢
      exact mem'.imp_right .inr
    have paths : s.path = path :=
      shownName_injective (h.plain s mem_s) (h.plain _ mem) (Option.some.inj same)
    have nodup := h.distinct
    rw [eq, List.map_append, List.map_cons, List.nodup_append, List.nodup_cons] at nodup
    rcases List.mem_append.mp mem' with mem' | mem'
    · exact nodup.2.2 _ (List.mem_map_of_mem mem') _ List.mem_cons_self paths
    · exact nodup.2.1.1 (List.mem_map.mpr ⟨s, mem', paths⟩)
  rw [h.compile_eq, Diagnostic.filter_sorted, List.filter_flatMap, eq, List.flatMap_append,
    List.flatMap_cons, filter_tagged]
  rw [List.flatMap_eq_nil_iff.mpr fun s mem => others s (List.mem_append_left _ mem),
    List.flatMap_eq_nil_iff.mpr fun s mem => others s (List.mem_append_right _ mem)]
  simp

theorem exists_of_mem_compile (h : p.Holds text) {d : Diagnostic} (mem : d ∈ p.compile) :
    ∃ path t, text path = some t ∧ d.file = some (shownName p.config path) := by
  rw [h.compile_eq] at mem
  replace mem := List.mem_mergeSort.mp mem
  rw [List.mem_flatMap] at mem
  obtain ⟨s, mem_s, mem⟩ := mem
  exact ⟨s.path, s.text, (h.mem_iff s).mp mem_s, file_of_mem_tagged mem⟩

/-- The map from paths to texts decides what is reported. -/
theorem compile_congr {p' : Program} (h : p.Holds text) (h' : p'.Holds text)
    (config : p'.config = p.config) : p.compile = p'.compile := by
  refine Diagnostic.eq_of_sorted (Diagnostic.pairwise_sorted _) (Diagnostic.pairwise_sorted _)
    fun file place => ?_
  by_cases known : ∃ path t, text path = some t ∧ file = some (shownName p.config path)
  · obtain ⟨path, t, eq, rfl⟩ := known
    have second := h'.filter_compile eq place
    rw [config] at second
    rw [h.filter_compile eq place, second]
  · have none_here : ∀ {q : Program}, q.Holds text → q.config = p.config →
        q.compile.filter (Diagnostic.isAt file place) = [] := by
      intro q hq same
      refine List.filter_eq_nil_iff.mpr fun d mem here => known ?_
      obtain ⟨path, t, eq, named⟩ := hq.exists_of_mem_compile mem
      exact ⟨path, t, eq, by rw [← same, ← named, (Diagnostic.isAt_iff.mp here).1]⟩
    rw [none_here h rfl, none_here h' config]

theorem pairwise_compile (h : p.Holds text) : p.compile.Pairwise Diagnostic.Precedes := by
  refine List.Pairwise.imp_of_mem ?_ (Diagnostic.pairwise_sorted _)
  intro a b ha hb le
  obtain ⟨_, _, _, fileA⟩ := h.exists_of_mem_compile ha
  obtain ⟨_, _, _, fileB⟩ := h.exists_of_mem_compile hb
  exact Diagnostic.precedes_of_le fileA fileB le

end Holds

/-- Two ways to add the same texts under the same paths lead to the same reports. They are in the
order of files and places; at each place of a file stand the scanner's reports on its text, then
the parser's, without those that the project hides; and there are no others. -/
theorem compile_addAll (c : Config) {calls calls' : List (String × String)}
    (plain : ∀ call ∈ calls, Path.Plain call.1) (plain' : ∀ call ∈ calls', Path.Plain call.1)
    (same : ∀ path, lastText calls path = lastText calls' path) :
    (addAll ⟨c, []⟩ calls).compile = (addAll ⟨c, []⟩ calls').compile ∧
    (addAll ⟨c, []⟩ calls).compile.Pairwise Diagnostic.Precedes ∧
    (∀ path text, lastText calls path = some text → ∀ place,
      (addAll ⟨c, []⟩ calls).compile.filter (Diagnostic.isAt (some (shownName c path)) place) =
        tagged c path ((scan text).diagnostics.filter (·.range.start = place)) ++
        tagged c path ((parse (.ofPath path) (scan text).tokens).diagnostics.filter
          (·.range.start = place))) ∧
    ∀ d ∈ (addAll ⟨c, []⟩ calls).compile,
      ∃ path text, lastText calls path = some text ∧ d.file = some (shownName c path) := by
  have holds := holds_addAll c plain
  have holds' := holds_addAll c plain'
  rw [← funext same] at holds'
  refine ⟨holds.compile_congr holds' (by simp), holds.pairwise_compile, ?_, ?_⟩
  · intro path text known place
    have here := holds.filter_compile known place
    rwa [config_addAll, found, List.filter_append, tagged_append] at here
  · intro d mem
    simpa only [config_addAll] using holds.exists_of_mem_compile mem

/- The second program gives `b.brs` its last text at once. -/
theorem compile_addAll_replaced :
    (addAll ⟨{}, []⟩ [("b.brs", "print (\n"), ("a.bs", "x"), ("b.brs", "x = \"\n")]).compile =
      (addAll ⟨{}, []⟩ [("a.bs", "x"), ("b.brs", "x = \"\n")]).compile ∧
    (addAll ⟨{}, []⟩ [("b.brs", "print (\n"), ("a.bs", "x"), ("b.brs", "x = \"\n")]).compile.filter
        (Diagnostic.isAt (some "b.brs") ⟨0, 4⟩) =
      tagged {} "b.brs" ((scan "x = \"\n").diagnostics.filter (·.range.start = ⟨0, 4⟩)) ++
      tagged {} "b.brs" ((parse (.ofPath "b.brs") (scan "x = \"\n").tokens).diagnostics.filter
        (·.range.start = ⟨0, 4⟩)) := by
  have same : ∀ path,
      lastText [("b.brs", "print (\n"), ("a.bs", "x"), ("b.brs", "x = \"\n")] path =
        lastText [("a.bs", "x"), ("b.brs", "x = \"\n")] path := by
    intro path
    by_cases h : path = "b.brs"
    · subst h
      rfl
    · simp [lastText, List.lookup_cons, beq_eq_false_iff_ne.mpr h]
  have all := compile_addAll {} (by decide) (by decide) same
  exact ⟨all.1, all.2.2.1 "b.brs" "x = \"\n" rfl ⟨0, 4⟩⟩

end Program

end BrightScript
