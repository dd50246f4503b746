import BrightScript.Files.Tree
import BrightScript.Proofs.Files.Path

/-! Writing to a tree of files.
A path is followed from location to location, and each step only asks what stands where it has come
to. Making directories and writing files only adds to a tree: directories stay directories, and a
file stays as it is unless its own location is written. So a path that led somewhere before leads
there afterwards. -/
namespace BrightScript

namespace Table

variable {α : Type}

theorem lookup_cons (key name : String) (value : α) (rest : List (String × α)) :
    ((key, value) :: rest).lookup name = if name = key then some value else rest.lookup name := by
  by_cases h : name = key
  · simp [h]
  · simp [List.lookup_cons, beq_eq_false_iff_ne.mpr h, h]

theorem lookup_put (table : List (String × α)) (key name : String) (value : α) :
    (put table key value).lookup name = if name = key then some value else table.lookup name := by
  have replaced (table : List (String × α)) :
      (table.map fun x => if x.1 == key then (key, value) else x).lookup name =
        if name = key ∧ table.any (·.1 == key) then some value else table.lookup name := by
    induction table with
    | nil => simp
    | cons x rest ih =>
      obtain ⟨k, v⟩ := x
      rw [List.map_cons, lookup_cons, List.any_cons]
      by_cases hk : k = key
      · simp only [hk, beq_self_eq_true, if_true, lookup_cons, ih, Bool.true_or, and_true]
        split <;> simp_all
      · simp only [beq_eq_false_iff_ne.mpr hk, Bool.false_eq_true, if_false, lookup_cons, ih,
          Bool.false_or]
        split <;> simp_all
  unfold put
  split
  · rename_i known
    rw [replaced, known]
    simp
  · rename_i unknown
    rw [List.lookup_append]
    by_cases hn : name = key
    · have absent : table.lookup name = none := by
        rw [List.lookup_eq_none_iff]
        intro x mem
        have other : x.1 ≠ key := fun eq =>
          unknown (List.any_eq_true.mpr ⟨x, mem, beq_iff_eq.mpr eq⟩)
        exact bne_iff_ne.mpr fun eq => other (eq.symm.trans hn)
      rw [absent, lookup_cons]
      rfl
    · simp [hn, lookup_cons]

end Table

namespace FileEntry

@[simp] theorem get?_nil (e : FileEntry) : e.get? [] = some e := by cases e <;> rfl

@[simp] theorem entries_directory (es : List (String × FileEntry)) :
    (directory es).entries = es := rfl

theorem get?_cons (e : FileEntry) (name : String) (rest : Location) :
    e.get? (name :: rest) = (e.entries.lookup name).bind (·.get? rest) := by
  rw [get?]
  cases e.entries.lookup name <;> rfl

theorem get?_append (e : FileEntry) (a b : Location) :
    e.get? (a ++ b) = (e.get? a).bind (·.get? b) := by
  induction a generalizing e with
  | nil => simp
  | cons name rest ih =>
    rw [List.cons_append, get?_cons, get?_cons]
    cases e.entries.lookup name with
    | none => rfl
    | some e => exact ih e

@[simp] theorem get?_file_cons (bytes : ByteArray) (name : String) (rest : Location) :
    (file bytes).get? (name :: rest) = none := by
  rw [get?_cons]
  rfl

theorem put_cons (e x : FileEntry) (name : String) (rest : Location) :
    e.put (name :: rest) x = directory (Table.put e.entries name
      (((e.entries.lookup name).getD (directory [])).put rest x)) := by
  rw [put]

@[simp] theorem get?_put_self (e x : FileEntry) (at_ : Location) :
    (e.put at_ x).get? at_ = some x := by
  induction at_ generalizing e with
  | nil => simp [put]
  | cons name rest ih => simp [put_cons, get?_cons, Table.lookup_put, ih]

theorem get?_put_of_apart (e x : FileEntry) {at_ other : Location} (above : ¬other <+: at_)
    (below : ¬at_ <+: other) : (e.put at_ x).get? other = e.get? other := by
  induction at_ generalizing e other with
  | nil => exact absurd (List.nil_prefix) below
  | cons name rest ih =>
    cases other with
    | nil => exact absurd (List.nil_prefix) above
    | cons first others =>
      rw [put_cons, get?_cons, get?_cons]
      simp only [entries_directory, Table.lookup_put]
      split
      · rename_i same
        subst same
        rw [List.cons_prefix_cons] at above below
        simp only [Option.bind_some]
        rw [ih _ (fun h => above ⟨rfl, h⟩) fun h => below ⟨rfl, h⟩]
        cases e.entries.lookup first with
        | some e => rfl
        | none =>
          cases others with
          | nil => exact absurd ⟨rfl, List.nil_prefix⟩ above
          | cons => exact get?_cons _ _ _
      · rfl

theorem get?_put_above (e x : FileEntry) (dir : Location) (name : String) (rest : Location) :
    ∃ entries, (e.put (dir ++ name :: rest) x).get? dir = some (directory entries) := by
  induction dir generalizing e with
  | nil => exact ⟨_, by rw [List.nil_append, put_cons, get?_nil]⟩
  | cons first dir ih =>
    obtain ⟨entries, eq⟩ := ih ((e.entries.lookup first).getD (directory []))
    exact ⟨entries, by simpa [put_cons, get?_cons, Table.lookup_put] using eq⟩

end FileEntry

namespace FileTree

variable {t t' : FileTree} {loc dir loc' : Location} {path name : String} {p : Place}

/-- One step of a walk, by locations alone. -/
def follow (t : FileTree) (loc : Location) (part : String) : Except FileError Location :=
  match t.get? loc with
  | some (.directory _) =>
    if Path.isIdle part then .ok loc
    else if part = ".." then .ok loc.dropLast
    else if Place.isLong part then .error .tooLong
    else if (t.get? (loc ++ [part])).isSome then .ok (loc ++ [part])
    else .error .notFound
  | _ => .error .notDirectory

/-- A place in this tree: each entry stands in the directory that was passed before it. -/
inductive Holds (t : FileTree) : Place → Prop where
  | root : Holds t ⟨t.root, []⟩
  | down {entries : List (String × FileEntry)} {above : List (String × FileEntry)} {name : String}
      {e : FileEntry} : Holds t ⟨.directory entries, above⟩ → entries.lookup name = some e →
      Holds t ⟨e, (name, .directory entries) :: above⟩

theorem location_down (e dir : FileEntry) (name : String) (above : List (String × FileEntry)) :
    Place.location ⟨e, (name, dir) :: above⟩ = Place.location ⟨dir, above⟩ ++ [name] := by
  simp [Place.location]

theorem Holds.get? (h : t.Holds p) : t.get? p.location = some p.entry := by
  induction h with
  | root => exact FileEntry.get?_nil _
  | down _ found ih =>
    rw [location_down, FileTree.get?, FileEntry.get?_append]
    rw [FileTree.get?] at ih
    simp [ih, FileEntry.get?_cons, found]

theorem Holds.up (h : t.Holds p) : t.Holds p.up ∧ p.up.location = p.location.dropLast := by
  cases h with
  | root => exact ⟨.root, rfl⟩
  | down outer _ => exact ⟨outer, by simp [location_down, Place.up]⟩

theorem Holds.step (h : t.Holds p) (part : String) :
    Place.location <$> p.step part = t.follow p.location part ∧
      ∀ q, p.step part = .ok q → t.Holds q := by
  have here := h.get?
  obtain ⟨entry, above⟩ := p
  cases entry with
  | file bytes => exact ⟨by simp only [Place.step, follow, here]; rfl, by simp [Place.step]⟩
  | directory entries =>
    have below : t.get? (Place.location ⟨.directory entries, above⟩ ++ [part]) =
        entries.lookup part := by
      rw [FileTree.get?, FileEntry.get?_append]
      rw [FileTree.get?] at here
      cases found : entries.lookup part <;> simp [here, FileEntry.get?_cons, found]
    simp only [Place.step, follow, here, below]
    split
    · exact ⟨rfl, fun q eq => by obtain rfl := Except.ok.inj eq; exact h⟩
    split
    · exact ⟨congrArg Except.ok h.up.2, fun q eq => by obtain rfl := Except.ok.inj eq; exact h.up.1⟩
    split
    · exact ⟨rfl, fun q eq => by cases eq⟩
    cases found : entries.lookup part with
    | none => exact ⟨rfl, fun q eq => by cases eq⟩
    | some e =>
      refine ⟨congrArg Except.ok (location_down ..), fun q eq => ?_⟩
      obtain rfl := Except.ok.inj eq
      exact h.down found

theorem Holds.walk (h : t.Holds p) (parts : List String) :
    Place.location <$> parts.foldlM Place.step p = parts.foldlM t.follow p.location ∧
      ∀ q, parts.foldlM Place.step p = .ok q → t.Holds q := by
  induction parts generalizing p with
  | nil => exact ⟨rfl, fun q eq => by obtain rfl := Except.ok.inj eq; exact h⟩
  | cons part rest ih =>
    obtain ⟨location, holds⟩ := h.step part
    rw [List.foldlM_cons, List.foldlM_cons, ← location]
    cases eq : p.step part with
    | error e => exact ⟨rfl, fun q eq => by cases eq⟩
    | ok q => exact ih (holds q eq)

theorem locate_eq (t : FileTree) (path : String) :
    t.locate path = (t.base path ++ Path.parts path).foldlM t.follow [] :=
  (Holds.root.walk _).1

theorem follow_name {entries : List (String × FileEntry)}
    (found : t.get? dir = some (.directory entries)) (dots : isDots name = false)
    (short : Place.isLong name = false) (listed : (t.get? (dir ++ [name])).isSome) :
    t.follow dir name = .ok (dir ++ [name]) := by
  simp only [isDots, Bool.or_eq_false_iff, decide_eq_false_iff_not] at dots
  simp [follow, found, dots.1, dots.2, short, listed]

theorem followAll_concat {parts : List String} {mid last : Location}
    (walked : parts.foldlM t.follow loc = .ok mid) (step : t.follow mid name = .ok last) :
    (parts ++ [name]).foldlM t.follow loc = .ok last := by
  rw [List.foldlM_append, walked]
  change [name].foldlM t.follow mid = .ok last
  rw [List.foldlM_cons, step]
  rfl

theorem followAll_names {names : List String} (h : ∀ name ∈ names, isDots name = false)
    (ok : names.foldlM t.follow loc = .ok loc') : loc' = loc ++ names := by
  induction names generalizing loc with
  | nil =>
    obtain rfl := Except.ok.inj ok
    simp
  | cons name rest ih =>
    rw [List.foldlM_cons] at ok
    cases step : t.follow loc name with
    | error e =>
      rw [step] at ok
      cases ok
    | ok next =>
      rw [step] at ok
      have dots := h name List.mem_cons_self
      simp only [isDots, Bool.or_eq_false_iff, decide_eq_false_iff_not] at dots
      have down : next = loc ++ [name] := by
        unfold follow at step
        split at step
        · rw [if_neg (by simp [dots.1]), if_neg dots.2] at step
          split at step
          · cases step
          split at step
          · exact (Except.ok.inj step).symm
          · cases step
        · cases step
      rw [ih (fun n mem => h n (List.mem_cons_of_mem _ mem)) ok, down, List.append_assoc]
      rfl

/-- `t'` has all that `t` has; only files at these spots may be new or hold something else. -/
structure Grows (spots : Location → Prop) (t t' : FileTree) : Prop where
  current : t'.current = t.current
  directory : ∀ {loc entries}, t.get? loc = some (.directory entries) →
    ∃ entries', t'.get? loc = some (.directory entries')
  file : ∀ {loc bytes}, t.get? loc = some (.file bytes) →
    ∃ bytes', t'.get? loc = some (.file bytes')
  kept : ∀ {loc bytes}, t.get? loc = some (.file bytes) → ¬spots loc →
    t'.get? loc = some (.file bytes)
  old : ∀ {loc bytes}, t'.get? loc = some (.file bytes) → ¬spots loc →
    t.get? loc = some (.file bytes)

namespace Grows

variable {spots spots' : Location → Prop} {t'' : FileTree}

theorem refl (spots : Location → Prop) (t : FileTree) : Grows spots t t :=
  ⟨rfl, fun h => ⟨_, h⟩, fun h => ⟨_, h⟩, fun h _ => h, fun h _ => h⟩

theorem trans (first : Grows spots t t') (second : Grows spots t' t'') : Grows spots t t'' where
  current := second.current.trans first.current
  directory h := by
    obtain ⟨_, h'⟩ := first.directory h
    exact second.directory h'
  file h := by
    obtain ⟨_, h'⟩ := first.file h
    exact second.file h'
  kept h apart := second.kept (first.kept h apart) apart
  old h apart := first.old (second.old h apart) apart

theorem mono (h : Grows spots t t') (le : ∀ loc, spots loc → spots' loc) : Grows spots' t t' :=
  ⟨h.current, h.directory, h.file, fun found apart => h.kept found fun spot => apart (le _ spot),
    fun found apart => h.old found fun spot => apart (le _ spot)⟩

theorem isSome (h : Grows spots t t') (found : (t.get? loc).isSome) : (t'.get? loc).isSome := by
  obtain ⟨entry, eq⟩ := Option.isSome_iff_exists.mp found
  cases entry with
  | file bytes =>
    obtain ⟨_, eq'⟩ := h.file eq
    rw [eq']
    rfl
  | directory entries =>
    obtain ⟨_, eq'⟩ := h.directory eq
    rw [eq']
    rfl

theorem follow (h : Grows spots t t') {part : String} (ok : t.follow loc part = .ok loc') :
    t'.follow loc part = .ok loc' := by
  unfold FileTree.follow at ok ⊢
  split at ok
  · rename_i entries found
    obtain ⟨entries', found'⟩ := h.directory found
    simp only [found']
    split at ok
    · rwa [if_pos ‹_›]
    rw [if_neg ‹_›]
    split at ok
    · rwa [if_pos ‹_›]
    rw [if_neg ‹_›]
    split at ok
    · cases ok
    rw [if_neg ‹_›]
    split at ok
    · rename_i listed
      rwa [if_pos (h.isSome listed)]
    · cases ok
  · cases ok

theorem followAll (h : Grows spots t t') {parts : List String}
    (ok : parts.foldlM t.follow loc = .ok loc') : parts.foldlM t'.follow loc = .ok loc' := by
  induction parts generalizing loc with
  | nil => exact ok
  | cons part rest ih =>
    rw [List.foldlM_cons] at ok ⊢
    cases step : t.follow loc part with
    | error e =>
      rw [step] at ok
      cases ok
    | ok next =>
      rw [step] at ok
      rw [h.follow step]
      exact ih ok

theorem resolve (h : Grows spots t t') (ok : t.resolve path = .ok loc) :
    t'.resolve path = .ok loc := by
  unfold FileTree.resolve at ok ⊢
  split at ok
  · cases ok
  · rw [locate_eq, FileTree.base] at ok ⊢
    rw [h.current]
    exact h.followAll ok

end Grows

theorem get?_put_self (t : FileTree) (loc : Location) (e : FileEntry) :
    (t.put loc e).get? loc = some e := FileEntry.get?_put_self ..

theorem directory_above {above : Location} {entries : List (String × FileEntry)}
    (found : t.get? dir = some (.directory entries)) (h : above <+: dir) :
    ∃ entries', t.get? above = some (.directory entries') := by
  obtain ⟨rest, rfl⟩ := h
  rw [FileTree.get?, FileEntry.get?_append] at found
  cases here : t.root.get? above with
  | none =>
    rw [here] at found
    cases found
  | some e =>
    cases e with
    | directory es => exact ⟨es, here⟩
    | file bytes =>
      rw [here] at found
      cases rest with
      | nil => simp at found
      | cons => simp at found

/-- Nothing stands below a location that holds no directory. -/
theorem eq_of_below {spot : Location} {x : FileEntry}
    (free : ∀ entries, t.get? spot ≠ some (.directory entries)) (here : t.get? loc = some x)
    (below : spot <+: loc) : loc = spot := by
  obtain ⟨rest, rfl⟩ := below
  cases rest with
  | nil => simp
  | cons name rest =>
    rw [FileTree.get?, FileEntry.get?_append] at here
    cases at_ : t.root.get? spot with
    | none =>
      rw [at_] at here
      cases here
    | some x' =>
      cases x' with
      | directory entries => exact absurd at_ (free entries)
      | file bytes => simp [at_] at here

section
variable {entries : List (String × FileEntry)} {e : FileEntry}

theorem get?_put_of_ne (found : t.get? dir = some (.directory entries))
    (free : ∀ entries', t.get? (dir ++ [name]) ≠ some (.directory entries')) {x : FileEntry}
    (here : t.get? loc = some x) (other : loc ≠ dir ++ [name]) :
    (t.put (dir ++ [name]) e).get? loc = some x ∨ (∃ entries', x = .directory entries') ∧
      ∃ entries', (t.put (dir ++ [name]) e).get? loc = some (.directory entries') := by
  by_cases above : loc <+: dir ++ [name]
  · have above' : loc <+: dir := (List.prefix_concat_iff.mp above).resolve_left other
    obtain ⟨entries', here'⟩ := directory_above found above'
    refine .inr ⟨⟨entries', Option.some.inj (here.symm.trans here')⟩, ?_⟩
    obtain ⟨rest, eq⟩ := above'
    obtain ⟨first, rest', eq'⟩ := List.exists_cons_of_ne_nil (l := rest ++ [name]) (by simp)
    rw [← eq, List.append_assoc, eq']
    exact FileEntry.get?_put_above ..
  · have below : ¬dir ++ [name] <+: loc := fun below => other (eq_of_below free here below)
    refine .inl ?_
    rw [FileTree.put, FileTree.get?, FileEntry.get?_put_of_apart _ _ above below]
    exact here

theorem get?_of_get?_put (bare : e.entries = []) {bytes : ByteArray}
    (here : (t.put (dir ++ [name]) e).get? loc = some (.file bytes)) (other : loc ≠ dir ++ [name]) :
    t.get? loc = some (.file bytes) := by
  by_cases above : loc <+: dir ++ [name]
  · obtain ⟨rest, eq⟩ := (List.prefix_concat_iff.mp above).resolve_left other
    obtain ⟨first, rest', eq'⟩ := List.exists_cons_of_ne_nil (l := rest ++ [name]) (by simp)
    obtain ⟨entries', dir_⟩ := FileEntry.get?_put_above t.root e loc first rest'
    rw [← eq, List.append_assoc, eq', FileTree.put, FileTree.get?] at here
    rw [here] at dir_
    cases dir_
  by_cases below : dir ++ [name] <+: loc
  · obtain ⟨rest, rfl⟩ := below
    obtain ⟨first, rest', rfl⟩ := List.exists_cons_of_ne_nil (l := rest) (by simpa using other)
    rw [FileTree.put, FileTree.get?, FileEntry.get?_append, FileEntry.get?_put_self] at here
    simp [FileEntry.get?_cons, bare] at here
  · rwa [FileTree.put, FileTree.get?, FileEntry.get?_put_of_apart _ _ above below] at here

theorem grows_put (found : t.get? dir = some (.directory entries)) (bare : e.entries = [])
    (free : ∀ entries', t.get? (dir ++ [name]) ≠ some (.directory entries'))
    (file : ∀ bytes, t.get? (dir ++ [name]) = some (.file bytes) → ∃ bytes', e = .file bytes') :
    Grows (· = dir ++ [name]) t (t.put (dir ++ [name]) e) := by
  refine ⟨rfl, fun {loc entries'} here => ?_, fun {loc bytes} here => ?_,
    fun {loc bytes} here apart => ?_, get?_of_get?_put bare⟩
  · have other : loc ≠ dir ++ [name] := fun eq => free entries' (eq ▸ here)
    rcases get?_put_of_ne found free here other with still | ⟨_, still⟩
    · exact ⟨_, still⟩
    · exact still
  · by_cases other : loc = dir ++ [name]
    · subst other
      obtain ⟨bytes', rfl⟩ := file bytes here
      exact ⟨bytes', get?_put_self ..⟩
    · rcases get?_put_of_ne found free here other with still | ⟨⟨_, eq⟩, _⟩
      · exact ⟨_, still⟩
      · cases eq
  · rcases get?_put_of_ne found free here apart with still | ⟨⟨_, eq⟩, _⟩
    · exact still
    · cases eq

end

theorem partsBefore_eq (some_ : path ≠ "") (h : path.endsWith "/" = false) :
    partsBefore path = Path.parts path := by
  have last := Path.getLast_parts_ne some_ h
  rw [partsBefore, ← List.dropLast_concat_getLast (Path.parts_ne_nil path)]
  simp [last]

theorem split_ok (h : t.split path = .ok (dir, name)) :
    (t.base path ++ (partsBefore path).dropLast).foldlM t.follow [] = .ok dir ∧
      (partsBefore path).getLast?.getD "" = name ∧
      ∃ entries, t.get? dir = some (.directory entries) := by
  have walked := Holds.root.walk (t := t) (t.base path ++ (partsBefore path).dropLast)
  simp only [split, FileTree.walk] at h
  cases eq : (t.base path ++ (partsBefore path).dropLast).foldlM Place.step { entry := t.root } with
  | error e =>
    rw [eq] at h
    cases h
  | ok place =>
    rw [eq] at h walked
    have here := (walked.2 place rfl).get?
    obtain ⟨entry, above⟩ := place
    cases entry with
    | file bytes => cases h
    | directory entries =>
      obtain ⟨rfl, rfl⟩ := Prod.mk.inj (Except.ok.inj h)
      exact ⟨walked.1.symm, rfl, entries, here⟩

theorem ne_empty_of_fault? (h : fault? path = none) : path ≠ "" := by
  rintro rfl
  simp [fault?] at h

theorem writeText_inv {text : String} (h : t.writeText path text = .ok t') :
    ∃ dir name, fault? path = none ∧ t.split path = .ok (dir, name) ∧
      path.endsWith "/" = false ∧ isDots name = false ∧ Place.isLong name = false ∧
      (∀ entries, t.get? (dir ++ [name]) ≠ some (.directory entries)) ∧
      t' = t.put (dir ++ [name]) (.file text.toUTF8) := by
  unfold writeText at h
  split at h
  · cases h
  split at h
  · cases h
  rename_i sound _ dir name eq
  split at h
  · cases h
  rename_i plain
  split at h
  · cases h
  rename_i short
  simp only [Bool.or_eq_true, not_or, Bool.not_eq_true] at plain short
  refine ⟨dir, name, sound, eq, plain.1, plain.2, short, fun entries here => ?_, ?_⟩
  · rw [here] at h
    cases h
  · split at h
    · cases h
    · exact (Except.ok.inj h).symm

/-- A text that was written can be read where its path leads. -/
theorem writeText_ok {text : String} (h : t.writeText path text = .ok t') :
    ∃ spot, t'.resolve path = .ok spot ∧ t'.get? spot = some (.file text.toUTF8) ∧
      isDots ((Path.parts path).getLast (Path.parts_ne_nil path)) = false ∧
      Grows (· = spot) t t' := by
  obtain ⟨dir, name, sound, eq, separator, dots, short, free, rfl⟩ := writeText_inv h
  obtain ⟨walked, last, entries, found⟩ := split_ok eq
  rw [partsBefore_eq (ne_empty_of_fault? sound) separator] at walked last
  rw [List.getLast?_eq_some_getLast (Path.parts_ne_nil path), Option.getD_some] at last
  have grows : Grows (· = dir ++ [name]) t (t.put (dir ++ [name]) (.file text.toUTF8)) :=
    grows_put found rfl free fun _ _ => ⟨_, rfl⟩
  refine ⟨dir ++ [name], ?_, get?_put_self .., last ▸ dots, grows⟩
  obtain ⟨entries', found'⟩ := grows.directory found
  have listed : ((t.put (dir ++ [name]) (.file text.toUTF8)).get? (dir ++ [name])).isSome := by
    rw [get?_put_self]
    rfl
  rw [resolve, sound]
  simp only [locate_eq]
  rw [← List.dropLast_concat_getLast (Path.parts_ne_nil path), last, ← List.append_assoc, base,
    grows.current, ← base]
  exact followAll_concat (grows.followAll walked) (follow_name found' dots short listed)

theorem makeDirectory_ok (h : t.makeDirectory path = .ok t') : Grows (fun _ => False) t t' := by
  unfold makeDirectory at h
  split at h
  · cases h
  split at h
  · cases h
  rename_i dir name eq
  split at h
  · cases h
  rename_i new
  split at h
  · cases h
  obtain rfl := Except.ok.inj h
  obtain ⟨_, _, entries, found⟩ := split_ok eq
  simp only [Bool.or_eq_true, not_or, Option.not_isSome_iff_eq_none] at new
  have grows : Grows (· = dir ++ [name]) t (t.put (dir ++ [name]) (.directory [])) := by
    refine grows_put found rfl ?_ ?_ <;> simp [new.2]
  refine ⟨grows.current, grows.directory, grows.file, fun {loc bytes} here _ => grows.kept here ?_,
    fun {loc bytes} here _ => grows.old here ?_⟩
  · rintro rfl
    rw [new.2] at here
    cases here
  · rintro rfl
    rw [get?_put_self] at here
    cases here

theorem grows_makeFrom (t : FileTree) (paths : List String) :
    Grows (fun _ => False) t (t.makeFrom paths).1 := by
  induction paths generalizing t with
  | nil => exact .refl _ t
  | cons path above ih =>
    rw [makeFrom]
    split
    · exact .refl _ t
    split
    · rename_i made
      exact makeDirectory_ok made
    · have first := ih t
      split
      · rename_i eq
        rwa [eq] at first
      · rename_i eq
        rw [eq] at first
        split
        · rename_i made
          exact first.trans (makeDirectory_ok made)
        · exact first
    · exact .refl _ t

end FileTree

end BrightScript
