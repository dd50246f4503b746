import BrightScript.Proofs.Files.Tree

/-! Paths that stay below a directory.
By its parts alone a path leads to a location: names go down, `..` goes up and idle parts stay. A
path stays below a directory if no `..` in it goes up further than the names before it went down,
and so does the rest of a path below a directory that it lies in by its components. -/
namespace BrightScript

variable {path part : String} {names ps : List String}

namespace Path

variable {name ext : String}

/-- A part that names something in a directory. -/
def IsName (part : String) : Prop := '/' ∉ part.toList ∧ isIdle part = false ∧ part ≠ ".."

instance (part : String) : Decidable (IsName part) := inferInstanceAs (Decidable (_ ∧ _))

/-- Where a component leads from some names below a directory, unless out of that directory. -/
def down (names : List String) : Component → Option (List String)
  | .root => none
  | .current => some names
  | .parent => if names = [] then none else some names.dropLast
  | .name name => some (names ++ [name])

def descent? (cs : List Component) : Option (List String) := cs.foldlM down []

/-- Written as a path below `base` that does not leave it. -/
def Inside (base path : String) : Prop :=
  ∃ rest, components path = components base ++ rest ∧ (descent? rest).isSome

def Trimmed (path : String) : Prop :=
  isIdle ((parts path).getLast (parts_ne_nil path)) = false ∨ path ∈ ["", ".", "/"]

theorem component_name : component part = .name name ↔ part ≠ ".." ∧ part = name := by
  unfold component
  split <;> simp_all

theorem components_eq (path : String) : components path =
    (head path).components ++ ((parts path).filter (!isIdle ·)).map component := by
  unfold components body head
  split <;> simp_all [isIdle]

theorem parts_eq_basis (base : String) :
    parts base = basis base ∨ parts base = basis base ++ [""] := by
  unfold basis
  split
  · rename_i h
    rcases h with rfl | ends
    · exact .inr rfl
    · obtain ⟨front, rfl⟩ := exists_of_endsWith ends
      rw [parts_slash, List.dropLast_concat]
      exact .inr rfl
  · exact .inl rfl

theorem filter_basis (base : String) :
    (basis base).filter (!isIdle ·) = (parts base).filter (!isIdle ·) := by
  rcases parts_eq_basis base with eq | eq <;> rw [eq]
  simp [isIdle]

theorem parts_name (h : IsName name) : parts name = [name] := by
  rw [parts, splitSlash_of_not_mem h.1]
  simp

theorem parts_join_name (base : String) (h : IsName name) :
    parts (join base name) = basis base ++ [name] := by
  have relative : isAbsolute name = false :=
    isAbsolute_of_not_idle fun part mem => by simp_all [parts_name h, h.2.1]
  rw [parts_join relative, parts_name h]

theorem head_of_parts {first : String} {rest : List String} (eq : parts path = first :: rest) :
    head path =
      if first = "" ∧ rest ≠ [] then .root else if first = "." then .current else .none := by
  rw [head, eq]
  cases rest <;> split <;> simp_all

theorem head_join (base : String) (h : IsName name) : head (join base name) = head base := by
  have joined := parts_join_name base h
  cases front : basis base with
  | nil =>
    have none : parts base = [""] := by
      have some_ := parts_ne_nil base
      rcases parts_eq_basis base with eq | eq <;> simp_all
    have named := h.2.1
    rw [front] at joined
    rw [head_of_parts joined, head_of_parts none]
    simp_all [isIdle]
  | cons first rest =>
    rw [front, List.cons_append] at joined
    rw [head_of_parts joined]
    rcases parts_eq_basis base with eq | eq
    · have more : first = "" → rest ≠ [] := by
        rintro rfl rfl
        rw [front] at eq
        have empty : base = "" := parts_injective (eq.trans (show [""] = parts "" from rfl))
        simp [empty, basis, parts, splitSlash] at front
      rw [head_of_parts (eq.trans front)]
      by_cases empty : first = "" <;> simp [empty, more]
    · rw [front, List.cons_append] at eq
      rw [head_of_parts eq]
      simp

theorem components_join (base : String) (h : IsName name) :
    components (join base name) = components base ++ [.name name] := by
  have last : component name = .name name := component_name.mpr ⟨h.2.2, rfl⟩
  rw [components_eq, components_eq, head_join base h, parts_join_name base h, List.filter_append,
    filter_basis, List.map_append, List.append_assoc]
  simp [h.2.1, last]

theorem components_foldl_join (base : String) (h : ∀ name ∈ names, IsName name) :
    components (names.foldl join base) = components base ++ names.map .name := by
  induction names generalizing base with
  | nil => simp
  | cons name rest ih =>
    rw [List.forall_mem_cons] at h
    rw [List.foldl_cons, ih _ h.2, components_join base h.1, List.map_cons, List.append_assoc]
    rfl

/-- What stands before the first separator of a path with this head. -/
def Head.parts : Head → List String
  | root => [""]
  | current => ["."]
  | none => []

theorem parts_build (h : Head) (some_ : ps ≠ []) (free : ∀ part ∈ ps, '/' ∉ part.toList) :
    parts (build h ps) = h.parts ++ ps := by
  have rest := parts_intercalate some_ free
  cases h with
  | root =>
    have text : build .root ps = "" ++ "/" ++ "/".intercalate ps := by simp [build]
    rw [text, parts_append_slash, rest]
    rfl
  | current =>
    have text : build .current ps = "." ++ "/" ++ "/".intercalate ps := by
      cases ps with
      | nil => exact absurd rfl some_
      | cons => rfl
    rw [text, parts_append_slash, rest]
    rfl
  | none => exact rest

theorem components_build (h : Head) (free : ∀ part ∈ ps, '/' ∉ part.toList)
    (first : h = .none → ∀ part ∈ ps.head?, isIdle part = false) :
    components (build h ps) = h.components ++ (ps.filter (!isIdle ·)).map component := by
  cases ps with
  | nil => cases h <;> decide
  | cons part rest =>
    have eq := parts_build h (List.cons_ne_nil part rest) free
    rw [components_eq]
    cases h with
    | root => rw [head_of_parts eq, eq]; simp [Head.parts, isIdle]
    | current => rw [head_of_parts eq, eq]; simp [Head.parts, isIdle]
    | none =>
      have named := first rfl part rfl
      rw [head_of_parts eq, eq]
      simp_all [Head.parts, isIdle]

theorem filter_dropWhile_idle (ps : List String) :
    (ps.dropWhile isIdle).filter (!isIdle ·) = ps.filter (!isIdle ·) := by
  induction ps with
  | nil => rfl
  | cons part rest ih => by_cases idle : isIdle part <;> simp_all

theorem head_dropWhile_idle (ps : List String) :
    ∀ part ∈ (ps.dropWhile isIdle).head?, isIdle part = false := by
  intro part mem
  have found := List.head?_dropWhile_not isIdle ps
  rw [Option.mem_def.mp mem] at found
  simpa using found

theorem filter_trimRight (ps : List String) :
    (trimRight ps).filter (!isIdle ·) = ps.filter (!isIdle ·) := by
  rw [trimRight, List.filter_reverse, filter_dropWhile_idle, List.filter_reverse,
    List.reverse_reverse]

theorem trimRight_isPrefix (ps : List String) : trimRight ps <+: ps := by
  rw [trimRight, ← List.reverse_suffix, List.reverse_reverse]
  exact List.dropWhile_suffix _

theorem last_trimRight (ps : List String) :
    ∀ part ∈ (trimRight ps).getLast?, isIdle part = false := by
  rw [trimRight, List.getLast?_reverse]
  exact head_dropWhile_idle _

theorem trimmed_build (h : Head) (free : ∀ part ∈ ps, '/' ∉ part.toList) :
    Trimmed (build h (trimRight ps)) := by
  cases eq : trimRight ps with
  | nil => right; cases h <;> decide
  | cons first rest =>
    left
    have free' : ∀ part ∈ first :: rest, '/' ∉ part.toList :=
      fun part mem => free part ((trimRight_isPrefix ps).subset (eq ▸ mem))
    have last := last_trimRight ps
    simp only [parts_build h (List.cons_ne_nil first rest) free']
    rw [List.getLast_append_of_ne_nil _ (List.cons_ne_nil _ _)]
    exact last _ (by rw [eq]; exact List.getLast?_eq_some_getLast (List.cons_ne_nil _ _))

theorem filter_dropParts (n : Nat) (ps : List String) :
    (dropParts n ps).filter (!isIdle ·) = (ps.filter (!isIdle ·)).drop n := by
  fun_induction dropParts n ps with
  | case1 ps => exact filter_dropWhile_idle ps
  | case2 n => simp
  | case3 n part rest idle ih => simp [ih, idle]
  | case4 n part rest idle ih => simp [ih, idle]

theorem head_dropParts (n : Nat) (ps : List String) :
    ∀ part ∈ (dropParts n ps).head?, isIdle part = false := by
  fun_induction dropParts n ps with
  | case1 ps => exact head_dropWhile_idle ps
  | case2 n => simp
  | case3 n part rest idle ih => exact ih
  | case4 n part rest idle ih => exact ih

theorem dropParts_subset (n : Nat) (ps : List String) : dropParts n ps ⊆ ps := by
  fun_induction dropParts n ps with
  | case1 ps => exact (List.dropWhile_suffix _).subset
  | case2 n => simp
  | case3 n part rest idle ih => exact List.subset_cons_of_subset _ ih
  | case4 n part rest idle ih => exact List.subset_cons_of_subset _ ih

theorem mem_head?_of_trimRight (mem : part ∈ (trimRight ps).head?) : part ∈ ps.head? := by
  obtain ⟨inner, eq⟩ := List.head?_eq_some_iff.mp (Option.mem_def.mp mem)
  obtain ⟨after, whole⟩ := trimRight_isPrefix ps
  rw [← whole, eq]
  rfl

theorem head_trimRight (none : head path = .none) (mem : part ∈ (trimRight (body path)).head?) :
    isIdle part = false := by
  obtain ⟨inner, eq⟩ := List.head?_eq_some_iff.mp (Option.mem_def.mp mem)
  obtain ⟨after, whole⟩ := trimRight_isPrefix (body path)
  rw [eq, body, none, List.cons_append] at whole
  have front := head_of_parts whole.symm
  rw [none] at front
  have only : part = "" → inner = [] := by
    rintro rfl
    cases inner with
    | nil => rfl
    | cons next more => simp at front
  have last := last_trimRight (body path)
  rw [eq] at last
  by_cases empty : part = ""
  · obtain rfl := only empty
    exact last part rfl
  · by_cases point : part = "."
    · simp [point] at front
    · simp [isIdle, empty, point]

theorem stripPrefix?_eq {base : String} {rest : List Component}
    (eq : components path = components base ++ rest) :
    ∃ r, stripPrefix? path base = some r ∧ components r = rest ∧ Trimmed r := by
  have free : ∀ part ∈ body path, '/' ∉ part.toList := by
    intro part mem
    unfold body at mem
    split at mem
    · exact slash_not_mem_part mem
    · exact slash_not_mem_part (List.mem_of_mem_drop mem)
  have free' {ps : List String} (sub : ps ⊆ body path) :
      ∀ part ∈ trimRight ps, '/' ∉ part.toList := fun part mem =>
    free part (sub ((trimRight_isPrefix ps).subset mem))
  rw [stripPrefix?, if_pos (by simp [eq])]
  split
  · rename_i none
    refine ⟨_, rfl, ?_, trimmed_build _ free⟩
    rw [components_build _ (free' (List.Subset.refl _)) fun h part mem => head_trimRight h mem,
      filter_trimRight, ← components, eq, none, List.nil_append]
  · rename_i some_
    refine ⟨_, rfl, ?_, trimmed_build _ fun part mem => free part (dropParts_subset _ _ mem)⟩
    have first : ∀ part ∈ (trimRight (dropParts ((components base).length -
        (head path).components.length) (body path))).head?, isIdle part = false := by
      intro part mem
      exact head_dropParts _ _ part (mem_head?_of_trimRight mem)
    have short : (head path).components.length ≤ (components base).length := by
      have one : (head path).components.length ≤ 1 := by cases head path <;> decide
      have more := List.length_pos_iff.mpr some_
      omega
    rw [components_build _ (free' (dropParts_subset _ _)) fun _ => first, filter_trimRight,
      filter_dropParts]
    have dropped := congrArg (List.drop (components base).length) eq
    rw [List.drop_left, components.eq_def path, List.drop_append, List.drop_eq_nil_of_le short]
      at dropped
    simpa [Head.components, List.map_drop] using dropped

theorem isAbsolute_of_descent (eq : descent? (components path) = some names) :
    isAbsolute path = false := by
  have split := (List.dropLast_concat_getLast (parts_ne_nil path)).symm
  rw [← Bool.not_eq_true]
  intro absolute
  obtain ⟨rest, first⟩ := List.head?_eq_some_iff.mp ((isAbsolute_concat split).mp absolute)
  have root : head path = .root := by
    rw [first] at split
    rw [head_of_parts split]
    simp
  rw [components, root] at eq
  cases eq

theorem descent?_names {cs : List Component} (eq : descent? cs = some names) (more : List String) :
    descent? (cs ++ more.map .name) = some (names ++ more) := by
  rw [descent?, List.foldlM_append, ← descent?, eq]
  change (more.map Component.name).foldlM down names = some (names ++ more)
  clear eq
  induction more generalizing names with
  | nil => simp
  | cons name more ih =>
    rw [List.map_cons, List.foldlM_cons]
    change (more.map Component.name).foldlM down (names ++ [name]) = _
    rw [ih, List.append_assoc]
    rfl

theorem components_concat {a b : String} {dirs : List String} {last : String}
    (ha : parts a = dirs ++ [name]) (hb : parts b = dirs ++ [last]) (named : isIdle name = false)
    (named' : isIdle last = false) :
    ∃ cs, components a = cs ++ [component name] ∧ components b = cs ++ [component last] := by
  have heads : head a = head b := by
    cases dirs with
    | nil =>
      rw [head_of_parts ha, head_of_parts hb]
      simp_all [isIdle]
    | cons first rest =>
      rw [head_of_parts ha, head_of_parts hb]
      simp
  refine ⟨(head a).components ++ (dirs.filter (!isIdle ·)).map component, ?_, ?_⟩
  · rw [components_eq, ha]
    simp [named]
  · rw [components_eq, hb, heads]
    simp [named']

theorem splitName_of_isDots (dots : FileTree.isDots name = true) :
    (splitName name).1 ∈ ["", "."] := by
  simp only [FileTree.isDots, isIdle, Bool.or_eq_true, decide_eq_true_eq] at dots
  rcases dots with (rfl | rfl) | rfl <;> decide

theorem splitName_ne_empty (some_ : name ≠ "") : (splitName name).1 ≠ "" := by
  rcases splitName_cases name with whole | ⟨before, old, more, point, rfl⟩
  · rwa [whole]
  · rwa [splitName_append more point]

theorem isDots_eq_false : FileTree.isDots name = false ↔ isIdle name = false ∧ name ≠ ".." := by
  simp [FileTree.isDots]

theorem isDots_renamed (h : (splitName name).1 ∉ ["", "."]) (long : 1 < ext.length) :
    FileTree.isDots (renamed name ext) = false := by
  refine isDots_eq_false.mpr ⟨isIdle_renamed name long, fun eq => ?_⟩
  have size := @length_renamed name ext (by simp_all)
  rw [eq] at size
  have dots : "..".length = 2 := rfl
  have some_ : (splitName name).1.length ≠ 0 := by simp_all
  omega

theorem descent?_withExtension (eq : descent? (components path) = some names)
    (h : (stem path).2 ∉ ["", "."]) (slash : '/' ∉ ext.toList) (long : 1 < ext.length) :
    ∃ names', names' ≠ [] ∧ descent? (components (withExtension path ext)) = some names' := by
  simp only [stem] at h
  have named := isDots_eq_false.mp (Bool.not_eq_true _ ▸ mt splitName_of_isDots h)
  have split := (List.dropLast_concat_getLast (parts_ne_nil path)).symm
  have split' := parts_withExtension (isAbsolute_of_descent eq) split named slash
  have named' := isDots_eq_false.mp (isDots_renamed h long)
  obtain ⟨cs, old, new⟩ := components_concat split split' named.1 named'.1
  rw [old, descent?, List.foldlM_append] at eq
  obtain ⟨front, descends, -⟩ := Option.bind_eq_some_iff.mp eq
  rw [new, component_name.mpr ⟨named'.2, rfl⟩]
  exact ⟨_, List.concat_ne_nil _ _, descent?_names descends [_]⟩

theorem withExtension_of_fileName? (none : fileName? path = none) (ext : String) :
    withExtension path ext = path := by
  simp [withExtension, extension?, setExtension, none]

theorem isDots_withExtension (trimmed : Trimmed path) (relative : isAbsolute path = false)
    (slash : '/' ∉ ext.toList) (dots : (stem path).2 ∈ ["", "."]) :
    isAbsolute (withExtension path ext) = false ∧
      FileTree.isDots ((parts (withExtension path ext)).getLast (parts_ne_nil _)) = true := by
  have split := (List.dropLast_concat_getLast (parts_ne_nil path)).symm
  rcases trimmed with last | short
  · by_cases up : (parts path).getLast (parts_ne_nil path) = ".."
    · obtain ⟨inner, trimmed, -⟩ := body_concat relative split last
      have none : fileName? path = none := by
        rw [fileName?, trimmed, List.getLast?_concat, up]
        rfl
      simp only [withExtension_of_fileName? none, relative, up]
      decide
    · have some_ : (parts path).getLast (parts_ne_nil path) ≠ "" := fun empty => by
        rw [empty] at last
        cases last
      have point : (stem path).2 = "." := by
        simpa [stem, splitName_ne_empty some_] using dots
      have eq := parts_withExtension relative split ⟨last, up⟩ slash
      simp only [stem] at point
      rw [renamed, if_pos point] at eq
      refine ⟨?_, by simp only [eq, List.getLast_concat]; rfl⟩
      rw [← Bool.not_eq_true, isAbsolute_concat eq, ← isAbsolute_concat split, relative]
      simp
  · simp only [List.mem_cons, List.not_mem_nil, or_false] at short
    have none : fileName? path = none := by rcases short with rfl | rfl | rfl <;> decide
    simp only [withExtension_of_fileName? none, relative]
    rcases short with rfl | rfl | rfl <;> exact ⟨trivial, rfl⟩

end Path

namespace FileTree

variable {t : FileTree} {loc : Location}

/-- Where a part leads from a location, whatever stands there. -/
def enter (loc : Location) (part : String) : Location :=
  if Path.isIdle part then loc else if part = ".." then loc.dropLast else loc ++ [part]

/-- The location that the parts of a path lead to, whether there is something or not. -/
def aim (t : FileTree) (path : String) : Location :=
  (t.base path ++ Path.parts path).foldl enter []

/-- Below a directory, by the parts of the paths. -/
def Below (t : FileTree) (dir path : String) : Prop :=
  ∃ names, names ≠ [] ∧ t.aim path = t.aim dir ++ names

theorem follow_eq_enter {loc' : Location} (ok : t.follow loc part = .ok loc') :
    loc' = enter loc part := by
  unfold follow at ok
  unfold enter
  split at ok
  · split at ok
    · rw [if_pos ‹_›, Except.ok.inj ok]
    rw [if_neg ‹_›]
    split at ok
    · rw [if_pos ‹_›, Except.ok.inj ok]
    rw [if_neg ‹_›]
    split at ok
    · cases ok
    split at ok
    · exact (Except.ok.inj ok).symm
    · cases ok
  · cases ok

theorem followAll_eq_enter {loc' : Location} {parts : List String}
    (ok : parts.foldlM t.follow loc = .ok loc') : loc' = parts.foldl enter loc := by
  induction parts generalizing loc with
  | nil => exact (Except.ok.inj ok).symm
  | cons part rest ih =>
    rw [List.foldlM_cons] at ok
    cases step : t.follow loc part with
    | error e =>
      rw [step] at ok
      cases ok
    | ok next =>
      rw [step] at ok
      rw [ih ok, List.foldl_cons, follow_eq_enter step]

/-- A path that can be followed leads where its parts lead. -/
theorem resolve_eq_aim (ok : t.resolve path = .ok loc) : loc = t.aim path := by
  rw [resolve] at ok
  split at ok
  · cases ok
  · rw [locate_eq] at ok
    exact followAll_eq_enter ok

theorem enterAll_filter (parts : List String) (loc : Location) :
    parts.foldl enter loc = (parts.filter (!Path.isIdle ·)).foldl enter loc := by
  induction parts generalizing loc with
  | nil => rfl
  | cons part rest ih => by_cases idle : Path.isIdle part <;> simp [enter, idle, ih]

theorem aim_join (t : FileTree) (dir : String) (relative : Path.isAbsolute path = false) :
    t.aim (Path.join dir path) = (Path.parts path).foldl enter (t.aim dir) := by
  rw [aim, aim, base, Path.isAbsolute_join relative, ← base, Path.parts_join relative,
    ← List.append_assoc, List.foldl_append, List.foldl_append, List.foldl_append,
    enterAll_filter (Path.basis dir), Path.filter_basis, ← enterAll_filter]

theorem enterAll_down {names' : List String} (loc : Location)
    (named : ∀ part ∈ ps, Path.isIdle part = false)
    (eq : (ps.map Path.component).foldlM Path.down names = some names') :
    ps.foldl enter (loc ++ names) = loc ++ names' := by
  induction ps generalizing names with
  | nil => rw [List.foldl_nil, Option.some.inj eq]
  | cons part rest ih =>
    rw [List.forall_mem_cons] at named
    rw [List.map_cons, List.foldlM_cons] at eq
    obtain ⟨next, step, later⟩ := Option.bind_eq_some_iff.mp eq
    rw [List.foldl_cons, ← ih named.2 later]
    congr 1
    by_cases up : part = ".."
    · subst up
      by_cases none : names = []
      · simp [Path.component, Path.down, none] at step
      · simp only [Path.component, if_true, Path.down, none, if_false, Option.some.injEq] at step
        subst step
        simp [enter, Path.isIdle, List.dropLast_append_of_ne_nil none]
    · simp only [Path.component, up, if_false, Path.down, Option.some.injEq] at step
      subst step
      simp [enter, named.1, up]

/-- A path that stays below a directory leads there. -/
theorem enterAll_descent (loc : Location) (eq : Path.descent? (Path.components path) = some names) :
    (Path.parts path).foldl enter loc = loc ++ names := by
  rw [Path.components_eq, Path.descent?, List.foldlM_append] at eq
  obtain ⟨start, front, rest⟩ := Option.bind_eq_some_iff.mp eq
  obtain rfl : start = [] := by
    cases head : Path.head path <;> rw [head] at front
    · cases front
    · exact (Option.some.inj front).symm
    · exact (Option.some.inj front).symm
  rw [enterAll_filter, ← enterAll_down loc (by simp) rest, List.append_nil]

end FileTree
end BrightScript
