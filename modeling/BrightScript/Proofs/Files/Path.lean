import BrightScript.Files.Path

/-! Paths by their parts.
A path can be put together again from the parts between its slashes. A plain path is relative and
has no part that is empty or `.`, so its components are its parts, and two plain paths are the same
path only if they are spelled the same. -/
namespace BrightScript.Path

variable {name path base before ext : String} {dirs : List String} {text : List Char}

attribute [grind =] splitSlash

theorem splitSlash_ne_nil (text : List Char) : splitSlash text ≠ [] := by
  cases text with
  | nil => simp [splitSlash]
  | cons c cs =>
    rw [splitSlash]
    split
    · simp
    · split <;> simp

theorem intercalate_splitSlash (text : List Char) :
    List.intercalate ['/'] (splitSlash text) = text := by
  induction text with
  | nil => rfl
  | cons c cs ih =>
    rw [splitSlash]
    obtain ⟨part, rest, split_eq⟩ := List.exists_cons_of_ne_nil (splitSlash_ne_nil cs)
    rw [split_eq] at ih ⊢
    split
    · rename_i slash
      rw [List.intercalate_cons_cons, ih, slash]
      rfl
    · cases rest with
      | nil => simpa using ih
      | cons next rest =>
        rw [List.intercalate_cons_cons] at ih ⊢
        simpa using ih

theorem slash_not_mem_splitSlash {part : List Char} (mem : part ∈ splitSlash text) :
    '/' ∉ part := by
  induction text generalizing part with
  | nil =>
    obtain rfl : part = [] := by simpa [splitSlash] using mem
    simp
  | cons c cs ih =>
    rw [splitSlash] at mem
    obtain ⟨first, rest, split_eq⟩ := List.exists_cons_of_ne_nil (splitSlash_ne_nil cs)
    rw [split_eq] at ih mem
    split at mem
    · rcases List.mem_cons.mp mem with rfl | mem
      · simp
      · exact ih mem
    · rename_i other
      rcases List.mem_cons.mp mem with rfl | mem
      · simpa using ⟨Ne.symm other, ih List.mem_cons_self⟩
      · exact ih (List.mem_cons_of_mem _ mem)

theorem splitSlash_of_not_mem (h : '/' ∉ text) : splitSlash text = [text] := by
  induction text with
  | nil => rfl
  | cons c cs ih =>
    simp only [List.mem_cons, not_or] at h
    rw [splitSlash, if_neg (Ne.symm h.1), ih h.2]

theorem splitSlash_append (text rest : List Char) :
    splitSlash (text ++ '/' :: rest) = splitSlash text ++ splitSlash rest := by
  induction text with
  | nil => simp [splitSlash]
  | cons c cs ih =>
    rw [List.cons_append, splitSlash, splitSlash, ih]
    obtain ⟨part, parts, split_eq⟩ := List.exists_cons_of_ne_nil (splitSlash_ne_nil cs)
    rw [split_eq]
    split <;> rfl

theorem splitSlash_intercalate {parts : List (List Char)} (some_ : parts ≠ [])
    (h : ∀ part ∈ parts, '/' ∉ part) : splitSlash (List.intercalate ['/'] parts) = parts := by
  induction parts with
  | nil => exact absurd rfl some_
  | cons part rest ih =>
    cases rest with
    | nil => simpa using splitSlash_of_not_mem (h part List.mem_cons_self)
    | cons next rest =>
      rw [List.intercalate_cons_cons, List.append_assoc, List.singleton_append,
        splitSlash_append, splitSlash_of_not_mem (h part List.mem_cons_self),
        ih (by simp) fun p mem => h p (List.mem_cons_of_mem _ mem)]
      rfl

theorem slash_suffix_of_getLast? (h : (splitSlash text).getLast? = some []) :
    text = [] ∨ ['/'] <:+ text := by
  induction text with
  | nil => exact .inl rfl
  | cons c cs ih =>
    refine .inr ?_
    rw [splitSlash] at h
    obtain ⟨part, rest, split_eq⟩ := List.exists_cons_of_ne_nil (splitSlash_ne_nil cs)
    rw [split_eq] at ih h
    split at h
    · rename_i slash
      rw [List.getLast?_cons_cons] at h
      rcases ih h with rfl | behind
      · exact slash ▸ List.suffix_refl ['/']
      · exact behind.trans (List.suffix_cons c cs)
    · cases rest with
      | nil => simp at h
      | cons next rest =>
        rcases ih (by rwa [List.getLast?_cons_cons] at h ⊢) with rfl | behind
        · simp [splitSlash] at split_eq
        · exact behind.trans (List.suffix_cons c cs)

theorem parts_ne_nil (path : String) : parts path ≠ [] := by
  simp [parts, splitSlash_ne_nil]

theorem intercalate_parts (path : String) : "/".intercalate (parts path) = path := by
  have back : (parts path).map String.toList = splitSlash path.toList := by
    simp [parts, Function.comp_def]
  have slash : "/".toList = ['/'] := rfl
  rw [← String.toList_inj, String.toList_intercalate, back, slash, intercalate_splitSlash]

theorem parts_injective {a b : String} (h : parts a = parts b) : a = b := by
  rw [← intercalate_parts a, h, intercalate_parts]

theorem getLast_parts_ne (some_ : path ≠ "") (h : path.endsWith "/" = false) :
    (parts path).getLast (parts_ne_nil path) ≠ "" := by
  intro last
  have last' : (splitSlash path.toList).getLast? = some [] := by
    have eq : (parts path).getLast? = some "" := by rw [← last, List.getLast?_eq_some_getLast]
    rw [parts, List.getLast?_map, Option.map_eq_some_iff] at eq
    obtain ⟨chars, found, empty⟩ := eq
    rw [found, show chars = [] by simpa using empty]
  rcases slash_suffix_of_getLast? last' with none | behind
  · exact some_ (by simpa using none)
  · have ends : path.endsWith "/" = true := by
      rw [String.endsWith, String.Slice.endsWith_string_iff]
      simpa using behind
    rw [h] at ends
    cases ends

theorem slash_not_mem_part {part : String} (mem : part ∈ parts path) : '/' ∉ part.toList := by
  obtain ⟨chars, listed, rfl⟩ := List.mem_map.mp mem
  simpa using slash_not_mem_splitSlash listed

theorem parts_intercalate {ps : List String} (some_ : ps ≠ [])
    (h : ∀ part ∈ ps, '/' ∉ part.toList) : parts ("/".intercalate ps) = ps := by
  have slash : "/".toList = ['/'] := rfl
  have split_eq : splitSlash ("/".intercalate ps).toList = ps.map String.toList := by
    rw [String.toList_intercalate, slash]
    refine splitSlash_intercalate (by simpa using some_) fun part mem => ?_
    obtain ⟨p, listed, rfl⟩ := List.mem_map.mp mem
    exact h p listed
  rw [parts, split_eq]
  simp

theorem parts_append_slash (a b : String) : parts (a ++ "/" ++ b) = parts a ++ parts b := by
  have chars : (a ++ "/" ++ b).toList = a.toList ++ '/' :: b.toList := by simp
  rw [parts, chars, splitSlash_append, List.map_append]
  rfl

/-- Relative, with no backslash and with no part that is empty or `.`; the empty path has no parts
at all. -/
def Plain (path : String) : Prop :=
  '\\' ∉ path.toList ∧ (path = "" ∨ ∀ part ∈ parts path, isIdle part = false)

instance (path : String) : Decidable (Plain path) :=
  inferInstanceAs (Decidable (_ ∧ _))

theorem head_of_not_idle (h : ∀ part ∈ parts path, isIdle part = false) : head path = .none := by
  unfold head
  split
  · rename_i eq
    have idle := h "" (by rw [eq]; exact List.mem_cons_self)
    simp [isIdle] at idle
  · rename_i eq
    have idle := h "." (by rw [eq]; exact List.mem_cons_self)
    simp [isIdle] at idle
  · rfl

theorem component_injective {a b : String} (h : component a = component b) : a = b := by
  unfold component at h
  split at h <;> split at h <;> simp_all

theorem components_of_not_idle (h : ∀ part ∈ parts path, isIdle part = false) :
    components path = (parts path).map component := by
  have all : (parts path).filter (!isIdle ·) = parts path :=
    List.filter_eq_self.mpr fun part mem => by simp [h part mem]
  simp [components, body, head_of_not_idle h, Head.components, all]

theorem eq_of_same_of_not_idle {a b : String} (ha : ∀ part ∈ parts a, isIdle part = false)
    (hb : ∀ part ∈ parts b, isIdle part = false) (h : same a b = true) : a = b := by
  have eq := of_decide_eq_true h
  rw [components_of_not_idle ha, components_of_not_idle hb] at eq
  exact parts_injective ((List.map_inj_right fun _ _ => component_injective).mp eq)

theorem isAbsolute_of_not_idle (h : ∀ part ∈ parts path, isIdle part = false) :
    isAbsolute path = false := by
  rw [← Bool.not_eq_true, isAbsolute, String.startsWith_string_iff]
  rintro ⟨rest, text⟩
  have first : parts path = "" :: (splitSlash rest).map String.ofList := by
    rw [parts, ← text]
    rfl
  have idle := h "" (first ▸ List.mem_cons_self)
  simp [isIdle] at idle

@[simp] theorem components_empty : components "" = [] := by decide

namespace Plain

theorem eq_of_same {a b : String} (ha : Plain a) (hb : Plain b) (h : same a b = true) : a = b := by
  have eq := of_decide_eq_true h
  rcases ha.2 with rfl | na <;> rcases hb.2 with rfl | nb
  · rfl
  · rw [components_empty, components_of_not_idle nb] at eq
    exact absurd (List.map_eq_nil_iff.mp eq.symm) (parts_ne_nil b)
  · rw [components_empty, components_of_not_idle na] at eq
    exact absurd (List.map_eq_nil_iff.mp eq) (parts_ne_nil a)
  · exact eq_of_same_of_not_idle na nb h

theorem same_iff {a b : String} (ha : Plain a) (hb : Plain b) : same a b = true ↔ a = b :=
  ⟨ha.eq_of_same hb, fun h => by simp [same, h]⟩

theorem isAbsolute_eq_false (h : Plain path) : isAbsolute path = false := by
  rcases h.2 with rfl | inner
  · decide
  · exact isAbsolute_of_not_idle inner

theorem join_injective {a b : String} (ha : Plain a) (hb : Plain b)
    (h : join base a = join base b) :
    a = b := by
  simp only [join, ha.isAbsolute_eq_false, hb.isAbsolute_eq_false, Bool.false_or,
    decide_eq_true_eq] at h
  split at h
  · exact h
  · split at h <;> simpa [String.ext_iff] using h

end Plain

/-- Relative, and made of names only. -/
def Within (path : String) : Prop := ∀ part ∈ parts path, isIdle part = false ∧ part ≠ ".."

instance (path : String) : Decidable (Within path) :=
  inferInstanceAs (Decidable (∀ part ∈ parts path, _))

/-- The directories of a path, and its last name without the extension. -/
def stem (path : String) : List String × String :=
  ((parts path).dropLast, (splitName ((parts path).getLast (parts_ne_nil path))).1)

theorem splitName_of_reverse {after before : List Char}
    (eq : name.toList.reverse = after ++ '.' :: before) (h : '.' ∉ after) :
    splitName name = if before.isEmpty then (name, none)
      else (String.ofList before.reverse, some (String.ofList after.reverse)) := by
  have taken : (after ++ '.' :: before).takeWhile (· ≠ '.') = after := by
    rw [List.takeWhile_append_of_pos fun c mem => by simpa using ne_of_mem_of_not_mem mem h]
    simp
  have dropped : (after ++ '.' :: before).drop (after.length + 1) = before := by
    rw [List.drop_append]
    simp
  simp only [splitName, eq, taken, dropped, List.isEmpty_reverse]

theorem splitName_append {after : String} (some_ : before ≠ "") (h : '.' ∉ after.toList) :
    splitName (before ++ "." ++ after) = (before, some after) := by
  have chars : (before ++ "." ++ after).toList.reverse =
      after.toList.reverse ++ '.' :: before.toList.reverse := by simp
  rw [splitName_of_reverse chars (by simpa using h)]
  simp [some_]

theorem splitName_cases (name : String) : splitName name = (name, none) ∨
    ∃ before after, before ≠ "" ∧ '.' ∉ after.toList ∧ name = before ++ "." ++ after := by
  by_cases point : '.' ∈ name.toList.reverse
  · obtain ⟨after, before, eq, free⟩ := List.eq_append_cons_of_mem point
    cases before with
    | nil =>
      rw [splitName_of_reverse eq free]
      exact .inl rfl
    | cons c cs =>
      refine .inr ⟨.ofList (c :: cs).reverse, .ofList after.reverse, by simp,
        by simpa using free, ?_⟩
      have back := congrArg List.reverse eq
      rw [List.reverse_reverse] at back
      simp [← String.toList_inj, back]
  · have all : name.toList.reverse.takeWhile (· ≠ '.') = name.toList.reverse := by
      rw [← List.append_nil name.toList.reverse, List.takeWhile_append_of_pos fun c mem => by
        simpa using ne_of_mem_of_not_mem mem point]
      rfl
    simp only [splitName, all]
    simp

/-- What a name becomes with another extension. A name such as `..bs` has only the point before
its extension, and is no name any more without it. -/
def renamed (name ext : String) : String :=
  if (splitName name).1 = "." then ".." else (splitName name).1 ++ "." ++ ext

theorem trimRight_concat (body : List String) (named : isIdle name = false) :
    trimRight (body ++ [name]) = body ++ [name] := by
  simp [trimRight, named]

theorem isAbsolute_concat (eq : parts path = dirs ++ [name]) :
    isAbsolute path = true ↔ dirs.head? = some "" := by
  rw [isAbsolute, String.startsWith_string_iff]
  constructor
  · rintro ⟨rest, text⟩
    have first : parts path = "" :: (splitSlash rest).map String.ofList := by
      rw [parts, ← text]
      rfl
    have more := splitSlash_ne_nil rest
    cases dirs with
    | nil => simp_all
    | cons dir dirs => simp_all
  · intro first
    obtain ⟨inner, rfl⟩ := List.head?_eq_some_iff.mp first
    obtain ⟨next, rest, split⟩ := List.exists_cons_of_ne_nil (l := inner ++ [name]) (by simp)
    rw [← intercalate_parts path, eq, List.cons_append, split, String.intercalate_cons_cons]
    exact ⟨("/".intercalate (next :: rest)).toList, by simp⟩

theorem body_concat (relative : isAbsolute path = false) (eq : parts path = dirs ++ [name])
    (named : isIdle name = false) :
    ∃ inner, trimRight (body path) = inner ++ [name] ∧ ∀ last : String, '/' ∉ last.toList →
      parts (build (head path) (inner ++ [last])) = dirs ++ [last] := by
  have free : ∀ part ∈ dirs, '/' ∉ part.toList := fun part mem =>
    slash_not_mem_part (eq ▸ List.mem_append_left _ mem : part ∈ parts path)
  have rejoin {inner : List String} (sub : inner ⊆ dirs) {last : String} (h : '/' ∉ last.toList) :
      parts ("/".intercalate (inner ++ [last])) = inner ++ [last] := by
    refine parts_intercalate (by simp) fun part mem => ?_
    rcases List.mem_append.mp mem with dir | only
    · exact free part (sub dir)
    · exact List.mem_singleton.mp only ▸ h
  by_cases dot : dirs.head? = some "."
  · obtain ⟨inner, rfl⟩ : ∃ inner, dirs = "." :: inner := by
      cases dirs <;> simp_all
    have current : head path = .current := by rw [head, eq]; rfl
    refine ⟨inner, ?_, fun last h => ?_⟩
    · rw [body, current, eq]
      exact trimRight_concat inner named
    · have text : build .current (inner ++ [last]) =
          "." ++ "/" ++ "/".intercalate (inner ++ [last]) := by
        cases inner <;> rfl
      rw [current, text, parts_append_slash, rejoin (List.subset_cons_self _ _) h]
      rfl
  · have none : head path = .none := by
      unfold head
      split
      · rename_i absolute
        rw [eq] at absolute
        have first : dirs.head? = some "" := by cases dirs <;> simp_all
        rw [(isAbsolute_concat eq).mpr first] at relative
        cases relative
      · rename_i first
        rw [eq] at first
        cases dirs <;> simp_all [isIdle]
      · rfl
    refine ⟨dirs, ?_, fun last h => ?_⟩
    · rw [body, none, eq]
      exact trimRight_concat dirs named
    · rw [none, build]
      exact rejoin (List.Subset.refl _) h

theorem mem_of_mem_splitName {c : Char} (mem : c ∈ (splitName name).1.toList) :
    c ∈ name.toList := by
  rcases splitName_cases name with whole | ⟨before, after, some_, point, rfl⟩
  · rwa [whole] at mem
  · rw [splitName_append some_ point] at mem
    simp [mem]

theorem parts_setExtension (relative : isAbsolute path = false) (eq : parts path = dirs ++ [name])
    (named : isIdle name = false) (slash : '/' ∉ ext.toList) :
    parts (setExtension path ext) =
      dirs ++ [if name = ".." then ".." else (splitName name).1 ++ "." ++ ext] := by
  obtain ⟨inner, trimmed, rebuild⟩ := body_concat relative eq named
  rw [setExtension, fileName?, trimmed, List.getLast?_concat, List.dropLast_concat]
  by_cases dots : name = ".."
  · simp [dots, Option.filter, eq]
  · simp only [Option.filter, dots, ne_eq, not_false_eq_true, decide_true, if_true, if_false]
    refine rebuild _ ?_
    have free : '/' ∉ name.toList :=
      slash_not_mem_part (eq ▸ List.mem_concat_self : name ∈ parts path)
    have stem : '/' ∉ (splitName name).1.toList := fun inside => free (mem_of_mem_splitName inside)
    simp [stem, slash]

theorem intercalate_concat_append (dirs : List String) (a b : String) :
    "/".intercalate (dirs ++ [a ++ b]) = "/".intercalate (dirs ++ [a]) ++ b := by
  rw [← String.toList_inj, String.toList_append, String.toList_intercalate,
    String.toList_intercalate]
  induction dirs with
  | nil => simp
  | cons dir dirs ih =>
    obtain ⟨first, rest, eq⟩ := List.exists_cons_of_ne_nil (l := dirs ++ [a ++ b]) (by simp)
    obtain ⟨first', rest', eq'⟩ := List.exists_cons_of_ne_nil (l := dirs ++ [a]) (by simp)
    rw [eq, eq'] at ih
    rw [List.cons_append, List.cons_append, eq, eq', List.map_cons, List.map_cons, List.map_cons,
      List.map_cons, List.intercalate_cons_cons, List.intercalate_cons_cons, ← List.map_cons,
      ← List.map_cons, ih]
    simp

theorem ofList_take_append (a b : String) :
    String.ofList ((a ++ b).toList.take ((a ++ b).length - b.length)) = a := by
  rw [String.length_append, Nat.add_sub_cancel, String.toList_append, ← String.length_toList,
    List.take_left, String.ofList_toList]

theorem isIdle_point (some_ : before ≠ "") : isIdle (before ++ ".") = false := by
  simp only [isIdle, Bool.or_eq_false_iff, decide_eq_false_iff_not]
  refine ⟨fun eq => ?_, fun eq => some_ ?_⟩
  · have := congrArg String.length eq
    simp at this
  · have := congrArg String.length eq
    simpa using this

theorem point_eq_dots : before ++ "." = ".." ↔ before = "." := by
  have two : ".." = "." ++ "." := rfl
  rw [two, ← String.toList_inj, ← String.toList_inj, String.toList_append, String.toList_append]
  exact List.append_left_inj _

theorem parts_withExtension (relative : isAbsolute path = false) (eq : parts path = dirs ++ [name])
    (named : isIdle name = false ∧ name ≠ "..") (slash : '/' ∉ ext.toList) :
    parts (withExtension path ext) = dirs ++ [renamed name ext] := by
  have extension : extension? path = (splitName name).2 := by
    obtain ⟨inner, trimmed, -⟩ := body_concat relative eq named.1
    rw [extension?, fileName?, trimmed, List.getLast?_concat, Option.filter,
      if_pos (by simpa using named.2)]
    rfl
  rw [withExtension, extension, renamed]
  rcases splitName_cases name with whole | ⟨before, old, some_, point, rfl⟩
  · have no_dot : name ≠ "." := by
      rintro rfl
      simp [isIdle] at named
    rw [whole, if_neg no_dot]
    simp only [parts_setExtension relative eq named.1 slash, if_neg named.2, whole]
  · -- without the old extension the last name ends with its point
    have free : ∀ part ∈ dirs ++ [before ++ "."], '/' ∉ part.toList := by
      have free' : ∀ part ∈ dirs ++ [before ++ "." ++ old], '/' ∉ part.toList := fun part mem =>
        slash_not_mem_part (eq ▸ mem : part ∈ parts path)
      simp only [List.mem_append, List.mem_singleton] at free' ⊢
      rintro part (dir | rfl)
      · exact free' part (.inl dir)
      · have last := free' _ (.inr rfl)
        simp only [String.toList_append, List.mem_append, not_or] at last ⊢
        exact last.1
    have shorter : parts ("/".intercalate (dirs ++ [before ++ "."])) = dirs ++ [before ++ "."] :=
      parts_intercalate (by simp) free
    have relative' : isAbsolute ("/".intercalate (dirs ++ [before ++ "."])) = false := by
      rw [← Bool.not_eq_true, isAbsolute_concat shorter, ← isAbsolute_concat eq, relative]
      simp
    have empty : splitName (before ++ ".") = (before, some "") := by
      have cut := @splitName_append before "" some_ (by simp)
      rwa [String.append_empty] at cut
    have path_eq : path = "/".intercalate (dirs ++ [before ++ "."]) ++ old := by
      rw [← intercalate_concat_append, ← eq, intercalate_parts]
    rw [splitName_append some_ point]
    simp only
    rw [path_eq, ofList_take_append,
      parts_setExtension relative' shorter (isIdle_point some_) slash, empty]
    simp only [point_eq_dots]

theorem Within.parts_withExtension (within : Within path) (slash : '/' ∉ ext.toList) :
    parts (withExtension path ext) =
      (parts path).dropLast ++ [renamed ((parts path).getLast (parts_ne_nil path)) ext] :=
  Path.parts_withExtension (isAbsolute_of_not_idle fun part mem => (within part mem).1)
    (List.dropLast_concat_getLast (parts_ne_nil path)).symm
    (within _ (List.getLast_mem (parts_ne_nil path))) slash

theorem length_renamed (h : (splitName name).1 ≠ ".") :
    (renamed name ext).length = (splitName name).1.length + 1 + ext.length := by
  rw [renamed, if_neg h, String.length_append, String.length_append]
  rfl

theorem isIdle_renamed (name : String) (long : 1 < ext.length) :
    isIdle (renamed name ext) = false := by
  by_cases h : (splitName name).1 = "."
  · rw [renamed, if_pos h]
    rfl
  · have size := @length_renamed name ext h
    have empty : "".length = 0 := rfl
    have point : ".".length = 1 := rfl
    simp only [isIdle, Bool.or_eq_false_iff, decide_eq_false_iff_not]
    refine ⟨fun eq => ?_, fun eq => ?_⟩ <;>
    · rw [eq] at size
      omega

theorem renamed_eq_iff {a b : String} (long : 1 < ext.length) :
    renamed a ext = renamed b ext ↔ (splitName a).1 = (splitName b).1 := by
  have dots : "..".length = 2 := rfl
  by_cases ha : (splitName a).1 = "." <;> by_cases hb : (splitName b).1 = "."
  · simp [renamed, ha, hb]
  · have size := @length_renamed b ext hb
    refine ⟨fun eq => ?_, fun eq => absurd (eq.symm.trans ha) hb⟩
    rw [← eq, renamed, if_pos ha] at size
    omega
  · have size := @length_renamed a ext ha
    refine ⟨fun eq => ?_, fun eq => absurd (eq.trans hb) ha⟩
    rw [eq, renamed, if_pos hb] at size
    omega
  · rw [renamed, renamed, if_neg ha, if_neg hb, ← String.toList_inj, ← String.toList_inj]
    simp

theorem not_idle_withExtension (within : Within path) (slash : '/' ∉ ext.toList)
    (long : 1 < ext.length) : ∀ part ∈ parts (withExtension path ext), isIdle part = false := by
  rw [within.parts_withExtension slash]
  intro part mem
  rcases List.mem_append.mp mem with dir | last
  · exact (within part (List.dropLast_subset _ dir)).1
  · rw [List.mem_singleton.mp last]
    exact isIdle_renamed _ long

theorem withExtension_eq_iff {a b : String} (ha : Within a) (hb : Within b)
    (slash : '/' ∉ ext.toList) (long : 1 < ext.length) :
    withExtension a ext = withExtension b ext ↔ stem a = stem b := by
  have eqA := ha.parts_withExtension slash
  have eqB := hb.parts_withExtension slash
  rw [stem, stem, Prod.mk.injEq, ← renamed_eq_iff long]
  constructor
  · intro eq
    rw [eq, eqB] at eqA
    obtain ⟨dirs, last⟩ := List.append_inj' eqA (by simp)
    exact ⟨dirs.symm, (List.singleton_inj.mp last).symm⟩
  · rintro ⟨dirs, last⟩
    apply parts_injective
    rw [eqA, eqB, dirs, last]

/-- What the parts of a path below `base` begin with. -/
def basis (base : String) : List String :=
  if base = "" ∨ base.endsWith "/" then (parts base).dropLast else parts base

theorem exists_of_endsWith (ends : base.endsWith "/" = true) : ∃ front, base = front ++ "/" := by
  rw [String.endsWith, String.Slice.endsWith_string_iff] at ends
  obtain ⟨front, eq⟩ := ends
  refine ⟨String.ofList front, ?_⟩
  rw [← String.toList_inj]
  simpa using eq.symm

theorem parts_slash (front : String) : parts (front ++ "/") = parts front ++ [""] := by
  rw [← String.append_empty (s := front ++ "/"), parts_append_slash]
  rfl

theorem parts_join (relative : isAbsolute path = false) :
    parts (join base path) = basis base ++ parts path := by
  rw [join, relative, Bool.false_or, basis]
  by_cases none : base = ""
  · subst none
    rfl
  · simp only [none, decide_false, Bool.false_eq_true, if_false, false_or]
    split
    · rename_i ends
      obtain ⟨front, rfl⟩ := exists_of_endsWith ends
      rw [parts_append_slash, parts_slash, List.dropLast_concat]
    · exact parts_append_slash base path

theorem isAbsolute_iff : isAbsolute path = true ↔ path.toList.head? = some '/' := by
  rw [isAbsolute, String.startsWith_string_iff]
  cases path.toList <;> simp [List.cons_prefix_cons, eq_comm]

theorem isAbsolute_join (relative : isAbsolute path = false) :
    isAbsolute (join base path) = isAbsolute base := by
  rw [Bool.eq_iff_iff, isAbsolute_iff, isAbsolute_iff, join, relative, Bool.false_or]
  by_cases none : base = ""
  · subst none
    simpa using mt isAbsolute_iff.mpr (by simp [relative])
  · have some_ : base.toList ≠ [] := by simpa using none
    simp only [none, decide_false, Bool.false_eq_true, if_false]
    split <;> simp [List.head?_append, List.head?_eq_some_head some_]

end BrightScript.Path
