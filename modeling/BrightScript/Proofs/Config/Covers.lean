import BrightScript.Config.Filter
import BrightScript.Proofs.Files.Path
import Mathlib.Data.List.DropRight

/-! Which files a path in a filter stands for.
A file is compared character by character, with a look at what follows. That comes to comparing the
names between the slashes one by one. -/
namespace BrightScript

theorem Path.splitSlash_injective {a b : List Char} (h : splitSlash a = splitSlash b) : a = b := by
  rw [← intercalate_splitSlash a, h, intercalate_splitSlash]

theorem Path.splitSlash_prefix_iff {short long : List Char} :
    splitSlash short <+: splitSlash long ↔ long = short ∨ ∃ rest, long = short ++ '/' :: rest := by
  constructor
  · rintro ⟨more, split⟩
    by_cases none : more = []
    · rw [none, List.append_nil] at split
      exact .inl (splitSlash_injective split.symm)
    · have names : ∀ part ∈ more, '/' ∉ part := fun part mem =>
        slash_not_mem_splitSlash (split ▸ List.mem_append_right _ mem)
      refine .inr ⟨['/'].intercalate more, splitSlash_injective ?_⟩
      rw [splitSlash_append, splitSlash_intercalate none names, split]
  · rintro (rfl | ⟨rest, rfl⟩)
    · exact List.prefix_refl _
    · exact splitSlash_append short rest ▸ List.prefix_append _ _

namespace Filter

/-- A path with `/` in the place of `\`, and then without one leading `./`. -/
def slashed (path : String) : List Char :=
  let chars := path.toList.map fun c => if c = '\\' then '/' else c
  if ['.', '/'] <+: chars then chars.drop 2 else chars

theorem normalize_eq (path : String) : normalize path = slashed path := by
  unfold normalize slashed
  split
  · rename_i rest eq
    simp [eq]
  · rename_i other
    refine (if_neg ?_).symm
    rintro ⟨rest, eq⟩
    exact other rest eq.symm

theorem covers_eq_true {pattern file : String} : covers pattern file = true ↔
    normalize file = trimSlashes (normalize pattern) ∨
      ∃ rest, normalize file = trimSlashes (normalize pattern) ++ '/' :: rest := by
  simp only [covers, Bool.and_eq_true, List.isPrefixOf_iff_prefix]
  constructor
  · rintro ⟨⟨rest, eq⟩, next⟩
    rw [← eq, List.drop_left] at next
    cases rest with
    | nil => exact .inl (by simpa using eq.symm)
    | cons c rest =>
      obtain rfl : c = '/' := by simpa using next
      exact .inr ⟨rest, eq.symm⟩
  · rintro (eq | ⟨rest, eq⟩) <;> simp [eq]

/-- A pattern stands for the files whose names begin with its own, one by one, where slashes at the
end of the pattern do not count. -/
theorem covers_iff_names (pattern file : String) : covers pattern file = true ↔
    Path.splitSlash ((slashed pattern).rdropWhile (· = '/')) <+: Path.splitSlash (slashed file) := by
  rw [covers_eq_true, Path.splitSlash_prefix_iff, normalize_eq, normalize_eq]
  rfl

-- a longer name is another name, and the pattern without names stands for no relative path
example : covers ".\\source/lib//" "source\\lib/a.brs" = true ∧
    covers "source/lib" "source/library.brs" = false ∧ covers "/" "a" = false := by decide

end Filter
end BrightScript
