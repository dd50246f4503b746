import BrightScript.Proofs.Program.Compile

/-! Reports under full paths.
Reports are hidden by the names that they have below the root, and sorted by the names that they are
shown under. Relative paths keep their order when the root is put in front of them, so the option
only changes what is shown. -/
namespace BrightScript

namespace Path

/-- What stands in front of a relative path below `base`. -/
def front (base : String) : String :=
  if base = "" then "" else if base.endsWith "/" then base else base ++ "/"

theorem join_eq_front {base path : String} (relative : isAbsolute path = false) :
    join base path = front base ++ path := by
  rw [join, relative, Bool.false_or, front]
  by_cases none : base = ""
  · simp [none]
  · simp only [none, decide_false, Bool.false_eq_true, if_false]
    split <;> rfl

theorem append_lt_append (front : String) {a b : String} : front ++ a < front ++ b ↔ a < b := by
  change (front ++ a).toList < (front ++ b).toList ↔ a.toList < b.toList
  rw [String.toList_append, String.toList_append]
  induction front.toList with
  | nil => rfl
  | cons c cs ih => simp [ih]

end Path

/-- A report under the path of its file from `base` on. -/
def Diagnostic.below (base : String) (d : Diagnostic) : Diagnostic :=
  { d with file := d.file.map (Path.join base) }

theorem Diagnostic.le_below {base f g : String} {a b : Diagnostic} (ha : a.file = some f)
    (hb : b.file = some g) (relative : Path.isAbsolute f = false)
    (relative' : Path.isAbsolute g = false) : le a b = le (a.below base) (b.below base) := by
  have same : Path.front base ++ f = Path.front base ++ g ↔ f = g := by simp [String.ext_iff]
  simp only [le, below, fileLE, ha, hb, Option.map_some, Option.some.injEq,
    Path.join_eq_front relative, Path.join_eq_front relative', same, Path.append_lt_append]

namespace Program

def withFullPaths (p : Program) (full : Bool) : Program :=
  { p with config := { p.config with fullPaths := full } }

/-- With relative paths, full paths only put the root in front of the names: the same is reported,
in the same order. -/
theorem compile_fullPaths (p : Program)
    (relative : ∀ s ∈ p.sources, Path.isAbsolute s.path = false ∧ '\\' ∉ s.path.toList) :
    (p.withFullPaths true).compile =
      (p.withFullPaths false).compile.map (Diagnostic.below p.config.root) := by
  -- what is reported does not depend on how it is shown
  let reported := (p.sources.flatMap Source.diagnostics).filter p.config.isReported
  have full : (p.withFullPaths true).compile =
      Diagnostic.sorted (reported.map (Diagnostic.below p.config.root)) := rfl
  have short : (p.withFullPaths false).compile = Diagnostic.sorted reported :=
    congrArg Diagnostic.sorted (List.map_id reported)
  have files : ∀ d ∈ reported, ∃ f, d.file = some f ∧ Path.isAbsolute f = false := by
    intro d mem
    obtain ⟨s, listed, mem⟩ := List.mem_flatMap.mp (List.mem_filter.mp mem).1
    obtain ⟨d, -, rfl⟩ := List.mem_map.mp mem
    obtain ⟨inside, free⟩ := relative s listed
    exact ⟨s.name, rfl, (name_of_free free).symm ▸ inside⟩
  rw [full, short]
  refine (List.map_mergeSort fun a mem b mem' => ?_).symm
  obtain ⟨f, ha, inside⟩ := files a mem
  obtain ⟨g, hb, inside'⟩ := files b mem'
  exact Diagnostic.le_below ha hb inside inside'

theorem compile_fullPaths_below :
    let p : Program := ⟨{ rootDir := some "src", filters := [.path "src/lib"] },
      [⟨"b.brs", "x ="⟩, ⟨"lib/a.brs", "("⟩, ⟨"a.bs", ")"⟩]⟩
    (∀ s ∈ p.sources, Path.isAbsolute s.path = false ∧ '\\' ∉ s.path.toList) ∧
      (p.withFullPaths true).compile =
        (p.withFullPaths false).compile.map (Diagnostic.below "src") := by
  intro p
  have plain : ∀ s ∈ p.sources, Path.Plain s.path := by decide
  have relative : ∀ s ∈ p.sources, Path.isAbsolute s.path = false ∧ '\\' ∉ s.path.toList :=
    fun s mem => ⟨(plain s mem).isAbsolute_eq_false, (plain s mem).1⟩
  exact ⟨relative, compile_fullPaths p relative⟩

end Program
end BrightScript
