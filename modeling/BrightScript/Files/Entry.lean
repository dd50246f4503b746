import BrightScript.Table

/-! Files and directories with all that stands in them. -/
namespace BrightScript

inductive FileEntry where
  | file (bytes : ByteArray)
  | directory (entries : List (String × FileEntry))

/-- The names from the root down to a file or a directory. -/
abbrev Location := List String

namespace FileEntry

/- Nothing stands in a file. -/
def entries : FileEntry → List (String × FileEntry)
  | file _ => []
  | directory entries => entries

/-- The entry at a location, seen from here. -/
def get? : FileEntry → Location → Option FileEntry
  | e, [] => some e
  | e, name :: rest =>
    match e.entries.lookup name with
    | some e => e.get? rest
    | none => none

/-- Puts an entry in together with the directories above it that are missing. -/
def put : FileEntry → Location → FileEntry → FileEntry
  | _, [], entry => entry
  | e, name :: rest, entry =>
    let below := (e.entries.lookup name).getD (directory [])
    directory (Table.put e.entries name (below.put rest entry))

mutual
/-- The entry and everything below it, with the locations seen from here. -/
def all : FileEntry → List (Location × FileEntry)
  | file bytes => [([], file bytes)]
  | directory entries => ([], directory entries) :: allIn entries

def allIn : List (String × FileEntry) → List (Location × FileEntry)
  | [] => []
  | (name, e) :: rest => e.all.map (fun x => (name :: x.1, x.2)) ++ allIn rest
end

theorem self_mem_all (e : FileEntry) : ([], e) ∈ e.all := by
  cases e <;> simp [all]

theorem mem_allIn {entries : List (String × FileEntry)} {name : String} {e x : FileEntry}
    {at_ : Location} (listed : (name, e) ∈ entries) (below : (at_, x) ∈ e.all) :
    (name :: at_, x) ∈ allIn entries := by
  induction entries with
  | nil => simp at listed
  | cons first rest ih =>
    rw [allIn]
    rcases List.mem_cons.1 listed with rfl | listed
    · exact List.mem_append_left _ (List.mem_map_of_mem below)
    · exact List.mem_append_right _ (ih listed)

theorem mem_all {e x : FileEntry} {at_ : Location} (found : e.get? at_ = some x) :
    (at_, x) ∈ e.all := by
  induction at_ generalizing e with
  | nil =>
    obtain rfl : e = x := by simpa [get?] using found
    exact e.self_mem_all
  | cons name rest ih =>
    cases e with
    | file => simp [get?, entries] at found
    | directory entries =>
      cases listed : entries.lookup name with
      | none => simp [get?, FileEntry.entries, listed] at found
      | some e =>
        have deeper : e.get? rest = some x := by
          simpa [get?, FileEntry.entries, listed] using found
        obtain ⟨before, after, split, _⟩ := List.lookup_eq_some_iff.1 listed
        have mem : (name, e) ∈ entries := by simp [split]
        rw [all]
        exact List.mem_cons_of_mem _ (mem_allIn mem (ih deeper))

end FileEntry

end BrightScript
