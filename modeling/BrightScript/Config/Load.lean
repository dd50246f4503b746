import BrightScript.Config.Field
import BrightScript.Files.Tree

/-! Reading a project file and the files that it extends.
A file may take over the options of another one and set some of them anew. Paths in a file are
seen from the directory of that file. -/
namespace BrightScript

inductive ConfigError where
  | unreadable (path : String) (cause : FileError)
  | malformed (path : String) (fault : Json.Fault)
  | notObject (path : String)
  | cycle (path : String)
  deriving DecidableEq, Repr

namespace ConfigError

def message : ConfigError → String
  | unreadable path cause => "cannot read config file '" ++ path ++ "': " ++ cause.message
  | malformed path _ => "invalid config file '" ++ path ++ "'"
  | notObject path => "config file '" ++ path ++ "' must contain a JSON object"
  | cycle path => "circular 'extends' chain at '" ++ path ++ "'"

end ConfigError

namespace Config

def readFields (path text : String) : Except ConfigError (List (String × Json)) :=
  match Json.parse text with
  | .error fault => .error (.malformed path fault)
  | .ok j =>
    match j.lastFields with
    | .object fields => .ok fields
    | _ => .error (.notObject path)

def isPathField (key : String) : Bool :=
  ["rootDir", "stagingDir", "stagingFolderPath", "cwd"].contains key

def resolvePaths (dir : String) (fields : List (String × Json)) : List (String × Json) :=
  fields.map fun (key, value) =>
    match value with
    | .string path => (key, if isPathField key then .string (Path.join dir path) else value)
    | _ => (key, value)

def parent? (dir : String) (fields : List (String × Json)) : Option String :=
  match fields.lookup "extends" with
  | some (.string path) => some (Path.join dir path)
  | _ => none

/-- Own fields over those of the parent, whose `extends` has been followed already. -/
def override (own inherited : List (String × Json)) : List (String × Json) :=
  (own.filter (·.1 ≠ "extends")).foldl (fun fields f => Table.put fields f.1 f.2) inherited

def unvisited (t : FileTree) (visited : List Location) : List (Location × FileEntry) :=
  t.entries.filter (·.1 ∉ visited)

theorem filter_length_lt {α : Type} (p q : α → Bool) (l : List α) (le : ∀ a, q a = true → p a = true)
    (a : α) (mem : a ∈ l) (pa : p a = true) (qa : q a = false) :
    (l.filter q).length < (l.filter p).length := by
  induction l with
  | nil => simp at mem
  | cons b rest ih =>
    have mono : (rest.filter q).length ≤ (rest.filter p).length := by
      rw [← List.countP_eq_length_filter, ← List.countP_eq_length_filter]
      exact List.countP_mono_left fun x _ => le x
    rcases List.mem_cons.1 mem with rfl | mem
    · simp only [List.filter_cons, pa, qa]
      simp
      omega
    · have := ih mem
      cases hq : q b
      · cases hp : p b <;> simp [hq, hp] <;> omega
      · simp [hq, le b hq]
        omega

theorem unvisited_lt {t : FileTree} {visited : List Location} {at_ : Location} {text : String}
    (new : at_ ∉ visited) (read : t.readAt at_ = .ok text) :
    (unvisited t (at_ :: visited)).length < (unvisited t visited).length := by
  cases found : t.get? at_ with
  | none => simp [FileTree.readAt, found] at read
  | some entry =>
    have mem : (at_, entry) ∈ t.entries := FileEntry.mem_all found
    apply filter_length_lt _ _ _ _ _ mem
    · simpa using new
    · simp
    · intro e he
      simp only [List.mem_cons, not_or, decide_eq_true_eq] at he ⊢
      exact he.2

/- Every step reads a file that was not read before, so the chain ends. A file that comes again is
told from its place, however long the path to it. -/
def loadFields (t : FileTree) (visited : List Location) (path : String) :
    Except ConfigError (List (String × Json)) :=
  match t.locate path, FileTree.fault? path with
  | .error cause, fault => .error (.unreadable path (fault.getD cause))
  | .ok at_, fault =>
    if new : at_ ∈ visited then .error (.cycle path)
    else if let some cause := fault then .error (.unreadable path cause)
    else
      match read : t.readAt at_ with
      | .error cause => .error (.unreadable path cause)
      | .ok text =>
        have _fewer := unvisited_lt new read
        match readFields path text with
        | .error e => .error e
        | .ok fields =>
          let own := resolvePaths (Path.directory path) fields
          match parent? (Path.directory path) own with
          | none => .ok own
          | some parent =>
            match loadFields t (at_ :: visited) parent with
            | .error e => .error e
            | .ok inherited => .ok (override own inherited)
termination_by (unvisited t visited).length

def withRoot (path : String) (fields : List (String × Json)) : List (String × Json) :=
  if fields.any fun f => f.1 = "rootDir" || f.1 = "cwd" then fields
  else fields ++ [("rootDir", .string (Path.directory path))]

def load (t : FileTree) (path : String) : Except ConfigError Config :=
  match loadFields t [] path with
  | .error e => .error e
  | .ok fields =>
    match ofFields? (withRoot path fields) with
    | some c => .ok c
    | none => .error (.malformed path .mismatch)

end Config
end BrightScript
