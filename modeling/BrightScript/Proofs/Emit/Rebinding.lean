import BrightScript.Emit.Printer
import BrightScript.Proofs.Emit.Capture
import Mathlib.Logic.Function.Basic

/-! The variables of a branch function.
A branch begins by binding again what it reads, one assignment after the other, and each of them
reads the parameter `scope`. The assignments are run here in a frame that holds nothing else. A
variable that is itself called `scope` hides the parameter from the assignments after its own,
and this is the only way in which a branch can miss a value. -/
namespace BrightScript
namespace Emit

/-- `name = scope.name` -/
def rebind (x : Ident) : Stmt :=
  .assign x .equal (.dotted (.var ⟨"scope", x.range⟩) x x.range) x.range

def rebound (scope : Scope) (branch : Expr) : List Ident :=
  scope.idents.filter fun x => (Scope.collect [branch]).contains x.name

theorem render_rebinds (o : Options) (level line : Nat) (xs : List Ident) :
    render o.layout (bodyPieces o level line (xs.map rebind)) =
      render o.layout
        (xs.flatMap fun x => [.line level, .text x.name, .text " = scope.", .text x.name]) := by
  induction xs generalizing line with
  | nil => rfl
  | cons x rest ih =>
    have mark : " = scope." = " " ++ ("=" ++ (" " ++ ("scope" ++ "."))) := by decide
    have pieces : bodyPieces o level line ((x :: rest).map rebind) =
        [.line level, .text x.name, .text " ", .text "=", .text " ", .text "scope", .text ".",
          .text x.name] ++ bodyPieces o level (rebind x).range.stop.line (rest.map rebind) := rfl
    rw [pieces, render_append, ih, List.flatMap_cons, render_append]
    simp only [render_cons, render_nil, Piece.render, mark, String.append_assoc,
      String.append_empty]

theorem render_rebindPieces (o : Options) (level line : Nat) (scope : Scope) (branch : Expr) :
    render o.layout (rebindPieces level scope branch) =
      render o.layout (bodyPieces o level line ((rebound scope branch).map rebind)) := by
  rw [render_rebinds]
  rfl

end Emit

/- What variables hold. Only objects have members, which are found by their folded names. -/
inductive Datum where
  | plain (n : Nat)
  | object (members : List (String × Datum))

def Datum.member? : Datum → String → Option Datum
  | object members, name => members.lookup name.toLower
  | plain _, _ => none

/- A frame holds variables under their folded names. -/
abbrev Frame := String → Option Datum

namespace Frame

def get? (frame : Frame) (name : String) : Option Datum := frame name.toLower

def set (frame : Frame) (name : String) (value : Datum) : Frame :=
  Function.update frame name.toLower (some value)

/-- A variable, or members taken from one. -/
def read (frame : Frame) : Expr → Option Datum
  | .var x => frame.get? x.name
  | .dotted object x _ => (read frame object).bind (·.member? x.name)
  | _ => none

/-- Runs assignments in order; one that cannot read its value stops the run. -/
def run (frame : Frame) : List Stmt → Option Frame
  | [] => some frame
  | .assign x .equal value _ :: rest => (frame.read value).bind fun v => (frame.set x.name v).run rest
  | _ => none

/-- The frame in which a branch function starts. -/
def entry (carried : Datum) : Frame := Function.update (fun _ => none) "scope" (some carried)

end Frame

def Scope.carried (scope : Scope) (ρ : String → Datum) : Datum :=
  .object (scope.map fun entry => (entry.1, ρ entry.1))

theorem toLower_scope : "scope".toLower = "scope" := by decide +kernel

namespace Frame

@[simp] theorem get?_set_self (frame : Frame) (name : String) (value : Datum) :
    (frame.set name value).get? name = some value := by
  simp [get?, set]

theorem get?_set_of_ne {frame : Frame} {name other : String} {value : Datum}
    (h : other.toLower ≠ name.toLower) : (frame.set name value).get? other = frame.get? other := by
  simp [get?, set, Function.update_of_ne h]

theorem get?_scope_set {frame : Frame} {name : String} {value : Datum}
    (h : name.toLower ≠ "scope") : (frame.set name value).get? "scope" = frame.get? "scope" := by
  apply get?_set_of_ne
  rw [toLower_scope]
  exact h.symm

theorem get?_scope_entry (carried : Datum) : (entry carried).get? "scope" = some carried := by
  simp [get?, entry, toLower_scope]

theorem run_rebind (frame : Frame) (x : Ident) (rest : List Stmt) :
    frame.run (Emit.rebind x :: rest) =
      ((frame.get? "scope").bind (·.member? x.name)).bind fun v => (frame.set x.name v).run rest :=
  rfl

theorem get?_run_rebinds (xs : List Ident) (frame final : Frame) (name : String)
    (ran : frame.run (xs.map Emit.rebind) = some final)
    (other : ∀ x ∈ xs, name.toLower ≠ x.name.toLower) : final.get? name = frame.get? name := by
  induction xs generalizing frame with
  | nil => simp_all [run]
  | cons x rest ih =>
    rw [List.map_cons, run_rebind, Option.bind_eq_some_iff] at ran
    obtain ⟨v, _, ran⟩ := ran
    rw [ih _ ran fun y hy => other y (List.mem_cons_of_mem _ hy)]
    exact get?_set_of_ne (other x List.mem_cons_self)

/-- As long as no variable but the last hides the parameter, each gets its value. -/
theorem run_rebinds (ρ : String → Datum) (carried : Datum) (xs : List Ident) (frame : Frame)
    (holds : frame.get? "scope" = some carried)
    (members : ∀ x ∈ xs, carried.member? x.name = some (ρ x.name.toLower))
    (visible : ∀ x ∈ xs.dropLast, x.name.toLower ≠ "scope") :
    ∃ final, frame.run (xs.map Emit.rebind) = some final ∧
      ∀ x ∈ xs, final.get? x.name = some (ρ x.name.toLower) := by
  induction xs generalizing frame with
  | nil => exact ⟨frame, rfl, by simp⟩
  | cons x rest ih =>
    have value := members x List.mem_cons_self
    have step : frame.run ((x :: rest).map Emit.rebind) =
        (frame.set x.name (ρ x.name.toLower)).run (rest.map Emit.rebind) := by
      rw [List.map_cons, run_rebind, holds, Option.bind_some, value, Option.bind_some]
    rw [step]
    cases rest with
    | nil => exact ⟨_, rfl, by simp⟩
    | cons y rest =>
      have apart : x.name.toLower ≠ "scope" := visible x (by simp)
      have kept : (frame.set x.name (ρ x.name.toLower)).get? "scope" = some carried := by
        rw [get?_scope_set apart, holds]
      obtain ⟨final, ran, values⟩ := ih _ kept (fun z hz => members z (List.mem_cons_of_mem _ hz))
        fun z hz => visible z (by simp only [List.dropLast_cons_cons]; exact List.mem_cons_of_mem _ hz)
      refine ⟨final, ran, fun z hz => ?_⟩
      rcases List.mem_cons.mp hz with rfl | hz
      · by_cases again : ∃ w ∈ y :: rest, z.name.toLower = w.name.toLower
        · obtain ⟨w, hw, same⟩ := again
          have := values w hw
          simpa only [get?, same] using this
        · rw [get?_run_rebinds _ _ _ _ ran fun w hw same => again ⟨w, hw, same⟩, get?_set_self]
      · exact values z hz

theorem run_rebinds_of_plain (x : Ident) (xs : List Ident) (frame : Frame) (n : Nat)
    (holds : frame.get? "scope" = some (.plain n)) :
    frame.run ((x :: xs).map Emit.rebind) = none := by
  rw [List.map_cons, run_rebind, holds]
  rfl

theorem run_rebinds_of_hidden (carried : Datum) (n : Nat) (xs : List Ident) (frame : Frame)
    (holds : frame.get? "scope" = some carried)
    (members : ∀ x ∈ xs, carried.member? x.name = some (.plain n))
    (hidden : ∃ x ∈ xs.dropLast, x.name.toLower = "scope") :
    frame.run (xs.map Emit.rebind) = none := by
  induction xs generalizing frame with
  | nil => simp at hidden
  | cons x rest ih =>
    cases rest with
    | nil => simp at hidden
    | cons y rest =>
      have value := members x List.mem_cons_self
      rw [List.map_cons, run_rebind, holds, Option.bind_some, value, Option.bind_some]
      by_cases clash : x.name.toLower = "scope"
      · apply run_rebinds_of_plain y rest _ n
        simp [get?, set, clash, toLower_scope]
      · apply ih
        · rw [get?_scope_set clash, holds]
        · exact fun z hz => members z (List.mem_cons_of_mem _ hz)
        · simpa [clash] using hidden

end Frame

theorem Scope.member?_carried (scope : Scope) (ρ : String → Datum) (name : String)
    (known : name.toLower ∈ scope.keys) :
    (scope.carried ρ).member? name = some (ρ name.toLower) := by
  unfold carried Datum.member?
  induction scope with
  | nil => simp [keys] at known
  | cons entry rest ih =>
    by_cases same : name.toLower = entry.1
    · simp [same]
    · have different : (name.toLower == entry.1) = false := by simpa using same
      simp only [List.map_cons, List.lookup_cons, different]
      exact ih (by simpa [keys, same] using known)

namespace Emit

theorem mem_rebound {scope : Scope} {branch : Expr} {x : Ident} :
    x ∈ rebound scope branch ↔
      x ∈ scope.idents ∧ x.name.toLower ∈ (Scope.collect [branch]).keys := by
  simp [rebound, Scope.contains_iff]

theorem member?_of_mem_rebound {scope : Scope} (proper : scope.Proper) {branch : Expr} {x : Ident}
    (ρ : String → Datum) (h : x ∈ rebound scope branch) :
    (scope.carried ρ).member? x.name = some (ρ x.name.toLower) := by
  obtain ⟨entry, member, rfl⟩ := List.mem_map.mp (mem_rebound.mp h).1
  apply Scope.member?_carried
  rw [← proper.folded entry member]
  exact List.mem_map_of_mem member

theorem exists_rebound {test consequent alternate branch : Expr} {name : String}
    (h : branch = consequent ∨ branch = alternate)
    (read : (Scope.collect [branch]).contains name = true) :
    ∃ x ∈ rebound (Scope.collect [test, consequent, alternate]) branch,
      x.name.toLower = name.toLower := by
  have key := (Scope.contains_iff _ _).mp read
  have whole : name.toLower ∈ (Scope.collect [test, consequent, alternate]).keys := by
    rw [Scope.mem_keys_collect] at key ⊢
    obtain ⟨x, member, same⟩ := key
    refine ⟨x, ?_, same⟩
    rcases h with rfl | rfl <;> simp_all [exprsOccurrences]
  obtain ⟨entry, member, same⟩ := List.mem_map.mp whole
  have folded := (Scope.proper_collect _).folded entry member
  refine ⟨entry.2, mem_rebound.mpr ⟨List.mem_map_of_mem member, ?_⟩, ?_⟩
  · rwa [← folded, same]
  · rw [← folded, same]

/-- The branch functions of a conditional that passes its variables in an object. The lines before
the `return` are the text of the rebindings. For every environment they run to a frame that holds
each variable of the branch with its value, exactly if no rebinding comes after that of a variable
called `scope`. -/
theorem rebound_values_iff (o : Options) (level line : Nat)
    (test consequent alternate branch : Expr) (h : branch = consequent ∨ branch = alternate) :
    let scope := Scope.collect [test, consequent, alternate]
    let rebinds := (rebound scope branch).map rebind
    render o.layout (rebindPieces level scope branch) =
        render o.layout (bodyPieces o level line rebinds) ∧
      ((∀ ρ : String → Datum, ∃ frame, (Frame.entry (scope.carried ρ)).run rebinds = some frame ∧
          ∀ name, (Scope.collect [branch]).contains name = true →
            frame.get? name = some (ρ name.toLower)) ↔
        ∀ x ∈ (rebound scope branch).dropLast, x.name.toLower ≠ "scope") := by
  intro scope rebinds
  have proper : scope.Proper := Scope.proper_collect _
  refine ⟨render_rebindPieces o level line scope branch, ?_, ?_⟩
  · intro right x member clash
    obtain ⟨frame, ran, _⟩ := right fun _ => .plain 0
    have stuck := Frame.run_rebinds_of_hidden (scope.carried fun _ => .plain 0) 0
      (rebound scope branch) _ (Frame.get?_scope_entry _)
      (fun y hy => member?_of_mem_rebound proper _ hy) ⟨x, member, clash⟩
    rw [stuck] at ran
    contradiction
  · intro visible ρ
    obtain ⟨frame, ran, values⟩ := Frame.run_rebinds ρ (scope.carried ρ) (rebound scope branch) _
      (Frame.get?_scope_entry _) (fun y hy => member?_of_mem_rebound proper ρ hy) visible
    refine ⟨frame, ran, fun name read => ?_⟩
    obtain ⟨x, member, same⟩ := exists_rebound h read
    have value := values x member
    simpa only [Frame.get?, same] using value

/- `name.member` and `name(argument)`, for the two conditionals below. -/
private def memberOf (name member : String) : Expr :=
  .dotted (.var ⟨name, .empty .origin⟩) ⟨member, .empty .origin⟩ (.empty .origin)

private def callOf (name member argument : String) : Expr :=
  .call (memberOf name member) [.var ⟨argument, .empty .origin⟩] (.empty .origin)

/-- `user.ok ? scope.find(User) : user.name`: only the last rebinding hides the parameter. -/
theorem rebound_values_scope_last :
    let consequent := callOf "scope" "find" "User"
    let scope := Scope.collect [memberOf "user" "ok", consequent, memberOf "user" "name"]
    ∀ ρ : String → Datum, ∃ frame,
      (Frame.entry (scope.carried ρ)).run ((rebound scope consequent).map rebind) = some frame ∧
        ∀ name, (Scope.collect [consequent]).contains name = true →
          frame.get? name = some (ρ name.toLower) := by
  have lower : "user".toLower = "user" := by decide +kernel
  have upper : "User".toLower = "user" := by decide +kernel
  have names : rebound (Scope.collect [memberOf "user" "ok", callOf "scope" "find" "User",
      memberOf "user" "name"]) (callOf "scope" "find" "User") =
        [⟨"user", .empty .origin⟩, ⟨"scope", .empty .origin⟩] := by
    simp [rebound, Scope.collect, exprsCaptures, Expr.captures, memberOf, callOf, Scope.insert,
      Scope.contains, Scope.get?, Scope.idents, List.lookup_cons, lower, upper, toLower_scope]
  exact (rebound_values_iff {} 1 0 (memberOf "user" "ok") (callOf "scope" "find" "User")
    (memberOf "user" "name") _ (.inl rfl)).2.mpr (by simp [names, lower])

/-- `scope.ok ? scope.find(key) : scope.name`: the rebinding of `key` reads the user's `scope`. -/
theorem rebound_values_scope_hidden :
    let consequent := callOf "scope" "find" "key"
    let scope := Scope.collect [memberOf "scope" "ok", consequent, memberOf "scope" "name"]
    ¬ ∀ ρ : String → Datum, ∃ frame,
      (Frame.entry (scope.carried ρ)).run ((rebound scope consequent).map rebind) = some frame ∧
        ∀ name, (Scope.collect [consequent]).contains name = true →
          frame.get? name = some (ρ name.toLower) := by
  have key : "key".toLower = "key" := by decide +kernel
  have names : rebound (Scope.collect [memberOf "scope" "ok", callOf "scope" "find" "key",
      memberOf "scope" "name"]) (callOf "scope" "find" "key") =
        [⟨"scope", .empty .origin⟩, ⟨"key", .empty .origin⟩] := by
    simp [rebound, Scope.collect, exprsCaptures, Expr.captures, memberOf, callOf, Scope.insert,
      Scope.contains, Scope.get?, Scope.idents, List.lookup_cons, key, toLower_scope]
  intro consequent scope right
  obtain ⟨frame, ran, _⟩ := right fun _ => .plain 0
  have stuck := Frame.run_rebinds_of_hidden (scope.carried fun _ => .plain 0) 0
    (rebound scope consequent) _ (Frame.get?_scope_entry _)
    (fun y hy => member?_of_mem_rebound (Scope.proper_collect _) _ hy)
    ⟨⟨"scope", .empty .origin⟩, by simp [scope, consequent, names], toLower_scope⟩
  rw [stuck] at ran
  contradiction

/- Neither list holds a name twice, so it is enough that they hold the same ones. -/
theorem rebound_perm {test consequent alternate branch : Expr}
    (h : branch = consequent ∨ branch = alternate) :
    ((rebound (Scope.collect [test, consequent, alternate]) branch).map
      fun x => x.name.toLower).Perm (Scope.collect [branch]).keys := by
  have proper := Scope.proper_collect [test, consequent, alternate]
  refine (List.perm_ext_iff_of_nodup ?_ (Scope.proper_collect [branch]).nodup).mpr fun key => ?_
  · refine List.Nodup.sublist (List.Sublist.map _ List.filter_sublist) ?_
    rw [← proper.keys_eq]
    exact proper.nodup
  constructor
  · intro mem
    obtain ⟨x, found, rfl⟩ := List.mem_map.mp mem
    exact (mem_rebound.mp found).2
  · intro mem
    obtain ⟨entry, member, rfl⟩ := List.mem_map.mp mem
    have own := (Scope.proper_collect [branch]).folded entry member
    have read := (Scope.contains_iff (Scope.collect [branch]) entry.2.name).mpr (own ▸ mem)
    obtain ⟨x, found, same⟩ := @exists_rebound test consequent alternate branch _ h read
    exact List.mem_map.mpr ⟨x, found, same.trans own.symm⟩

/-- What is captured is the first occurrence of each variable, with its spelling and its place, and
a name is known if it occurs in any spelling. A branch of a conditional binds again, in the spelling
of the whole conditional, exactly the names that it captures alone, and each of them once. -/
theorem captures_first_occurrences (es : List Expr) :
    (Scope.collect es).idents = (exprsOccurrences es).eraseDupsBy Ident.same ∧
    (∀ name, (Scope.collect es).get? name =
      (exprsOccurrences es).find? fun x => Text.sameWord name x.name) ∧
    (∀ name, (Scope.collect es).contains name = true ↔
      ∃ x ∈ exprsOccurrences es, Text.sameWord name x.name = true) ∧
    ∀ test consequent alternate branch : Expr, branch = consequent ∨ branch = alternate →
      let scope := Scope.collect [test, consequent, alternate]
      ∃ names : List Ident, names.Sublist scope.idents ∧
        (∀ level, rebindPieces level scope branch = names.flatMap fun x =>
          [.line level, .text x.name, .text " = scope.", .text x.name]) ∧
        (names.map fun x => x.name.toLower).Perm
          ((Scope.collect [branch]).idents.map fun x => x.name.toLower) := by
  refine ⟨Scope.idents_collect es, Scope.get?_collect es, fun name => ?_, ?_⟩
  · rw [Scope.contains, Scope.get?_collect, List.find?_isSome]
  · intro test consequent alternate branch h scope
    refine ⟨rebound scope branch, List.filter_sublist, fun level => rfl, ?_⟩
    rw [← (Scope.proper_collect [branch]).keys_eq]
    exact rebound_perm h

/-- `User.ok ? USER.find(key) : user.name`: the consequent binds `User` again, as the test spells
it, though it reads `key` first and `USER` after it. -/
theorem captures_first_occurrences_spellings :
    let consequent := callOf "USER" "find" "key"
    let scope := Scope.collect [memberOf "User" "ok", consequent, memberOf "user" "name"]
    ∃ names : List Ident, names.Sublist scope.idents ∧
      (∀ level, rebindPieces level scope consequent = names.flatMap fun x =>
        [.line level, .text x.name, .text " = scope.", .text x.name]) ∧
      (names.map fun x => x.name.toLower).Perm
        ((Scope.collect [consequent]).idents.map fun x => x.name.toLower) :=
  (captures_first_occurrences []).2.2.2 (memberOf "User" "ok") (callOf "USER" "find" "key")
    (memberOf "user" "name") _ (.inl rfl)

end Emit
end BrightScript
