import BrightScript.Ty
import Mathlib.Tactic.Tauto

/-! Types that agree as far as both are known.
A type has components at spots: the parameters and the result of a function, and theirs in turn.
One type goes where another is wanted exactly if they become equal, names and flags aside, once
`dynamic` stands in both at every spot where it stands in one of them. -/
namespace BrightScript.Ty

def isFunction : Ty → Bool
  | function _ => true
  | _ => false

mutual
theorem byComponents {P : Ty → Prop} (simple : ∀ t, t.isFunction = false → P t)
    (function : ∀ f, P f.returns → (∀ p ∈ f.params, P p.type) → P (.function f)) (t : Ty) : P t :=
  match t with
  | .function ⟨r, n, s, ps⟩ =>
    function ⟨r, n, s, ps⟩ (byComponents simple function r) (byComponentsAll simple function ps)
  | .dynamic | .boolean | .integer | .longInteger | .float | .double | .string | .object | .void
  | .invalid => simple _ rfl

theorem byComponentsAll {P : Ty → Prop} (simple : ∀ t, t.isFunction = false → P t)
    (function : ∀ f, P f.returns → (∀ p ∈ f.params, P p.type) → P (.function f))
    (ps : List (TyParam Ty)) : ∀ p ∈ ps, P p.type :=
  match ps with
  | [] => fun _ mem => nomatch mem
  | ⟨_, t, _⟩ :: rest => List.forall_mem_cons.mpr
    ⟨byComponents simple function t, byComponentsAll simple function rest⟩
end

/- The way to one component of a function type. -/
inductive Step where
  | param (index : Nat)
  | result
  deriving DecidableEq

abbrev Spot := List Step

def component? : Ty → Step → Option Ty
  | function f, .param i => f.params[i]?.map (·.type)
  | function f, .result => some f.returns
  | _, _ => none

def at? : Ty → Spot → Option Ty
  | t, [] => some t
  | t, step :: spot => (t.component? step).bind (at? · spot)

def isDynamic : Ty → Bool
  | dynamic => true
  | _ => false

def isDynamicAt (t : Ty) (spot : Spot) : Bool := (t.at? spot).any isDynamic

/-- Where one of two types is `dynamic`. -/
def unknown (a b : Ty) (spot : Spot) : Bool := a.isDynamicAt spot || b.isDynamicAt spot

mutual
/-- Without the names and flags of functions and parameters. -/
def bare : Ty → Ty
  | function ⟨r, _, _, ps⟩ => function { returns := r.bare, params := bareParams ps }
  | t => t

def bareParams : List (TyParam Ty) → List (TyParam Ty)
  | [] => []
  | ⟨_, t, _⟩ :: ps => ⟨"", t.bare, true⟩ :: bareParams ps
end

mutual
def blur (spots : Spot → Bool) : Ty → Ty
  | function ⟨r, n, s, ps⟩ =>
    if spots [] then dynamic
    else function ⟨r.blur fun spot => spots (.result :: spot), n, s,
      blurParams (fun i spot => spots (.param i :: spot)) ps⟩
  | t => if spots [] then dynamic else t

def blurParams (spots : Nat → Spot → Bool) : List (TyParam Ty) → List (TyParam Ty)
  | [] => []
  | ⟨n, t, q⟩ :: ps => ⟨n, t.blur (spots 0), q⟩ :: blurParams (fun i => spots (i + 1)) ps
end

/-- Equal, names and flags aside, as far as neither is `dynamic`. -/
def Consistent (a b : Ty) : Prop := a.bare.blur (unknown a b) = b.bare.blur (unknown a b)

theorem isDynamic_iff {t : Ty} : t.isDynamic = true ↔ t = dynamic := by
  cases t <;> simp [isDynamic]

theorem blur_of_top {spots : Spot → Bool} (h : spots [] = true) (t : Ty) :
    t.blur spots = dynamic := by
  cases t <;> simp [blur, h]

theorem blur_simple {t : Ty} (simple : t.isFunction = false) (spots : Spot → Bool) :
    t.blur spots = if spots [] then dynamic else t := by
  cases t with
  | function f => cases simple
  | _ => rfl

theorem bare_simple {t : Ty} (simple : t.isFunction = false) : t.bare = t := by
  cases t with
  | function f => cases simple
  | _ => rfl

theorem unknown_nil (a b : Ty) : unknown a b [] = (a.isDynamic || b.isDynamic) := rfl

def paramsDynamicAt (ps : List (TyParam Ty)) (i : Nat) (spot : Spot) : Bool :=
  (ps[i]?.map (·.type)).any (·.isDynamicAt spot)

theorem isDynamicAt_param (f : FunctionType) :
    (fun i spot => (function f).isDynamicAt (.param i :: spot)) = paramsDynamicAt f.params := by
  funext i spot
  simp only [isDynamicAt, at?, component?, paramsDynamicAt]
  cases f.params[i]?.map (·.type) <;> rfl

theorem unknown_param (f g : FunctionType) :
    (fun i spot => unknown (function f) (function g) (.param i :: spot)) =
      fun i spot => paramsDynamicAt f.params i spot || paramsDynamicAt g.params i spot := by
  rw [← isDynamicAt_param, ← isDynamicAt_param]
  rfl

theorem blurParams_paramsDynamicAt {ps : List (TyParam Ty)}
    (ih : ∀ p ∈ ps, p.type.bare.blur p.type.isDynamicAt = p.type.bare) :
    blurParams (paramsDynamicAt ps) (bareParams ps) = bareParams ps := by
  induction ps with
  | nil => rfl
  | cons p rest more =>
    rw [List.forall_mem_cons] at ih
    have first : p.type.bare.blur (paramsDynamicAt (p :: rest) 0) = p.type.bare := ih.1
    rw [bareParams, blurParams, first]
    exact congrArg _ (more ih.2)

theorem blur_isDynamicAt (t : Ty) : t.bare.blur t.isDynamicAt = t.bare := by
  induction t using byComponents with
  | simple t simple =>
    rw [bare_simple simple, blur_simple simple]
    exact ite_eq_right_iff.mpr fun h => (isDynamic_iff.mp h).symm
  | function f result params =>
    have top : (function f).isDynamicAt [] = false := rfl
    rw [bare, blur, if_neg (by simp [top]), isDynamicAt_param, blurParams_paramsDynamicAt params]
    congr 2

theorem blurParams_blurParams {ps : List (TyParam Ty)} (ih : ∀ p ∈ ps, ∀ spots spots' : Spot → Bool,
      (p.type.blur spots').blur spots = p.type.blur fun spot => spots spot || spots' spot)
    (spots spots' : Nat → Spot → Bool) : blurParams spots (blurParams spots' ps) =
      blurParams (fun i spot => spots i spot || spots' i spot) ps := by
  induction ps generalizing spots spots' with
  | nil => rfl
  | cons p rest more =>
    rw [List.forall_mem_cons] at ih
    rw [blurParams, blurParams, blurParams, ih.1, more ih.2]

theorem blur_blur (spots spots' : Spot → Bool) (t : Ty) :
    (t.blur spots').blur spots = t.blur fun spot => spots spot || spots' spot := by
  induction t using byComponents generalizing spots spots' with
  | simple t simple =>
    rw [blur_simple simple, blur_simple simple]
    cases spots' [] with
    | true => simp [blur_simple (t := dynamic) rfl]
    | false => simp [blur_simple simple]
  | function f result params =>
    obtain ⟨r, n, s, ps⟩ := f
    cases inner : spots' [] with
    | true => simp [blur, inner]
    | false =>
      cases outer : spots [] with
      | true => simp [blur, inner, outer]
      | false =>
        simp only [blur, inner, outer, Bool.or_self, Bool.false_eq_true, if_false]
        rw [result, blurParams_blurParams params]

theorem isFunction_blur_bare {spots : Spot → Bool} (h : spots [] = false) (t : Ty) :
    (t.bare.blur spots).isFunction = t.isFunction := by
  cases t <;> simp [bare, blur, h, isFunction]

theorem consistent_simple {a b : Ty} (simple : a.isFunction = false ∨ b.isFunction = false) :
    Consistent a b ↔ a = dynamic ∨ b = dynamic ∨ a = b := by
  cases top : unknown a b [] with
  | true =>
    have known : a = dynamic ∨ b = dynamic := by
      rwa [unknown_nil, Bool.or_eq_true, isDynamic_iff, isDynamic_iff] at top
    refine iff_of_true ?_ (by tauto)
    rw [Consistent, blur_of_top top, blur_of_top top]
  | false =>
    have blurs {t : Ty} (h : t.isFunction = false) : t.bare.blur (unknown a b) = t := by
      rw [bare_simple h, blur_simple h, top]
      rfl
    constructor
    · intro same
      have kinds : a.isFunction = b.isFunction := by
        have eq := congrArg isFunction same
        rwa [isFunction_blur_bare top, isFunction_blur_bare top] at eq
      rw [← kinds, or_self] at simple
      rw [Consistent, blurs simple, blurs (kinds ▸ simple)] at same
      exact .inr (.inr same)
    · rintro (rfl | rfl | rfl)
      · cases top
      · simp [unknown_nil, isDynamic] at top
      · rfl

theorem paramsAssignable_iff {ps : List (TyParam Ty)}
    (ih : ∀ p ∈ ps, ∀ b, p.type.assignable b = true ↔ Consistent p.type b)
    (ps' : List (TyParam Ty)) : paramsAssignable ps ps' = true ↔
      blurParams (fun i spot => paramsDynamicAt ps i spot || paramsDynamicAt ps' i spot)
        (bareParams ps) =
      blurParams (fun i spot => paramsDynamicAt ps i spot || paramsDynamicAt ps' i spot)
        (bareParams ps') := by
  induction ps generalizing ps' with
  | nil => cases ps' <;> simp [paramsAssignable, bareParams, blurParams]
  | cons p rest more =>
    rw [List.forall_mem_cons] at ih
    cases ps' with
    | nil => simp [paramsAssignable, bareParams, blurParams]
    | cons p' rest' =>
      rw [paramsAssignable, Bool.and_eq_true, ih.1, more ih.2, bareParams, bareParams, blurParams,
        blurParams, List.cons.injEq, TyParam.mk.injEq]
      exact and_congr_left' ⟨fun h => ⟨rfl, h, rfl⟩, fun h => h.2.1⟩

theorem assignable_simple {a b : Ty} (simple : a.isFunction = false ∨ b.isFunction = false) :
    a.assignable b = true ↔ a = dynamic ∨ b = dynamic ∨ a = b := by
  cases a <;> cases b <;> simp_all [assignable, isFunction]

theorem consistent_function (f g : FunctionType) : Consistent (function f) (function g) ↔
    blurParams (fun i spot => paramsDynamicAt f.params i spot || paramsDynamicAt g.params i spot)
        (bareParams f.params) =
      blurParams (fun i spot => paramsDynamicAt f.params i spot || paramsDynamicAt g.params i spot)
        (bareParams g.params) ∧ Consistent f.returns g.returns := by
  have top : unknown (function f) (function g) [] = false := rfl
  have result : (fun spot => unknown (function f) (function g) (.result :: spot)) =
      unknown f.returns g.returns := rfl
  simp only [Consistent, bare, blur, top, unknown_param, result, Bool.false_eq_true, if_false,
    function.injEq, Signature.mk.injEq, true_and]
  exact and_comm

theorem assignable_iff (a b : Ty) : a.assignable b = true ↔ Consistent a b := by
  induction a using byComponents generalizing b with
  | simple t simple => rw [assignable_simple (.inl simple), consistent_simple (.inl simple)]
  | function f result params =>
    cases b with
    | function g =>
      rw [consistent_function, ← paramsAssignable_iff params, ← result, assignable,
        Bool.and_eq_true]
    | _ => rw [assignable_simple (.inr rfl), consistent_simple (.inr rfl)]

namespace Consistent

theorem refl (a : Ty) : Consistent a a := rfl

theorem symm {a b : Ty} (h : Consistent a b) : Consistent b a := by
  have swap : unknown b a = unknown a b := funext fun _ => Bool.or_comm ..
  rw [Consistent, swap]
  exact Eq.symm h

theorem eq_blur {a b : Ty} (static : ∀ spot, b.isDynamicAt spot = false) (h : Consistent a b) :
    a.bare = b.bare.blur a.isDynamicAt := by
  have spots : unknown a b = a.isDynamicAt := funext fun spot => by simp [unknown, static spot]
  rw [Consistent, spots, blur_isDynamicAt] at h
  exact h

theorem trans {a b c : Ty} (static : ∀ spot, b.isDynamicAt spot = false) (first : Consistent a b)
    (second : Consistent b c) : Consistent a c := by
  have left : (fun spot => unknown a c spot || a.isDynamicAt spot) = unknown a c := by
    funext spot
    rw [unknown, Bool.or_right_comm, Bool.or_self]
  have right : (fun spot => unknown a c spot || c.isDynamicAt spot) = unknown a c := by
    funext spot
    rw [unknown, Bool.or_assoc, Bool.or_self]
  rw [Consistent, first.eq_blur static, second.symm.eq_blur static, blur_blur, blur_blur, left,
    right]

end Consistent

/-- Assignability is consistency. So it is reflexive, symmetric, and transitive through types
without `dynamic`; function types agree with types, and conversion only adds the numbers. -/
theorem assignable_consistency :
    (∀ a b : Ty, a.assignable b = true ↔ Consistent a b) ∧
    (∀ a : Ty, a.assignable a = true) ∧
    (∀ a b : Ty, a.assignable b = true → b.assignable a = true) ∧
    (∀ a b c : Ty, (∀ spot, b.isDynamicAt spot = false) →
      a.assignable b = true → b.assignable c = true → a.assignable c = true) ∧
    (∀ (f : FunctionType) (target : Ty), f.assignable target = (function f).assignable target ∧
      f.convertible target = (function f).convertible target) ∧
    ∀ a b : Ty, a.convertible b = true ↔
      a.assignable b = true ∨ a.isNumeric = true ∧ b.isNumeric = true := by
  have agrees (f : FunctionType) (target : Ty) :
      f.assignable target = (function f).assignable target := by
    cases target <;> rfl
  refine ⟨assignable_iff, fun a => (assignable_iff a a).mpr (.refl a), fun a b h => ?_,
    fun a b c static first second => ?_, fun f target => ⟨agrees f target, agrees f target⟩,
    fun a b => ?_⟩
  · exact (assignable_iff b a).mpr ((assignable_iff a b).mp h).symm
  · rw [assignable_iff] at first second ⊢
    exact first.trans static second
  · rw [convertible, Bool.or_eq_true, Bool.and_eq_true]
    exact or_comm

/- Through `function(integer) as string`, which has no `dynamic` in it. -/
theorem assignable_consistency_nested :
    (∀ spot, (function { returns := string, params := [⟨"n", integer, true⟩] }).isDynamicAt spot =
      false) ∧
    (function { returns := string, params := [⟨"x", dynamic, true⟩] }).assignable
      (function { returns := dynamic, params := [⟨"y", integer, false⟩] }) = true := by
  have static : ∀ spot, (function { returns := string, params := [⟨"n", integer, true⟩] }).isDynamicAt
      spot = false := by
    intro spot
    match spot with
    | [] => rfl
    | .result :: [] => rfl
    | .result :: _ :: _ => rfl
    | .param 0 :: [] => rfl
    | .param 0 :: _ :: _ => rfl
    | .param (_ + 1) :: _ => rfl
  exact ⟨static, assignable_consistency.2.2.2.1 _ _ _ static (by decide) (by decide)⟩

end BrightScript.Ty
