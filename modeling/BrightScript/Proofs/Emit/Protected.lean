import BrightScript.Proofs.Emit.Lowered
import BrightScript.Proofs.Tree.Nodes

/-! Which helper a conditional calls.
`simpleTernary` gets its operands as values, so all of them have been evaluated when it is called.
It is called only where that runs no code of the program, or where no protection is wanted. -/
namespace BrightScript

/- A call can do anything, and a member or an index may be answered by a method. -/
def Expr.mayRunCode : Expr → Bool
  | .call _ _ _ | .dotted _ _ _ | .indexed _ _ _ => true
  | _ => false

/-- Evaluating some part of the expression may run code. -/
def Expr.acts (e : Expr) : Bool := e.evaluated.any Expr.mayRunCode

theorem Expr.acts_iff (e : Expr) : e.acts = true ↔ ∃ x ∈ e.evaluated, x.mayRunCode = true :=
  List.any_eq_true

theorem Expr.acts_binary (operator : Operator) (left right : Expr) (r : Range) :
    (Expr.binary operator left right r).acts = (left.acts || right.acts) := by
  rw [acts, evaluated, List.any_cons, List.any_append]
  rfl

theorem Expr.acts_conditional (test consequent alternate : Expr) (r : Range) :
    (Expr.conditional test consequent alternate r).acts =
      (test.acts || consequent.acts || alternate.acts) := by
  rw [acts, evaluated, List.any_cons, List.any_append, List.any_append]
  rfl

@[simp] theorem Shape.isRisky_union (a b : Shape) :
    (a ∪ b).isRisky = (a.isRisky || b.isRisky) := by
  change (a.union b).isRisky = _
  simp only [isRisky, union]
  grind

theorem isRisky_exprs {es : List Expr} (inner : ∀ e ∈ es, e.shape.isRisky = e.acts) :
    (exprsShape es).isRisky = (exprsEvaluated es).any Expr.mayRunCode := by
  induction es with
  | nil => rfl
  | cons e rest ih =>
    obtain ⟨first, later⟩ := List.forall_mem_cons.mp inner
    rw [exprsShape, exprsEvaluated, Shape.isRisky_union, List.any_append, first, ih later, Expr.acts]

theorem isRisky_members {ms : List (Member Expr)}
    (inner : ∀ p, Member.property p ∈ ms → p.value.shape.isRisky = p.value.acts) :
    (membersShape ms).isRisky = (membersEvaluated ms).any Expr.mayRunCode := by
  induction ms with
  | nil => rfl
  | cons m rest ih =>
    have later := ih fun p mem => inner p (List.mem_cons_of_mem _ mem)
    cases m with
    | property p =>
      have first := inner p List.mem_cons_self
      rw [membersShape, membersEvaluated, Shape.isRisky_union, List.any_append, first, later,
        Expr.acts]
    | comment c => exact later

theorem hereditary_isRisky : Hereditary (fun e => e.shape.isRisky = e.acts) fun _ => True := by
  constructor
  case literal | var | function => intros; rfl
  case dotted | indexed | call =>
    intros
    simp only [Expr.shape, Shape.isRisky_union, Expr.acts, Expr.evaluated, List.any_cons]
    rfl
  case array =>
    intro _ _ inner
    rw [Expr.shape, Shape.isRisky_union, isRisky_exprs inner]
    rfl
  case assoc =>
    intro _ _ inner
    rw [Expr.shape, Shape.isRisky_union, isRisky_members inner]
    rfl
  case binary =>
    intro _ _ _ _ ih ih'
    rw [Expr.shape, Shape.isRisky_union, Shape.isRisky_union, ih, ih', Expr.acts_binary]
    rfl
  case unary =>
    intro _ _ _ ih
    rw [Expr.shape, Shape.isRisky_union, ih]
    rfl
  case group => intro _ _ ih; exact ih
  case conditional =>
    intro _ _ _ _ ih ih' ih''
    rw [Expr.shape, Shape.isRisky_union, Shape.isRisky_union, ih, ih', ih'', Expr.acts_conditional]
  all_goals intros; trivial

/-- A shape is risky exactly if it is that of an expression that may run code. -/
theorem isRisky_eq_acts (e : Expr) : e.shape.isRisky = e.acts := hereditary_isRisky.expr e

/-- The name that is called. -/
def Expr.callee? : Expr → Option String
  | .call (.var f) _ _ => some f.name
  | _ => none

namespace Emit

variable {o : Options}

theorem isPlain_iff (test consequent alternate : Expr) :
    isPlain o test consequent alternate = true ↔
      o.protection = .none ∨
        test.acts = false ∧ consequent.acts = false ∧ alternate.acts = false := by
  simp [isPlain, isRisky_eq_acts, and_assoc]

theorem not_isPlain (safe : o.protection = .safe) {test consequent alternate : Expr}
    (acts : (test.acts || consequent.acts || alternate.acts) = true) :
    ¬ isPlain o test consequent alternate = true := by
  rw [isPlain_iff, safe]
  rintro (none | ⟨still, still', still''⟩)
  · contradiction
  · simp [still, still', still''] at acts

theorem rewrite_conditional (test consequent alternate : Expr) (r : Range) :
    Expr.rewrite (lowering o) (.conditional test consequent alternate r) =
      ternaryCall o test consequent alternate (test.rewrite (lowering o))
        (consequent.rewrite (lowering o)) (alternate.rewrite (lowering o)) r := by
  rw [Expr.rewrite]
  rfl

/- The name of the helper that a conditional calls. -/
def helperName (o : Options) (test consequent alternate : Expr) : String :=
  o.stem ++ if isPlain o test consequent alternate then "simpleTernary" else "scopeSafeTernary"

theorem callee?_conditional (test consequent alternate : Expr) (r : Range) :
    (Expr.rewrite (lowering o) (.conditional test consequent alternate r)).callee? =
      some (helperName o test consequent alternate) := by
  rw [rewrite_conditional, ternaryCall, helperName]
  split <;> rfl

theorem callee?_rewrite (e : Expr) (name : String)
    (called : (e.rewrite (lowering o)).callee? = some name) :
    e.callee? = some name ∨ ∃ test consequent alternate r,
      e = .conditional test consequent alternate r ∧
        name = helperName o test consequent alternate := by
  cases e with
  | conditional test consequent alternate r =>
    rw [callee?_conditional, Option.some.injEq] at called
    exact .inr ⟨test, consequent, alternate, r, rfl, called.symm⟩
  | call callee args r =>
    left
    cases callee with
    | var f => exact called
    | conditional test consequent alternate r' =>
      -- a conditional that is called becomes a call, and no name is called any more
      rw [Expr.rewrite, rewrite_conditional, ternaryCall] at called
      split at called <;> exact absurd called (by simp [helperCall, Expr.callee?])
    | _ => simp [Expr.rewrite, Expr.callee?] at called
  | _ => simp [Expr.rewrite, Expr.callee?] at called

theorem nodes_scopeObject (scope : Scope) (r : Range) :
    (scopeObject scope r).nodes = scopeObject scope r :: scope.idents.map .var := by
  have members (xs : List Ident) :
      membersNodes (xs.map fun x => .property ⟨x.name, true, .var x, x.range⟩) = xs.map .var := by
    induction xs with
    | nil => rfl
    | cons x rest ih => rw [List.map_cons, membersNodes, ih]; rfl
  rw [scopeObject, Expr.nodes, members]

theorem nodes_branchFunction (names : List Ident) (value : Expr) (r : Range) :
    functionNodes (branchFunction names value r) =
      (names.flatMap fun x =>
        [.dotted (.var ⟨"scope", x.range⟩) x x.range, .var ⟨"scope", x.range⟩]) ++ value.nodes := by
  have rebinds : stmtsNodes (names.map rebind ++ [.returns (some value) r]) =
      (names.flatMap fun x =>
        [.dotted (.var ⟨"scope", x.range⟩) x x.range, .var ⟨"scope", x.range⟩]) ++ value.nodes := by
    induction names with
    | nil => simp [stmtsNodes, Stmt.nodes, optionNodes]
    | cons x rest ih =>
      rw [List.map_cons, List.cons_append, stmtsNodes, ih]
      rfl
  exact rebinds

theorem exprCarried_conditional (test consequent alternate : Expr) (r : Range)
    (ih : ExprCarried (lowering o) (·.callee? = none) test)
    (ih' : ExprCarried (lowering o) (·.callee? = none) consequent)
    (ih'' : ExprCarried (lowering o) (·.callee? = none) alternate) :
    ExprCarried (lowering o) (·.callee? = none) (.conditional test consequent alternate r) := by
  have call := rewrite_conditional (o := o) test consequent alternate r
  unfold ExprCarried at ih ih' ih'' ⊢
  rw [Expr.nodes]
  by_cases plain : isPlain o test consequent alternate = true
  · have nodes : (Expr.rewrite (lowering o) (.conditional test consequent alternate r)).nodes =
        Expr.rewrite (lowering o) (.conditional test consequent alternate r) ::
          ([.var ⟨o.stem ++ "simpleTernary", r⟩] ++
            ((test.rewrite (lowering o)).nodes ++ (consequent.rewrite (lowering o)).nodes ++
              (alternate.rewrite (lowering o)).nodes)) := by
      rw [call, ternaryCall, if_pos plain]
      simp [helperCall, Expr.nodes, exprsNodes]
    rw [nodes]
    apply Carried.cons rfl
    apply Carried.behind (by simp [Expr.callee?])
    exact (ih.append ih').append ih''
  · let scope := Scope.collect [test, consequent, alternate]
    let first := branchFunction (rebound scope consequent) (consequent.rewrite (lowering o)) r
    let second := branchFunction (rebound scope alternate) (alternate.rewrite (lowering o)) r
    have nodes : (Expr.rewrite (lowering o) (.conditional test consequent alternate r)).nodes =
        Expr.rewrite (lowering o) (.conditional test consequent alternate r) ::
          ([.var ⟨o.stem ++ "scopeSafeTernary", r⟩] ++
            ((test.rewrite (lowering o)).nodes ++
              ((scopeObject scope r).nodes ++ ([.function first] ++ functionNodes first)) ++
              ([.function second] ++ functionNodes second))) := by
      rw [call, ternaryCall, if_neg plain]
      simp [helperCall, Expr.nodes, exprsNodes, first, second, scope]
    have object : ∀ x ∈ (scopeObject scope r).nodes, x.callee? = none := by
      rw [nodes_scopeObject]
      refine List.forall_mem_cons.mpr ⟨rfl, fun x mem => ?_⟩
      obtain ⟨_, _, rfl⟩ := List.mem_map.mp mem
      rfl
    have rebinds (names : List Ident) : ∀ x ∈ names.flatMap fun x =>
        ([.dotted (.var ⟨"scope", x.range⟩) x x.range, .var ⟨"scope", x.range⟩] : List Expr),
        x.callee? = none := by
      intro x mem
      obtain ⟨_, _, mem⟩ := List.mem_flatMap.mp mem
      simp only [List.mem_cons, List.not_mem_nil, or_false] at mem
      rcases mem with rfl | rfl <;> rfl
    have function (f : Function Expr Stmt) : ∀ x ∈ [Expr.function f], x.callee? = none := by
      simp [Expr.callee?]
    rw [nodes, nodes_branchFunction, nodes_branchFunction]
    apply Carried.cons rfl
    apply Carried.behind (by simp [Expr.callee?])
    apply Carried.append
    · exact ih.append (((ih'.behind (rebinds _)).behind (function _)).behind object)
    · exact (ih''.behind (rebinds _)).behind (function _)

theorem carried_lower (o : Options) (stmts : List Stmt) :
    Carried (lowering o) (·.callee? = none) (stmtsNodes stmts) (stmtsNodes (lower o stmts)) := by
  rw [lower, ← stmtsRewrite_eq]
  exact carried_stmts fun s _ => (hereditary_carried exprCarried_conditional).stmt s

/-- Nothing in the printed operand but calls of `simpleTernary` can run code. -/
def Quiet (o : Options) (e : Expr) : Prop :=
  ∀ x ∈ e.evaluated, x.mayRunCode = true → x.callee? = some (o.stem ++ "simpleTernary")

theorem quiet_exprs {es : List Expr}
    (inner : ∀ e ∈ es, e.acts = false → Quiet o (e.rewrite (lowering o)))
    (still : (exprsEvaluated es).any Expr.mayRunCode = false) :
    ∀ x ∈ exprsEvaluated (exprsRewrite (lowering o) es), x.mayRunCode = true →
      x.callee? = some (o.stem ++ "simpleTernary") := by
  induction es with
  | nil => simp [exprsRewrite, exprsEvaluated]
  | cons e rest ih =>
    obtain ⟨first, later⟩ := List.forall_mem_cons.mp inner
    rw [exprsEvaluated, List.any_append, Bool.or_eq_false_iff] at still
    rw [exprsRewrite, exprsEvaluated]
    exact List.forall_mem_append.mpr ⟨first still.1, ih later still.2⟩

theorem quiet_members {ms : List (Member Expr)}
    (inner : ∀ p, Member.property p ∈ ms → p.value.acts = false →
      Quiet o (p.value.rewrite (lowering o)))
    (still : (membersEvaluated ms).any Expr.mayRunCode = false) :
    ∀ x ∈ membersEvaluated (membersRewrite (lowering o) ms), x.mayRunCode = true →
      x.callee? = some (o.stem ++ "simpleTernary") := by
  induction ms with
  | nil => simp [membersRewrite, membersEvaluated]
  | cons m rest ih =>
    have later := ih fun p mem => inner p (List.mem_cons_of_mem _ mem)
    cases m with
    | property p =>
      rw [membersEvaluated, List.any_append, Bool.or_eq_false_iff] at still
      exact List.forall_mem_append.mpr ⟨inner p List.mem_cons_self still.1, later still.2⟩
    | comment c => exact later still

theorem quiet_conditional {test consequent alternate : Expr} {r : Range}
    (plain : isPlain o test consequent alternate = true)
    (quiet : Quiet o (test.rewrite (lowering o))) (quiet' : Quiet o (consequent.rewrite (lowering o)))
    (quiet'' : Quiet o (alternate.rewrite (lowering o))) :
    Quiet o (Expr.rewrite (lowering o) (.conditional test consequent alternate r)) := by
  rw [rewrite_conditional, ternaryCall, if_pos plain, Quiet, helperCall, Expr.evaluated,
    exprsEvaluated, exprsEvaluated, exprsEvaluated, exprsEvaluated, List.append_nil, Expr.evaluated]
  refine List.forall_mem_cons.mpr ⟨fun _ => rfl, ?_⟩
  refine List.forall_mem_append.mpr ⟨by simp [Expr.mayRunCode], ?_⟩
  exact List.forall_mem_append.mpr ⟨quiet, List.forall_mem_append.mpr ⟨quiet', quiet''⟩⟩

theorem hereditary_quiet :
    Hereditary (fun e => e.acts = false → Quiet o (e.rewrite (lowering o))) fun _ => True := by
  constructor
  case literal | var | function =>
    intros
    simp [Expr.rewrite, Quiet, Expr.evaluated, Expr.mayRunCode]
  case dotted | indexed | call =>
    intros
    rename_i still
    simp [Expr.acts, Expr.evaluated, Expr.mayRunCode] at still
  case array =>
    intro _ _ inner still
    exact List.forall_mem_cons.mpr ⟨nofun, quiet_exprs inner still⟩
  case assoc =>
    intro _ _ inner still
    exact List.forall_mem_cons.mpr ⟨nofun, quiet_members inner still⟩
  case binary =>
    intro _ _ _ _ ih ih' still
    rw [Expr.acts_binary, Bool.or_eq_false_iff] at still
    exact List.forall_mem_cons.mpr
      ⟨nofun, List.forall_mem_append.mpr ⟨ih still.1, ih' still.2⟩⟩
  case unary => intro _ _ _ ih still; exact List.forall_mem_cons.mpr ⟨nofun, ih still⟩
  case group => intro _ _ ih still; exact List.forall_mem_cons.mpr ⟨nofun, ih still⟩
  case conditional =>
    intro test consequent alternate _ ih ih' ih'' still
    rw [Expr.acts_conditional, Bool.or_eq_false_iff, Bool.or_eq_false_iff] at still
    have plain := (isPlain_iff (o := o) test consequent alternate).mpr
      (.inr ⟨still.1.1, still.1.2, still.2⟩)
    exact quiet_conditional plain (ih still.1.1) (ih' still.1.2) (ih'' still.2)
  all_goals intros; trivial

/-- An expression of the printed program that stands for a call which the program makes itself. -/
def IsOwnCall (o : Options) (stmts : List Stmt) (x : Expr) : Prop :=
  ∃ e ∈ stmtsNodes stmts, x = e.rewrite (lowering o) ∧ e.callee? = x.callee?

theorem isOwnCall_or (o : Options) (stmts : List Stmt) {x : Expr} {name : String}
    (mem : x ∈ stmtsNodes (lower o stmts)) (called : x.callee? = some name) :
    IsOwnCall o stmts x ∨ ∃ test consequent alternate r,
      Expr.conditional test consequent alternate r ∈ stmtsNodes stmts ∧
        x = Expr.rewrite (lowering o) (.conditional test consequent alternate r) ∧
        name = helperName o test consequent alternate := by
  rcases (carried_lower o stmts).back x mem with ⟨e, found, rfl⟩ | new
  · rcases callee?_rewrite e name called with own | ⟨test, consequent, alternate, r, rfl, same⟩
    · exact .inl ⟨e, found, rfl, own.trans called.symm⟩
    · exact .inr ⟨test, consequent, alternate, r, found, rfl, same⟩
  · rw [new] at called
    contradiction

theorem helperName_eq_simple {test consequent alternate : Expr}
    (h : o.stem ++ "simpleTernary" = helperName o test consequent alternate) :
    isPlain o test consequent alternate = true := by
  by_contra plain
  rw [helperName, if_neg plain] at h
  simp at h

theorem helperName_eq_scopeSafe {test consequent alternate : Expr}
    (h : o.stem ++ "scopeSafeTernary" = helperName o test consequent alternate) :
    ¬ isPlain o test consequent alternate = true := by
  intro plain
  rw [helperName, if_pos plain] at h
  simp at h

/-- Where a conditional calls `simpleTernary`, evaluating its operands runs no code of the program,
unless no protection is wanted. A shape is risky exactly if some part that is evaluated is a call, a
member or an index. A protected conditional with such a part in an operand is printed as a call of
`scopeSafeTernary`, every other conditional as a call of `simpleTernary`, and the call has its place
in the text of the program. The operands of a protected one that calls `simpleTernary` hold nothing of
the kind except such calls, and without protection every call of `scopeSafeTernary` is one that the
program makes itself. -/
theorem effects_deferred (o : Options) (stmts : List Stmt) :
    (∀ e : Expr, e.shape.isRisky = true ↔ ∃ x ∈ e.evaluated, x.mayRunCode = true) ∧
      emit o (lower o stmts) = emit o stmts ∧
      (o.protection = .safe → ∀ test consequent alternate r,
        Expr.conditional test consequent alternate r ∈ stmtsNodes stmts →
        (test.acts || consequent.acts || alternate.acts) = true →
          (∃ x ∈ stmtsNodes (lower o stmts),
            x = Expr.rewrite (lowering o) (.conditional test consequent alternate r) ∧
            x.callee? = some (o.stem ++ "scopeSafeTernary")) ∧
          ∃ before level after,
            let scope := Scope.collect [test, consequent, alternate]
            emit o stmts = before ++ scopeSafeText o level scope (rebound scope consequent)
              (rebound scope alternate) (exprText o level test) (exprText o (level + 1) consequent)
              (exprText o (level + 1) alternate) ++ after) ∧
      (o.protection = .safe → ∀ x ∈ stmtsNodes (lower o stmts),
        x.callee? = some (o.stem ++ "simpleTernary") → IsOwnCall o stmts x ∨
          ∃ test consequent alternate r,
            Expr.conditional test consequent alternate r ∈ stmtsNodes stmts ∧
            x = helperCall o "simpleTernary"
              ([test, consequent, alternate].map (·.rewrite (lowering o))) r ∧
            ∀ e ∈ [test, consequent, alternate],
              e.acts = false ∧ Quiet o (e.rewrite (lowering o))) ∧
      (o.protection = .none → ∀ x ∈ stmtsNodes (lower o stmts),
        x.callee? = some (o.stem ++ "scopeSafeTernary") → IsOwnCall o stmts x) ∧
      ∀ test consequent alternate r,
        Expr.conditional test consequent alternate r ∈ stmtsNodes stmts →
        o.protection = .none ∨ (test.acts || consequent.acts || alternate.acts) = false →
          ∃ before level after, emit o stmts = before ++ simpleText o (exprText o level test)
            (exprText o level consequent) (exprText o level alternate) ++ after := by
  refine ⟨fun e => ?_, ?_, ?_, ?_, ?_, ?_⟩
  · rw [isRisky_eq_acts, Expr.acts_iff]
  · exact emit_lower_eq o stmts
  · intro safe test consequent alternate r mem acts
    have risky := not_isPlain safe acts
    refine ⟨⟨_, (carried_lower o stmts).forth _ mem, rfl, ?_⟩, ?_⟩
    · rw [callee?_conditional, helperName, if_neg risky]
    · obtain ⟨before, level, after, place⟩ := hasPlace_emit o stmts mem rfl
      rw [exprText_scopeSafe risky] at place
      exact ⟨before, level, after, place⟩
  · intro safe x mem called
    rcases isOwnCall_or o stmts mem called with own | ⟨test, consequent, alternate, r, found, same, name⟩
    · exact .inl own
    · right
      have plain := helperName_eq_simple name
      have still : test.acts = false ∧ consequent.acts = false ∧ alternate.acts = false := by
        rcases (isPlain_iff _ _ _).mp plain with none | still
        · rw [safe] at none
          contradiction
        · exact still
      refine ⟨test, consequent, alternate, r, found, ?_, ?_⟩
      · rw [same, rewrite_conditional, ternaryCall, if_pos plain]
        rfl
      · have quiet (e : Expr) (still : e.acts = false) :
            e.acts = false ∧ Quiet o (e.rewrite (lowering o)) :=
          ⟨still, hereditary_quiet.expr e still⟩
        simp only [List.forall_mem_cons]
        exact ⟨quiet _ still.1, quiet _ still.2.1, quiet _ still.2.2, List.forall_mem_nil _⟩
  · intro none x mem called
    rcases isOwnCall_or o stmts mem called with own | ⟨test, consequent, alternate, r, _, _, name⟩
    · exact own
    · exact absurd ((isPlain_iff _ _ _).mpr (.inl none)) (helperName_eq_scopeSafe name)
  · intro test consequent alternate r mem free
    have plain : isPlain o test consequent alternate = true := by
      simpa only [isPlain_iff, Bool.or_eq_false_iff, and_assoc] using free
    obtain ⟨before, level, after, place⟩ := hasPlace_emit o stmts mem rfl
    rw [exprText_simple plain] at place
    exact ⟨before, level, after, place⟩

end Emit
end BrightScript
