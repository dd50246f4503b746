import BrightScript.Proofs.Emit.Protected

/-! The variables in a branch function.
A branch function starts from nothing but its parameter. Every variable in it, however deep in the
conditionals that it holds, is one that it has bound again from the object that is passed to it. -/
namespace BrightScript

/- Nothing is left inside these functions. They are not looked into when variables are captured. -/
mutual
def Expr.hollow : Expr → Expr
  | .literal l => .literal l
  | .var x => .var x
  | .dotted object x r => .dotted object.hollow x r
  | .indexed object index r => .indexed object.hollow index.hollow r
  | .call callee args r => .call callee.hollow (exprsHollow args) r
  | .array elements r => .array (exprsHollow elements) r
  | .assoc members r => .assoc (membersHollow members) r
  | .binary operator left right r => .binary operator left.hollow right.hollow r
  | .unary operator operand r => .unary operator operand.hollow r
  | .group inner r => .group inner.hollow r
  | .function f => .function { f with parameters := [], body := ⟨[], f.body.range⟩ }
  | .conditional test consequent alternate r =>
    .conditional test.hollow consequent.hollow alternate.hollow r

def exprsHollow : List Expr → List Expr
  | [] => []
  | e :: rest => e.hollow :: exprsHollow rest

def membersHollow : List (Member Expr) → List (Member Expr)
  | [] => []
  | .property ⟨key, quoted, value, r⟩ :: rest =>
    .property ⟨key, quoted, value.hollow, r⟩ :: membersHollow rest
  | .comment c :: rest => .comment c :: membersHollow rest
end

def Expr.KeptHollow (e : Expr) : Prop :=
  e.hollow.shape = e.shape ∧ e.hollow.occurrences = e.occurrences

theorem exprsHollow_kept {es : List Expr} (inner : ∀ e ∈ es, e.KeptHollow) :
    exprsShape (exprsHollow es) = exprsShape es ∧
      exprsOccurrences (exprsHollow es) = exprsOccurrences es := by
  induction es with
  | nil => exact ⟨rfl, rfl⟩
  | cons e rest ih =>
    obtain ⟨⟨shape, reads⟩, later⟩ := List.forall_mem_cons.mp inner
    obtain ⟨shapes, more⟩ := ih later
    simp only [exprsHollow, exprsShape, exprsOccurrences, shape, reads, shapes, more, and_self]

theorem membersHollow_kept {ms : List (Member Expr)}
    (inner : ∀ p, Member.property p ∈ ms → p.value.KeptHollow) :
    membersShape (membersHollow ms) = membersShape ms ∧
      membersOccurrences (membersHollow ms) = membersOccurrences ms := by
  induction ms with
  | nil => exact ⟨rfl, rfl⟩
  | cons m rest ih =>
    obtain ⟨shapes, more⟩ := ih fun p mem => inner p (List.mem_cons_of_mem _ mem)
    cases m with
    | property p =>
      obtain ⟨shape, reads⟩ := inner p List.mem_cons_self
      simp only [membersHollow, membersShape, membersOccurrences, shape, reads, shapes, more,
        and_self]
    | comment c => exact ⟨shapes, more⟩

theorem hereditary_keptHollow : Hereditary Expr.KeptHollow fun _ => True := by
  constructor
  case literal | var | function => intros; exact ⟨rfl, rfl⟩
  case dotted | unary | group =>
    intros
    rename_i ih
    simp only [Expr.KeptHollow, Expr.hollow, Expr.shape, Expr.occurrences, ih.1, ih.2, and_self]
  case indexed | binary =>
    intros
    rename_i ih ih'
    simp only [Expr.KeptHollow, Expr.hollow, Expr.shape, Expr.occurrences, ih.1, ih.2, ih'.1, ih'.2,
      and_self]
  case call =>
    intro callee args _ ih inner
    obtain ⟨shapes, more⟩ := exprsHollow_kept inner
    refine ⟨by simp only [Expr.hollow, Expr.shape, ih.1, shapes], ?_⟩
    have reads := ih.2
    cases callee <;> simp_all only [Expr.hollow, Expr.occurrences]
  case array =>
    intro _ _ inner
    obtain ⟨shapes, more⟩ := exprsHollow_kept inner
    simp only [Expr.KeptHollow, Expr.hollow, Expr.shape, Expr.occurrences, shapes, more, and_self]
  case assoc =>
    intro _ _ inner
    obtain ⟨shapes, more⟩ := membersHollow_kept inner
    simp only [Expr.KeptHollow, Expr.hollow, Expr.shape, Expr.occurrences, shapes, more, and_self]
  case conditional =>
    intro _ _ _ _ ih ih' ih''
    simp only [Expr.KeptHollow, Expr.hollow, Expr.shape, Expr.occurrences, ih.1, ih.2, ih'.1, ih'.2,
      ih''.1, ih''.2, and_self]
  all_goals intros; trivial

theorem Expr.shape_hollow (e : Expr) : e.hollow.shape = e.shape := (hereditary_keptHollow.expr e).1

theorem Expr.occurrences_hollow (e : Expr) : e.hollow.occurrences = e.occurrences :=
  (hereditary_keptHollow.expr e).2

theorem Scope.collect_hollow (es : List Expr) : collect (es.map Expr.hollow) = collect es := by
  have reads : exprsOccurrences (es.map Expr.hollow) = exprsOccurrences es := by
    induction es with
    | nil => rfl
    | cons e rest ih => rw [List.map_cons, exprsOccurrences, exprsOccurrences, e.occurrences_hollow, ih]
  rw [collect, collect, exprsCaptures_eq_foldl, exprsCaptures_eq_foldl, reads]

/- A name that is called is no variable. Before it returns its value, a branch function only makes
the assignments from its parameter. -/
mutual
def Expr.mentions : Expr → List Ident
  | .literal _ => []
  | .var x => [x]
  | .dotted object _ _ => object.mentions
  | .indexed object index _ => object.mentions ++ index.mentions
  | .call callee args _ =>
    (match callee with
    | .var _ => []
    | callee => callee.mentions) ++ exprsMentions args
  | .array elements _ => exprsMentions elements
  | .assoc members _ => membersMentions members
  | .binary _ left right _ => left.mentions ++ right.mentions
  | .unary _ operand _ => operand.mentions
  | .group inner _ => inner.mentions
  | .function ⟨_, _, _, ⟨stmts, _⟩, _⟩ => returnsMentions stmts
  | .conditional test consequent alternate _ => test.mentions ++ consequent.mentions ++ alternate.mentions

def exprsMentions : List Expr → List Ident
  | [] => []
  | e :: rest => e.mentions ++ exprsMentions rest

def membersMentions : List (Member Expr) → List Ident
  | [] => []
  | .property ⟨_, _, value, _⟩ :: rest => value.mentions ++ membersMentions rest
  | .comment _ :: rest => membersMentions rest

def returnsMentions : List Stmt → List Ident
  | [] => []
  | .returns (some value) _ :: rest => value.mentions ++ returnsMentions rest
  | _ :: rest => returnsMentions rest
end

namespace Emit

variable {o : Options}

def Covers (names used : List Ident) : Prop :=
  ∀ x ∈ used, ∃ y ∈ names, y.name.toLower = x.name.toLower

namespace Covers

theorem append {a b used : List Ident} {used' : List Ident} (first : Covers a used)
    (last : Covers b used') : Covers (a ++ b) (used ++ used') := by
  intro x mem
  rcases List.mem_append.mp mem with mem | mem
  · obtain ⟨y, found, same⟩ := first x mem
    exact ⟨y, List.mem_append_left _ found, same⟩
  · obtain ⟨y, found, same⟩ := last x mem
    exact ⟨y, List.mem_append_right _ found, same⟩

theorem swap {a b used used' : List Ident} (first : Covers a used) (last : Covers b used') :
    Covers (b ++ a) (used ++ used') := by
  intro x mem
  obtain ⟨y, found, same⟩ := first.append last x mem
  exact ⟨y, List.perm_append_comm.subset found, same⟩

theorem mono {a b used : List Ident} (h : Covers a used) (sub : a ⊆ b) : Covers b used := by
  intro x mem
  obtain ⟨y, found, same⟩ := h x mem
  exact ⟨y, sub found, same⟩

end Covers

theorem rewrite_hollow (test consequent alternate : Expr) (r : Range) :
    Expr.rewrite (lowering o) (Expr.conditional test consequent alternate r).hollow =
      ternaryCall o test consequent alternate (test.hollow.rewrite (lowering o))
        (consequent.hollow.rewrite (lowering o)) (alternate.hollow.rewrite (lowering o)) r := by
  have all : Scope.collect [test.hollow, consequent.hollow, alternate.hollow] =
      Scope.collect [test, consequent, alternate] :=
    Scope.collect_hollow [test, consequent, alternate]
  have one (e : Expr) : Scope.collect [e.hollow] = Scope.collect [e] := Scope.collect_hollow [e]
  have plain : isPlain o test.hollow consequent.hollow alternate.hollow =
      isPlain o test consequent alternate := by
    simp only [isPlain, Expr.shape_hollow]
  rw [Expr.hollow, rewrite_conditional]
  simp only [ternaryCall, plain, all, rebound, one]

def Bounded (o : Options) (e : Expr) : Prop :=
  Covers e.occurrences (e.hollow.rewrite (lowering o)).mentions

theorem bounded_exprs {es : List Expr} (inner : ∀ e ∈ es, Bounded o e) :
    Covers (exprsOccurrences es) (exprsMentions (exprsRewrite (lowering o) (exprsHollow es))) := by
  induction es with
  | nil => exact nofun
  | cons e rest ih =>
    obtain ⟨first, later⟩ := List.forall_mem_cons.mp inner
    exact first.append (ih later)

theorem bounded_members {ms : List (Member Expr)}
    (inner : ∀ p, Member.property p ∈ ms → Bounded o p.value) :
    Covers (membersOccurrences ms) (membersMentions (membersRewrite (lowering o) (membersHollow ms))) := by
  induction ms with
  | nil => exact nofun
  | cons m rest ih =>
    have later := ih fun p mem => inner p (List.mem_cons_of_mem _ mem)
    cases m with
    | property p => exact (inner p List.mem_cons_self).append later
    | comment c => exact later

theorem bounded_call {callee : Expr} {args : List Expr} {r : Range} (ih : Bounded o callee)
    (inner : ∀ e ∈ args, Bounded o e) : Bounded o (.call callee args r) := by
  have arguments := bounded_exprs inner
  unfold Bounded at ih ⊢
  cases callee with
  | var f =>
    simp only [Expr.hollow, Expr.rewrite, Expr.occurrences, Expr.mentions, List.append_nil,
      List.nil_append]
    exact arguments
  | conditional test consequent alternate r' =>
    -- what is called has become a call, and still is no name
    have called : (Expr.rewrite (lowering o)
        (Expr.call (.conditional test consequent alternate r') args r).hollow).mentions =
        (Expr.rewrite (lowering o) (Expr.conditional test consequent alternate r').hollow).mentions ++
          exprsMentions (exprsRewrite (lowering o) (exprsHollow args)) := by
      simp only [Expr.hollow, Expr.rewrite.eq_5, rewrite_conditional, ternaryCall]
      split <;> rfl
    rw [called]
    exact ih.swap arguments
  | _ => exact ih.swap arguments

theorem mentions_helperCall (name : String) (args : List Expr) (r : Range) :
    (helperCall o name args r).mentions = exprsMentions args := by
  simp [helperCall, Expr.mentions]

theorem mentions_scopeObject (scope : Scope) (r : Range) : (scopeObject scope r).mentions = scope.idents := by
  have members (xs : List Ident) :
      membersMentions (xs.map fun x => .property ⟨x.name, true, .var x, x.range⟩) = xs := by
    induction xs with
    | nil => rfl
    | cons x rest ih => rw [List.map_cons, membersMentions, ih]; rfl
  rw [scopeObject, Expr.mentions, members]

theorem mentions_branchFunction (names : List Ident) (value : Expr) (r : Range) :
    (Expr.function (branchFunction names value r)).mentions = value.mentions := by
  have rebinds : returnsMentions (names.map rebind ++ [.returns (some value) r]) = value.mentions := by
    induction names with
    | nil => simp [returnsMentions]
    | cons x rest ih => exact ih
  exact rebinds

theorem covers_idents (es : List Expr) : Covers (exprsOccurrences es) (Scope.collect es).idents := by
  intro x mem
  obtain ⟨entry, found, rfl⟩ := List.mem_map.mp mem
  have key : entry.1 ∈ (Scope.collect es).keys := List.mem_map_of_mem found
  obtain ⟨y, occurs, same⟩ := (Scope.mem_keys_collect es entry.1).mp key
  exact ⟨y, occurs, same.trans ((Scope.proper_collect es).folded entry found)⟩

/- The scope object names what the three operands read, and the branches are covered one by one. -/
theorem bounded_conditional (test consequent alternate : Expr) (r : Range) (ih : Bounded o test)
    (ih' : Bounded o consequent) (ih'' : Bounded o alternate) :
    Bounded o (.conditional test consequent alternate r) := by
  have names : Covers (test.occurrences ++ consequent.occurrences ++ alternate.occurrences)
      (Scope.collect [test, consequent, alternate]).idents := by
    have covered := covers_idents [test, consequent, alternate]
    simpa only [exprsOccurrences, List.append_nil, List.append_assoc] using covered
  have operands := (ih.append ih').append ih''
  rw [Bounded, rewrite_hollow, ternaryCall, Expr.occurrences]
  split
  · simpa only [mentions_helperCall, exprsMentions, List.append_nil, List.append_assoc] using operands
  · intro x mem
    simp only [mentions_helperCall, exprsMentions, mentions_scopeObject, mentions_branchFunction, List.append_nil,
      List.mem_append] at mem
    rcases mem with mem | mem | mem | mem
    · exact operands x (by simp [mem])
    · exact names x mem
    · exact operands x (by simp [mem])
    · exact operands x (by simp [mem])

theorem hereditary_bounded : Hereditary (Bounded o) fun _ => True := by
  constructor
  case literal => intro _; exact nofun
  case var => intro x; exact List.forall_mem_singleton.mpr ⟨x, List.mem_cons_self, rfl⟩
  case dotted => intro _ _ _ ih; exact ih
  case indexed => intro _ _ _ ih ih'; exact ih.swap ih'
  case call => intro _ _ _ ih inner; exact bounded_call ih inner
  case array => intro _ _ inner; exact bounded_exprs inner
  case assoc => intro _ _ inner; exact bounded_members inner
  case binary => intro _ _ _ _ ih ih'; exact ih.append ih'
  case unary => intro _ _ _ ih; exact ih
  case group => intro _ _ ih; exact ih
  case function => intro _ _; exact nofun
  case conditional => exact bounded_conditional
  all_goals intros; trivial

/- `keys` are the members of the object that is passed, `names` what is bound before the value of the
branch is computed. -/
structure ClosedBranch (keys names : List Ident) (value : Expr) : Prop where
  bound : Covers names value.mentions
  carried : Covers keys value.mentions
  inOrder : names.Sublist keys
  once : (names.map (·.name.toLower)).Nodup

theorem closedBranch {test consequent alternate branch : Expr}
    (h : branch = consequent ∨ branch = alternate) :
    let scope := Scope.collect [test, consequent, alternate]
    ClosedBranch scope.idents (rebound scope branch) (branch.hollow.rewrite (lowering o)) := by
  intro scope
  have bound : Covers (rebound scope branch) (branch.hollow.rewrite (lowering o)).mentions := by
    intro x mem
    obtain ⟨y, occurs, same⟩ := hereditary_bounded.expr branch x mem
    have read : (Scope.collect [branch]).contains x.name = true := by
      rw [Scope.contains_iff, Scope.mem_keys_collect]
      exact ⟨y, by simpa [exprsOccurrences] using occurs, same⟩
    exact exists_rebound h read
  have inOrder : (rebound scope branch).Sublist scope.idents := List.filter_sublist
  refine ⟨bound, bound.mono inOrder.subset, inOrder, ?_⟩
  have proper : scope.Proper := Scope.proper_collect _
  have keys : scope.idents.map (·.name.toLower) = scope.keys := by
    rw [Scope.idents, Scope.keys, List.map_map]
    exact List.map_congr_left fun entry mem => (proper.folded entry mem).symm
  have all : (scope.idents.map (·.name.toLower)).Nodup := keys ▸ proper.nodup
  exact all.sublist (inOrder.map _)

/-- The branch functions of every protected conditional with an operand that may run code. The
program is printed with a call in the place of the conditional, and if the functions that the program
writes are emptied, the call only changes inside them. Each branch function binds some of the passed
variables, each once and in the order in which they are passed, and then returns a value in which
every variable is one of them. -/
theorem branches_closed (o : Options) (safe : o.protection = .safe) (stmts : List Stmt)
    (test consequent alternate : Expr) (r : Range)
    (mem : Expr.conditional test consequent alternate r ∈ stmtsNodes stmts)
    (acts : (test.acts || consequent.acts || alternate.acts) = true) :
    emit o (lower o stmts) = emit o stmts ∧ ∃ names names',
      let scope := Scope.collect [test, consequent, alternate]
      let call (test' consequent' alternate' : Expr) : Expr :=
        helperCall o "scopeSafeTernary"
          [test', scopeObject scope r, .function (branchFunction names consequent' r),
            .function (branchFunction names' alternate' r)] r
      call (test.rewrite (lowering o)) (consequent.rewrite (lowering o))
          (alternate.rewrite (lowering o)) ∈ stmtsNodes (lower o stmts) ∧
        (Expr.conditional test consequent alternate r).hollow.rewrite (lowering o) =
          call (test.hollow.rewrite (lowering o)) (consequent.hollow.rewrite (lowering o))
            (alternate.hollow.rewrite (lowering o)) ∧
        ClosedBranch scope.idents names (consequent.hollow.rewrite (lowering o)) ∧
        ClosedBranch scope.idents names' (alternate.hollow.rewrite (lowering o)) := by
  have risky := not_isPlain safe acts
  refine ⟨emit_lower_eq o stmts, _, _, ?_, ?_, closedBranch (.inl rfl), closedBranch (.inr rfl)⟩
  · have found := (carried_lower o stmts).forth _ mem
    rwa [rewrite_conditional, ternaryCall, if_neg risky] at found
  · rw [rewrite_hollow, ternaryCall, if_neg risky]

private def named (name : String) : Expr := .var ⟨name, .empty .origin⟩

/-- `m.ok ? f(A ? b : a.c) : B`: the inner conditional has branch functions of its own. -/
theorem branches_closed_nested :
    let inner : Expr := .conditional (named "A") (named "b")
      (.dotted (named "a") ⟨"c", .empty .origin⟩ (.empty .origin)) (.empty .origin)
    let test : Expr := .dotted (named "m") ⟨"ok", .empty .origin⟩ (.empty .origin)
    let consequent : Expr := .call (named "f") [inner] (.empty .origin)
    let scope := Scope.collect [test, consequent, named "B"]
    ∃ names names',
      ClosedBranch scope.idents names (consequent.hollow.rewrite (lowering {})) ∧
        ClosedBranch scope.idents names' ((named "B").hollow.rewrite (lowering {})) := by
  intro inner test consequent scope
  obtain ⟨_, names, names', _, _, first, second⟩ := branches_closed {} rfl
    [.assign ⟨"x", .empty .origin⟩ .equal
      (.conditional test consequent (named "B") (.empty .origin)) (.empty .origin)]
    test consequent (named "B") (.empty .origin) (by simp [stmtsNodes, Stmt.nodes, Expr.nodes]) rfl
  exact ⟨names, names', first, second⟩

end Emit
end BrightScript
