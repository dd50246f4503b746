import BrightScript.Proofs.Parser.InOrder

/-! Where the nodes of a parsed tree stand.
Every node lies inside of the one that it is a part of, and the parts of a node follow each other.
So a walk through the tree meets the leaves in the order of the text. -/
namespace BrightScript

namespace Node

theorem flatMap_ranges (ns : List Node) :
    ns.flatMap ranges = (ns.filter (!·.isHollow)).map range := by
  induction ns with
  | nil => rfl
  | cons n ns ih =>
    rw [List.flatMap_cons, ih, ranges, List.filter_cons]
    cases n.isHollow <;> rfl

namespace Lies

variable {n : Node}

theorem within (h : n.Lies) {m : Node} (part : m ∈ n.parts) (solid : m.isHollow = false) :
    n.range.start ≤ m.range.start ∧ m.range.stop ≤ n.range.stop := by
  have mem : m.range ∈ n.parts.flatMap ranges :=
    List.mem_flatMap.mpr ⟨m, part, by simp [ranges, solid]⟩
  obtain ⟨low, -, high⟩ := h.row.mem _ mem
  exact ⟨low, high⟩

theorem apart (h : n.Lies) : (n.parts.filter (!·.isHollow)).Pairwise fun a b =>
    a.range.stop ≤ b.range.start := by
  have row := h.row.pairwise
  rw [flatMap_ranges] at row
  exact List.pairwise_map.mp row

end Lies
end Node

/-- The statements of a text lie in a row, and everything in them lies where it should. -/
theorem parse_lies (mode : Mode) (source : String) :
    let parsed := parse mode (scan source).tokens
    (∃ a c, Row a ((parsed.statements.map .stmt).flatMap Node.ranges) c) ∧
      ∀ st ∈ parsed.statements, (Node.stmt st).Proper parsed.diagnostics := by
  intro parsed
  have laid := Parser.laid_parse mode (ordered_scan source)
  have row := laid.row
  rw [List.flatMap_map] at row
  exact ⟨⟨_, _, row⟩, fun st mem => laid.proper (.node (.stmt st)) (by simpa using mem)⟩

/-- Every node of a parsed tree but a block without statements takes up some text, in the range of
the node that it is a part of. Such parts of a node follow each other, and so do the statements of
the text. -/
theorem parse_ranges_nest (mode : Mode) (source : String) :
    let stmts := (parse mode (scan source).tokens).statements
    stmts.Pairwise (fun a b => a.range.stop ≤ b.range.start) ∧
      ∀ n, Node.Occurs stmts n →
        (n.isHollow = false → n.range.start < n.range.stop) ∧
        (∀ m ∈ n.parts, m.isHollow = false →
          n.range.start ≤ m.range.start ∧ m.range.stop ≤ n.range.stop) ∧
        (n.parts.filter (!·.isHollow)).Pairwise fun a b => a.range.stop ≤ b.range.start := by
  intro stmts
  obtain ⟨⟨a, c, row⟩, proper⟩ := parse_lies mode source
  have solid : (stmts.map Node.stmt).filter (!·.isHollow) = stmts.map .stmt :=
    List.filter_eq_self.mpr (List.forall_mem_map.mpr fun _ _ => rfl)
  have top := row.pairwise
  rw [Node.flatMap_ranges, solid, List.map_map] at top
  refine ⟨List.pairwise_map.mp top, fun n occurs => ?_⟩
  have lies := (Node.Throughout.occurs proper occurs).here.1
  exact ⟨lies.solid, fun m part => lies.within part, lies.apart⟩

theorem parse_ranges_nest_array :
    ∃ n, Node.Occurs (parse .brightScript (scan "a = [b, 1]").tokens).statements n ∧
      n.parts.map Node.range = [⟨⟨0, 5⟩, ⟨0, 6⟩⟩, ⟨⟨0, 8⟩, ⟨0, 9⟩⟩] ∧
      ∀ m ∈ n.parts, m.isHollow = false →
        n.range.start ≤ m.range.start ∧ m.range.stop ≤ n.range.stop := by
  let assign := Node.stmt ((parse .brightScript (scan "a = [b, 1]").tokens).statements.get
    ⟨0, by decide +kernel⟩)
  let array := assign.parts.get ⟨0, by decide +kernel⟩
  have occurs : Node.Occurs _ array := .part (.top (List.get_mem _ _)) (List.get_mem assign.parts _)
  exact ⟨array, occurs, by decide +kernel, ((parse_ranges_nest _ _).2 _ occurs).2.1⟩

theorem exprLeaves_eq (es : List Expr) : exprLeaves es = es.flatMap Expr.leaves := by
  induction es with
  | nil => rfl
  | cons e es ih => rw [exprLeaves, ih, List.flatMap_cons]

theorem stmtLeaves_eq (stmts : List Stmt) : stmtLeaves stmts = stmts.flatMap Stmt.leaves := by
  induction stmts with
  | nil => rfl
  | cons st stmts ih => rw [stmtLeaves, ih, List.flatMap_cons]

namespace Node

/-- The leaves that a walk meets in a node. -/
def leaves : Node → List Leaf
  | expr e => e.leaves
  | stmt st => st.leaves
  | block b => stmtLeaves b.statements
  | parameter p => optionLeaves p.fallback
  | elseIf clause => clause.condition.leaves ++ stmtLeaves clause.body.statements
  | property p => p.value.leaves

theorem memberLeaves_eq (members : List (Member Expr)) :
    memberLeaves members = (members.map ofMember).flatMap leaves := by
  induction members with
  | nil => rfl
  | cons m members ih =>
    cases m with
    | property p => rw [memberLeaves, ih]; rfl
    | comment c => rw [memberLeaves, ih]; rfl

theorem parameterLeaves_eq (params : List (Parameter Expr)) :
    parameterLeaves params = (params.map parameter).flatMap leaves := by
  induction params with
  | nil => rfl
  | cons p params ih => rw [parameterLeaves, ih]; rfl

theorem itemLeaves_eq (items : List (PrintItem Expr)) :
    itemLeaves items = (items.filterMap ofItem?).flatMap leaves := by
  induction items with
  | nil => rfl
  | cons item items ih => cases item <;> (rw [itemLeaves, ih]; rfl)

theorem elseIfLeaves_eq (clauses : List (ElseIf Expr Stmt)) :
    elseIfLeaves clauses = (clauses.map elseIf).flatMap leaves := by
  induction clauses with
  | nil => rfl
  | cons clause clauses ih => rw [elseIfLeaves, ih]; rfl

theorem optionLeaves_eq (e : Option Expr) : optionLeaves e = (e.toList.map expr).flatMap leaves := by
  cases e <;> simp [optionLeaves, leaves]

theorem leaves_eq (n : Node) : n.leaves = n.leaf?.toList ++ n.parts.flatMap leaves := by
  cases n with
  | expr e =>
    cases e <;> simp [leaves, Expr.leaves, leaf?, parts, List.flatMap_map, exprLeaves_eq,
      memberLeaves_eq, parameterLeaves_eq]
  | stmt st =>
    cases st with
    | ifThen _ _ _ elseBody =>
      cases elseBody <;> simp [leaves, Stmt.leaves, leaf?, parts, elseIfLeaves_eq]
    | _ =>
      simp [leaves, Stmt.leaves, Expr.leaves, leaf?, parts, List.flatMap_map, itemLeaves_eq,
        optionLeaves_eq]
  | block b => simp [leaves, leaf?, parts, List.flatMap_map, stmtLeaves_eq]
  | parameter p => simp [leaves, leaf?, parts, optionLeaves_eq]
  | elseIf clause => simp [leaves, leaf?, parts]
  | property p => simp [leaves, leaf?, parts]

theorem leaf?_eq {n : Node} {leaf : Leaf} (h : n.leaf? = some leaf) :
    leaf.range = n.range ∧ n.isHollow = false ∧ n.parts = [] := by
  unfold leaf? at h
  split at h
  case h_4 => cases h
  all_goals
    obtain rfl := Option.some.inj h
    exact ⟨rfl, rfl, rfl⟩

theorem leaves_of_hollow {n : Node} (h : n.isHollow = true) : n.leaves = [] := by
  cases n with
  | block b =>
    have none : b.statements = [] := List.isEmpty_iff.mp h
    rw [leaves, none, stmtLeaves]
  | _ => cases h

theorem row_leaves {ns : List Node} {a c : Position} (row : Row a (ns.flatMap ranges) c)
    (below : ∀ n ∈ ns, n.isHollow = false →
      Row n.range.start (n.leaves.map Leaf.range) n.range.stop) :
    Row a ((ns.flatMap leaves).map Leaf.range) c := by
  induction ns generalizing a with
  | nil => exact row
  | cons n ns ih =>
    have rest (b : Position) (row : Row b (ns.flatMap ranges) c) :=
      ih row fun m mem => below m (List.mem_cons_of_mem n mem)
    rw [List.flatMap_cons] at row
    rw [List.flatMap_cons, List.map_append]
    cases hollow : n.isHollow with
    | true =>
      rw [leaves_of_hollow hollow]
      exact rest a (by simpa [ranges, hollow] using row)
    | false =>
      rw [ranges, hollow] at row
      cases row with
      | cons low solid row =>
        have here := below n List.mem_cons_self hollow
        exact (here.weaken low (le_refl _)).append (rest _ row)

theorem Throughout.row_leaves {P : Node → Prop} {n : Node} (h : n.Throughout P)
    (lies : ∀ m, P m → m.Lies) (solid : n.isHollow = false) :
    Row n.range.start (n.leaves.map Leaf.range) n.range.stop := by
  induction h with
  | @node n here _ ih =>
    have inner := Node.row_leaves (lies n here).row ih
    rw [leaves_eq, List.map_append]
    cases leaf : n.leaf? with
    | none => exact inner
    | some leaf' =>
      obtain ⟨range, -, none⟩ := leaf?_eq leaf
      rw [none]
      have solid := (lies n here).solid solid
      exact .cons (range ▸ le_refl _) (range ▸ solid) (.nil (range ▸ le_refl _))

namespace Listing

variable {stmts : List Stmt} {ns all : List Node}

theorem subset (h : Listing ns all) : ns ⊆ all := by
  induction h with
  | nil => exact List.Subset.refl _
  | cons _ _ _ ih =>
    refine List.cons_subset_cons _ (List.Subset.trans ih ?_)
    exact List.subset_append_right _ _

theorem parts_subset (h : Listing ns all) : ∀ n ∈ all, n.parts ⊆ all := by
  induction h with
  | nil => simp
  | @cons n rest below after inner _ ih ih' =>
    intro m mem part here
    rcases List.mem_cons.mp mem with rfl | mem
    · exact List.mem_cons_of_mem _ (List.mem_append_left _ (inner.subset here))
    · refine List.mem_cons_of_mem _ (List.mem_append.mpr ?_)
      exact (List.mem_append.mp mem).imp (fun mem => ih m mem here) fun mem => ih' m mem here

theorem occurs (h : Listing ns all) (top : ∀ n ∈ ns, Occurs stmts n) :
    ∀ n ∈ all, Occurs stmts n := by
  induction h with
  | nil => exact top
  | cons _ _ ih ih' =>
    obtain ⟨here, rest⟩ := List.forall_mem_cons.mp top
    refine List.forall_mem_cons.mpr ⟨here, fun m mem => ?_⟩
    exact (List.mem_append.mp mem).elim (ih (fun _ part => .part here part) m) (ih' rest m)

theorem mem_iff (h : Listing (stmts.map stmt) all) (n : Node) : n ∈ all ↔ Occurs stmts n := by
  constructor
  · refine h.occurs (fun m mem => ?_) n
    obtain ⟨st, here, rfl⟩ := List.mem_map.mp mem
    exact .top here
  · intro occurs
    induction occurs with
    | top mem => exact h.subset (List.mem_map_of_mem mem)
    | part _ part ih => exact h.parts_subset _ ih part

theorem of_leaves {P : Node → Prop} (h : ∀ n ∈ ns, n.Throughout P) :
    ∃ all, Listing ns all ∧ ns.flatMap leaves = all.filterMap leaf? := by
  -- first for the nodes of a list, when it holds for the parts of each
  have forest (ns : List Node) (h : ∀ n ∈ ns, ∃ below, Listing n.parts below ∧
      n.parts.flatMap leaves = below.filterMap leaf?) :
      ∃ all, Listing ns all ∧ ns.flatMap leaves = all.filterMap leaf? := by
    induction ns with
    | nil => exact ⟨[], .nil, rfl⟩
    | cons n ns ih =>
      obtain ⟨here, rest⟩ := List.forall_mem_cons.mp h
      obtain ⟨below, listing, leaves⟩ := here
      obtain ⟨after, listing', leaves'⟩ := ih rest
      refine ⟨_, .cons listing listing', ?_⟩
      rw [List.flatMap_cons, leaves_eq, leaves, leaves']
      cases own : n.leaf? <;> simp [own]
  refine forest ns fun n mem => ?_
  have tree := h n mem
  clear mem
  induction tree with
  | node _ _ ih => exact forest _ ih

end Listing
end Node

/-- A walk through a parsed tree meets every variable, literal and comment in it once, and in the
order of the text. -/
theorem parse_leaves_inOrder (mode : Mode) (source : String) :
    let stmts := (parse mode (scan source).tokens).statements
    (∃ all, Node.Listing (stmts.map .stmt) all ∧ (∀ n, n ∈ all ↔ Node.Occurs stmts n) ∧
      stmtLeaves stmts = all.filterMap Node.leaf?) ∧
    (stmtLeaves stmts).Pairwise (fun a b => a.range.stop ≤ b.range.start) ∧
    ∀ leaf ∈ stmtLeaves stmts, leaf.range.start < leaf.range.stop := by
  intro stmts
  obtain ⟨⟨a, c, row⟩, proper⟩ := parse_lies mode source
  have nodes : ∀ n ∈ stmts.map Node.stmt, n.Proper _ := List.forall_mem_map.mpr proper
  have walk : stmtLeaves stmts = (stmts.map .stmt).flatMap Node.leaves := by
    rw [stmtLeaves_eq, List.flatMap_map]
    rfl
  obtain ⟨all, listing, leaves⟩ := Node.Listing.of_leaves nodes
  have row := Node.row_leaves row fun n mem => (nodes n mem).row_leaves fun _ => And.left
  rw [← walk] at row
  refine ⟨⟨all, listing, listing.mem_iff, walk.trans leaves⟩, ?_, fun leaf mem => ?_⟩
  · exact List.pairwise_map.mp row.pairwise
  · exact (row.mem _ (List.mem_map_of_mem mem)).2.1

theorem parse_leaves_inOrder_comment :
    let leaf : Leaf := .comment ⟨"' d", ⟨⟨1, 0⟩, ⟨1, 3⟩⟩⟩
    leaf ∈ stmtLeaves (parse .brightScript (scan "a = \x7b b: c\n' d\n\x7d").tokens).statements ∧
      leaf.range.start < leaf.range.stop := by
  have mem : Leaf.comment ⟨"' d", ⟨⟨1, 0⟩, ⟨1, 3⟩⟩⟩ ∈
      stmtLeaves (parse .brightScript (scan "a = \x7b b: c\n' d\n\x7d").tokens).statements := by
    decide +kernel
  exact ⟨mem, (parse_leaves_inOrder _ _).2.2 _ mem⟩

end BrightScript
