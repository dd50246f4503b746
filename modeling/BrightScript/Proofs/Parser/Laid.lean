import BrightScript.Proofs.Parser.Bounds
import BrightScript.Proofs.Tree.Parts

/-! How a tree lies in its text.
A range is put together from those of tokens that have been taken. So what a parser reads lies in a
row, from the place where it starts to the last token that it takes, and a node that is made of
parts in a row has them inside of its range, one after the other. -/
namespace BrightScript

/-- Ranges one after the other between two positions, each with some text in it. -/
inductive Row : Position → List Range → Position → Prop where
  | nil {a c : Position} : a ≤ c → Row a [] c
  | cons {a c : Position} {r : Range} {rest : List Range} : a ≤ r.start → r.start < r.stop →
      Row r.stop rest c → Row a (r :: rest) c

namespace Row

variable {a b c : Position} {rs xs ys : List Range} {x y : Range}

theorem le (h : Row a rs c) : a ≤ c := by
  induction h with
  | nil le => exact le
  | cons low solid _ ih => exact le_trans low (le_trans (le_of_lt solid) ih)

theorem weaken (h : Row a rs c) {a' c' : Position} (low : a' ≤ a) (high : c ≤ c') :
    Row a' rs c' := by
  induction h generalizing a' with
  | nil le => exact .nil (le_trans low (le_trans le high))
  | cons low' solid _ ih => exact .cons (le_trans low low') solid (ih (le_refl _) high)

theorem append (first : Row a xs b) (last : Row b ys c) : Row a (xs ++ ys) c := by
  induction first with
  | nil le => exact last.weaken le (le_refl _)
  | cons low solid _ ih => exact .cons low solid (ih last)

theorem sublist (h : Row a xs c) (sub : List.Sublist ys xs) : Row a ys c := by
  induction sub generalizing a with
  | slnil => exact h
  | cons r _ ih =>
    cases h with
    | cons low solid rest => exact ih (rest.weaken (le_trans low (le_of_lt solid)) (le_refl _))
  | cons_cons r _ ih =>
    cases h with
    | cons low solid rest => exact .cons low solid (ih rest)

theorem mem (h : Row a rs c) : ∀ r ∈ rs, a ≤ r.start ∧ r.start < r.stop ∧ r.stop ≤ c := by
  induction h with
  | nil => simp
  | cons low solid rest ih =>
    refine List.forall_mem_cons.mpr ⟨⟨low, solid, rest.le⟩, fun r mem => ?_⟩
    obtain ⟨low', solid', high⟩ := ih r mem
    exact ⟨le_trans low (le_trans (le_of_lt solid) low'), solid', high⟩

theorem pairwise (h : Row a rs c) : rs.Pairwise fun r r' => r.stop ≤ r'.start := by
  induction h with
  | nil => exact .nil
  | cons _ _ rest ih => exact .cons (fun r mem => (rest.mem r mem).1) ih

theorem upTo (h : Row a rs c) (last : rs.getLast? = some y) : Row a rs y.stop := by
  induction h with
  | nil => simp at last
  | @cons a c r rest low solid inner ih =>
    refine .cons low solid ?_
    cases rest with
    | nil =>
      obtain rfl : r = y := by simpa using last
      exact .nil (le_refl _)
    | cons r' rest => exact ih (by simpa [List.getLast?_cons_cons] using last)

theorem since (h : Row a rs c) (first : rs.head? = some x) : Row x.start rs c := by
  cases h with
  | nil => simp at first
  | cons low solid rest =>
    obtain rfl := Option.some.inj first
    exact .cons (le_refl _) solid rest

theorem between (h : Row a rs c) (first : rs.head? = some x) (last : rs.getLast? = some y) :
    a ≤ x.start ∧ y.stop ≤ c ∧ x.union y = ⟨x.start, y.stop⟩ ∧ Row x.start rs y.stop := by
  have x_mem : x ∈ rs := List.mem_of_head? first
  have y_mem : y ∈ rs := List.mem_of_getLast? last
  have row := (h.upTo last).since first
  refine ⟨(h.mem x x_mem).1, (h.mem y y_mem).2.2, ?_, row⟩
  exact Range.union_eq (row.mem y y_mem).1 (row.mem x x_mem).2.2

end Row

namespace Node

/-- The text that a node takes up. -/
def ranges (n : Node) : List Range := if n.isHollow then [] else [n.range]

/-- The parts of a node lie in its range, and so does some text. -/
structure Lies (n : Node) : Prop where
  solid : n.isHollow = false → n.range.start < n.range.stop
  row : Row n.range.start (n.parts.flatMap ranges) n.range.stop

end Node

/-- If a name is reserved, there is a report at it that says so. -/
def Told (reports : List Diagnostic) (x : Ident) : Prop :=
  isReserved x.name = true → ∃ d ∈ reports, d.code = 1060 ∧ d.range = x.range

theorem Told.mono {reports more : List Diagnostic} {x : Ident} (h : Told reports x)
    (le : reports ⊆ more) : Told more x := by
  intro reserved
  obtain ⟨d, mem, code, range⟩ := h reserved
  exact ⟨d, le mem, code, range⟩

theorem Told.free {reports : List Diagnostic} {n : Node} (none : n.binds? = none) (x : Ident)
    (bound : n.binds? = some x) : Told reports x := by
  rw [none] at bound
  cases bound

/-- Everything below a node lies where it should, and the names that it binds are told of. -/
def Node.Proper (reports : List Diagnostic) (n : Node) : Prop :=
  n.Throughout fun m => m.Lies ∧ ∀ x, m.binds? = some x → Told reports x

/-- What a parser takes: single words, names that it binds, and whole nodes. -/
inductive Part where
  | word (r : Range)
  | name (x : Ident)
  | node (n : Node)

namespace Part

def ranges : Part → List Range
  | word r => [r]
  | name x => [x.range]
  | node n => n.ranges

def node? : Part → Option Node
  | node n => some n
  | _ => none

def Proper (reports : List Diagnostic) : Part → Prop
  | word _ => True
  | name x => Told reports x
  | node n => n.Proper reports

theorem Proper.mono {reports more : List Diagnostic} {p : Part} (h : p.Proper reports)
    (le : reports ⊆ more) : p.Proper more := by
  cases p with
  | word r => trivial
  | name x => exact Told.mono h le
  | node n => exact Node.Throughout.mono h fun m holds => ⟨holds.1, fun x binds =>
      (holds.2 x binds).mono le⟩

@[simp] theorem node?_word (r : Range) : (word r).node? = none := rfl
@[simp] theorem node?_name (x : Ident) : (name x).node? = none := rfl
@[simp] theorem node?_node (n : Node) : (node n).node? = some n := rfl

@[simp] theorem node?_comp_node : node? ∘ node = some := rfl
@[simp] theorem node?_comp_node_comp {α : Type} (f : α → Node) :
    node? ∘ node ∘ f = some ∘ f := rfl

theorem eq_node {p : Part} {n : Node} (h : p.node? = some n) : p = .node n := by
  cases p with
  | word r => cases h
  | name x => cases h
  | node m => exact congrArg node (Option.some.inj h)

theorem ranges_sublist (parts : List Part) :
    List.Sublist ((parts.filterMap node?).flatMap Node.ranges) (parts.flatMap ranges) := by
  induction parts with
  | nil => simp
  | cons p parts ih =>
    cases p with
    | word r => exact ih.cons r
    | name x => exact ih.cons x.range
    | node n => exact (List.Sublist.refl n.ranges).append ih

end Part

namespace Parser

/-- On the way from `s` to `s'` these parts have been taken, one after the other. -/
structure Laid (s : State) (parts : List Part) (s' : State) : Prop where
  sound : s.Sound
  leads : s.Leads s'
  row : Row s.place (parts.flatMap Part.ranges) (s.reached s')
  proper : ∀ p ∈ parts, p.Proper s'.diagnostics

def State.spanTo (s : State) (first : Range) (s' : State) : Range :=
  (s.lastTaken s').elim first fun last => first.union last.range

theorem State.Sound.spanTo_eq {s s' : State} (h : s.Sound) (leads : s.Leads s') {first : Range}
    (starts : first.start ≤ s.place) (stops : first.stop ≤ s.reached s')
    (taken : s.place < s.reached s') : s.spanTo first s' = ⟨first.start, s.reached s'⟩ := by
  rcases State.Sound.reached_cases leads with ⟨-, same, -⟩ | ⟨front, last, items, lastTaken, stop⟩
  · exact absurd (same ▸ taken) (lt_irrefl _)
  · have starts' : first.start ≤ last.range.start :=
      le_trans starts (h.after_place last (by simp [items]))
    rw [stop] at stops
    rw [State.spanTo, lastTaken, stop]
    exact Range.union_eq starts' stops

namespace Laid

variable {s s' s'' : State} {parts more : List Part} {n : Node} {first last : Range}

theorem after (h : Laid s parts s') {p : Part} (mem : p ∈ parts) {r : Range} (here : r ∈ p.ranges) :
    s'.After r.stop := by
  obtain ⟨-, -, high⟩ := h.row.mem r (List.mem_flatMap.mpr ⟨p, mem, here⟩)
  have place := le_trans high (h.sound.reached_le_place h.leads)
  exact fun t left => le_trans place ((h.sound.advance h.leads).after_place t left)

theorem nil (sound : s.Sound) (leads : s.Leads s') : Laid s [] s' :=
  ⟨sound, leads, .nil (sound.place_le_reached leads), by simp⟩

theorem append (h : Laid s parts s') (next : Laid s' more s'') : Laid s (parts ++ more) s'' := by
  have leads := h.leads.trans next.leads
  obtain ⟨onward, stops⟩ := h.sound.reached_trans h.leads next.leads
  have early := h.row.weaken (le_refl _) onward
  refine ⟨h.sound, leads, ?_, ?_⟩
  · rw [List.flatMap_append]
    rcases stops with still | moved
    · -- nothing more has been taken, so there is nothing more in the row
      have none : more.flatMap Part.ranges = [] := by
        refine List.eq_nil_iff_forall_not_mem.mpr fun r mem => ?_
        obtain ⟨low, solid, high⟩ := next.row.mem r mem
        rw [still] at high
        exact not_le_of_gt solid (le_trans high low)
      rwa [none, List.append_nil]
    · exact (h.row.weaken (le_refl _) (h.sound.reached_le_place h.leads)).append (moved ▸ next.row)
  · refine List.forall_mem_append.mpr ⟨fun p mem => ?_, next.proper⟩
    exact (h.proper p mem).mono next.leads.reports.subset

theorem skip (h : Laid s parts s') (leads : s'.Leads s'') : Laid s parts s'' := by
  simpa using h.append (nil (h.sound.advance h.leads) leads)

theorem word (sound : s.Sound) (leads : s.Leads s') (open_ : s.kind ≠ .endOfFile)
    (rest : s'.rest = (s.drop 1).rest) : Laid s [.word s.range] s' := by
  have items : s.rest.items = [s.token] ++ s'.rest.items := by
    rw [rest]
    exact State.items_eq open_
  have solid := sound.ordered.solid _ (State.token_mem open_) open_
  have between := sound.taken_between leads items List.mem_cons_self
  exact ⟨sound, leads, .cons (le_refl _) solid (.nil between.2.1), by simp [Part.Proper]⟩

theorem named (h : Laid s [.word s.range] s') {x : Ident} (range : x.range = s.range)
    (told : Told s'.diagnostics x) : Laid s [.name x] s' :=
  ⟨h.sound, h.leads, by simpa [Part.ranges, range] using h.row, by simpa [Part.Proper] using told⟩

theorem told (h : Laid s parts s') {x : Ident} (mem : Part.name x ∈ parts) :
    Told s'.diagnostics x := h.proper _ mem

theorem binds (h : Laid s parts s') {x : Ident} (mem : Part.name x ∈ parts) :
    ∀ y, some x = some y → Told s'.diagnostics y := by
  rintro _ ⟨⟩
  exact h.told mem

/- Neither the levels nor the marks of the two states matter. -/
theorem like (h : Laid s parts s') {t t' : State}
    (same : (t.rest, t.finish, t.diagnostics) = (s.rest, s.finish, s.diagnostics))
    (same' : (t'.rest, t'.finish, t'.diagnostics) = (s'.rest, s'.finish, s'.diagnostics)) :
    Laid t parts t' := by
  simp only [Prod.mk.injEq] at same same'
  obtain ⟨rest, finish, reports⟩ := same
  obtain ⟨rest', finish', reports'⟩ := same'
  have place : t.place = s.place := by
    simp only [State.place, State.range, State.token, rest, finish]
  have reached : t.reached t' = s.reached s' := by
    simp only [State.reached, State.lastTaken, rest, rest', place]
  refine ⟨⟨rest ▸ h.sound.ordered, ?_⟩, ⟨?_, ?_, ?_⟩, ?_, ?_⟩
  · rw [rest, finish]
    exact h.sound.inside
  · rw [rest, rest']
    exact h.leads.suffix
  · rw [finish, finish']
    exact h.leads.finish
  · rw [reports, reports']
    exact h.leads.reports
  · rw [place, reached]
    exact h.row
  · rw [reports']
    exact h.proper

theorem of_proper (sound : s.Sound) (leads : s.Leads s') (proper : n.Proper s'.diagnostics)
    (solid : n.range.start < n.range.stop) (low : s.place ≤ n.range.start)
    (high : n.range.stop ≤ s.reached s') : Laid s [.node n] s' := by
  have whole : Row s.place [n.range] (s.reached s') := .cons low solid (.nil high)
  refine ⟨sound, leads, whole.sublist ?_, List.forall_mem_singleton.mpr proper⟩
  simp only [List.flatMap_cons, List.flatMap_nil, List.append_nil, Part.ranges, Node.ranges]
  split
  · exact List.nil_sublist _
  · exact List.Sublist.refl _

theorem node (h : Laid s parts s') (kids : n.parts = parts.filterMap Part.node?)
    (told : ∀ x, n.binds? = some x → Told s'.diagnostics x)
    (solid : n.range.start < n.range.stop) (low : s.place ≤ n.range.start)
    (high : n.range.stop ≤ s.reached s')
    (row : Row n.range.start (parts.flatMap Part.ranges) n.range.stop) :
    Laid s [.node n] s' := by
  refine .of_proper h.sound h.leads (.node ⟨⟨fun _ => solid, ?_⟩, told⟩ fun m mem => ?_) solid low high
  · rw [kids]
    exact row.sublist (Part.ranges_sublist parts)
  · rw [kids] at mem
    obtain ⟨p, mem, same⟩ := List.mem_filterMap.mp mem
    obtain rfl : p = .node m := Part.eq_node same
    exact h.proper _ mem

theorem whole (h : Laid s parts s') (kids : n.parts = parts.filterMap Part.node?)
    (told : ∀ x, n.binds? = some x → Told s'.diagnostics x)
    (head : (parts.flatMap Part.ranges).head? = some first)
    (range : n.range = ⟨first.start, s.reached s'⟩) : Laid s [.node n] s' := by
  obtain ⟨low, solid, high⟩ := h.row.mem first (List.mem_of_head? head)
  have row := h.row.since head
  refine h.node kids told ?_ ?_ ?_ ?_ <;> rw [range]
  · exact lt_of_lt_of_le solid high
  · exact low
  · exact row

/-- A node that is read from its first token on. -/
theorem ranged (h : Laid s parts s') (kids : n.parts = parts.filterMap Part.node?)
    (told : ∀ x, n.binds? = some x → Told s'.diagnostics x)
    (head : (parts.flatMap Part.ranges).head? = some s.range)
    (range : n.range = s.spanTo s.range s') : Laid s [.node n] s' := by
  obtain ⟨low, solid, high⟩ := h.row.mem s.range (List.mem_of_head? head)
  refine h.whole kids told head (range.trans ?_)
  exact h.sound.spanTo_eq h.leads (le_refl _) high (lt_of_lt_of_le solid high)

theorem spanned (h : Laid s parts s') (next : Laid s' more s'')
    (kids : n.parts = (parts ++ more).filterMap Part.node?)
    (told : ∀ x, n.binds? = some x → Told s''.diagnostics x)
    (head : (parts.flatMap Part.ranges).head? = some first)
    (some_more : (more.flatMap Part.ranges).head? = some last)
    (range : n.range = s'.spanTo first s'') : Laid s [.node n] s'' := by
  obtain ⟨-, solid, high⟩ := h.row.mem first (List.mem_of_head? head)
  obtain ⟨low', solid', high'⟩ := next.row.mem last (List.mem_of_head? some_more)
  have here := h.sound.reached_le_place h.leads
  have taken : s'.place < s'.reached s'' := lt_of_le_of_lt low' (lt_of_lt_of_le solid' high')
  have stops := (h.sound.reached_trans h.leads next.leads).2.resolve_left fun still =>
    not_le_of_gt taken (still ▸ le_refl _)
  refine (h.append next).whole kids told (?_ : _ = some first) (range.trans ?_)
  · rw [List.flatMap_append, List.head?_append, head]
    rfl
  · rw [← stops]
    refine next.sound.spanTo_eq next.leads (le_trans (le_of_lt solid) (le_trans high here)) ?_ taken
    exact le_trans high (le_trans here (le_of_lt taken))

theorem union (h : Laid s parts s') (kids : n.parts = parts.filterMap Part.node?)
    (told : ∀ x, n.binds? = some x → Told s'.diagnostics x)
    (head : (parts.flatMap Part.ranges).head? = some first)
    (tail : (parts.flatMap Part.ranges).getLast? = some last)
    (range : n.range = first.union last) : Laid s [.node n] s' := by
  obtain ⟨low, high, union, row⟩ := h.row.between head tail
  have inner := row.mem first (List.mem_of_head? head)
  rw [union] at range
  refine h.node kids told ?_ ?_ ?_ ?_ <;> rw [range]
  · exact lt_of_lt_of_le inner.2.1 inner.2.2
  · exact low
  · exact high
  · exact row

theorem same {p : Part} (h : Laid s [p] s') (kids : n.parts = [p].filterMap Part.node?)
    (told : ∀ x, n.binds? = some x → Told s'.diagnostics x) (range : p.ranges = [n.range]) :
    Laid s [.node n] s' := by
  refine h.union kids told (?_ : _ = some n.range) (?_ : _ = some n.range) ?_
  · simp [range]
  · simp [range]
  · exact (Range.union_eq (le_refl _) (le_refl _)).symm

theorem assigned {target value : Expr}
    (h : Laid s [.node (.expr target), .node (.expr value)] s')
    (kids : n.parts = (Node.expr target).parts ++ [.expr value]) (free : n.binds? = none)
    (range : n.range = target.range.union value.range) : Laid s [.node n] s' := by
  obtain ⟨low, high, union, row⟩ := h.row.between (x := target.range) (y := value.range) rfl rfl
  rw [union] at range
  have proper : (Node.expr target).Proper s'.diagnostics := h.proper (.node (.expr target)) (by simp)
  have last : (Node.expr value).Proper s'.diagnostics := h.proper (.node (.expr value)) (by simp)
  cases row with
  | cons _ solid rest =>
  have whole : target.range.start < value.range.stop := lt_of_lt_of_le solid rest.le
  have inner : Row target.range.start ((Node.expr target).parts.flatMap Node.ranges ++ [value.range])
      value.range.stop := proper.here.1.row.append rest
  refine .of_proper h.sound h.leads (.node ⟨⟨fun _ => ?_, ?_⟩, ?_⟩ ?_) ?_ ?_ ?_
  · rw [range]
    exact whole
  · rw [range, kids, List.flatMap_append]
    exact inner
  · simp [free]
  · intro m mem
    rw [kids] at mem
    rcases List.mem_append.mp mem with mem | mem
    · exact proper.parts m mem
    · rw [List.mem_singleton.mp mem]
      exact last
  all_goals rw [range]
  · exact whole
  · exact low
  · exact high

theorem block {stmts : List Stmt} (h : Laid s ((stmts.map .stmt).map .node) s') :
    Laid s [.node (.block (makeBlock s.range stmts))] s' := by
  have ranges : ∀ stmts : List Stmt,
      ((stmts.map Node.stmt).map Part.node).flatMap Part.ranges = stmts.map Stmt.range := by
    intro stmts
    induction stmts with
    | nil => rfl
    | cons st rest ih => exact congrArg (st.range :: ·) ih
  have row := h.row
  rw [ranges] at row
  unfold makeBlock
  cases last : stmts.getLast? with
  | none =>
    obtain rfl := List.getLast?_eq_none_iff.mp last
    have hollow : Node.Lies (.block ⟨[], .empty s.range.start⟩) :=
      ⟨fun other => Bool.noConfusion other, .nil (le_refl _)⟩
    exact ⟨h.sound, h.leads, h.row, List.forall_mem_singleton.mpr (.node ⟨hollow, nofun⟩ nofun)⟩
  | some st =>
    have tail : (stmts.map Stmt.range).getLast? = some st.range := by simp [last]
    obtain ⟨low, solid, high⟩ := row.mem st.range (List.mem_of_getLast? tail)
    have taken : s.place < s.reached s' := lt_of_le_of_lt low (lt_of_lt_of_le solid high)
    have start : (s.range.union st.range).start = s.place := if_pos low
    have stop := Position.le_later_right s.range.stop st.range.stop
    refine h.node (n := .block ⟨stmts, s.range.union st.range⟩) ?_ nofun ?_ ?_ ?_ ?_
    · simp [Node.parts]
    all_goals simp only [Node.range, start]
    · exact lt_of_le_of_lt low (lt_of_lt_of_le solid stop)
    · exact le_refl _
    · exact Position.later_le.mpr ⟨h.sound.token_le_reached h.leads taken, high⟩
    · rw [ranges]
      exact (row.upTo tail).weaken (le_refl _) stop

theorem comments {c : Comment} {more : List Token} (h : Laid s [.word s.range] s')
    (range : c.range = s.range)
    (inside : ∀ t ∈ more, s.place ≤ t.range.start ∧ t.range.stop ≤ s.reached s') :
    Laid s [.node (.stmt (.comment (more.foldl joinComment c)))] s' := by
  have grows : ∀ (more : List Token) (c : Comment), c.range.start = s.place →
      s.range.stop ≤ c.range.stop → c.range.stop ≤ s.reached s' →
      (∀ t ∈ more, s.place ≤ t.range.start ∧ t.range.stop ≤ s.reached s') →
      (more.foldl joinComment c).range.start = s.place ∧
        s.range.stop ≤ (more.foldl joinComment c).range.stop ∧
          (more.foldl joinComment c).range.stop ≤ s.reached s' := by
    intro more
    induction more with
    | nil => exact fun c start low high _ => ⟨start, low, high⟩
    | cons t more ih =>
      intro c start low high inside
      obtain ⟨here, rest⟩ := List.forall_mem_cons.mp inside
      refine ih (joinComment c t) ?_ ?_ ?_ rest
      · exact (if_pos (start ▸ here.1)).trans start
      · exact le_trans low (Position.le_later_left _ _)
      · exact Position.later_le.mpr ⟨high, here.2⟩
  obtain ⟨low, solid, high⟩ := h.row.mem s.range (by simp [Part.ranges])
  obtain ⟨start, stop, stop'⟩ := grows more c (by rw [range]; rfl) (by rw [range])
    (by rw [range]; exact high) inside
  refine h.node (n := .stmt (.comment (more.foldl joinComment c))) rfl nofun ?_ ?_ ?_ ?_
  all_goals simp only [Node.range, Stmt.range, start]
  · exact lt_of_lt_of_le solid stop
  · exact le_refl _
  · exact stop'
  · exact .cons (le_refl _) solid (.nil stop)

end Laid
end Parser
end BrightScript
