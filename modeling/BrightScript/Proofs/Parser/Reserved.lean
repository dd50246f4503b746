import BrightScript.Proofs.Parser.Bookkeeping
import BrightScript.Proofs.Parser.Regions

/-! Reserved words as names.
A name that is bound is looked at once, so a reserved word there is told of once. A word that names
a member is never looked at. -/
namespace BrightScript

/-- In the course of the parse the token is taken as the name of a member or as a key. -/
def ReadAsMember (mode : Mode) (tokens : List Token) (t : Token) : Prop :=
  ∃ s : Parser.State, Parser.Called (.start mode tokens) .member s ∧ t = s.token

/- What a call takes as a member, the whole parse takes as one. -/
theorem Parser.Called.members {start s : Parser.State} {α : Type} {p : Parser α} {t : Token}
    (call : Called start p s) (member : p.members s t) :
    (statements grammar []).members start t := by
  induction call with
  | whole => exact member
  | first _ ih | guarded _ ih => exact ih (.inl member)
  | next _ run ih => exact ih (.inr ⟨_, _, run, member⟩)
  | attempt _ ih | spanned _ ih | inFunction _ ih | droppable _ ih => exact ih member
  | cleanup _ run ih =>
    refine ih (.inr ?_)
    rw [run]
    exact ⟨rfl, member⟩
  | round _ ih => exact ih (.now member)
  | again _ run less ih => exact ih (.later run less member)
  | nested _ shallow ih => exact ih ⟨shallow, member⟩

theorem length_of_pairwise_false {α : Type} {xs : List α} {x : α} (mem : x ∈ xs)
    (apart : xs.Pairwise fun _ _ => False) : xs.length = 1 := by
  match xs, apart with
  | [_], _ => rfl
  | _ :: y :: _, .cons apart _ => exact (apart y List.mem_cons_self).elim

/-- A reserved word that is bound has one report at it that says so, and there is no such report but
at a reserved word that does not name a member. -/
theorem parse_reserved_told (mode : Mode) (source : String) :
    let tokens := (scan source).tokens
    let parsed := parse mode tokens
    (∀ n x, Node.Occurs parsed.statements n → n.binds? = some x → isReserved x.name = true →
      (parsed.diagnostics.filter fun d => d.code = 1060 ∧ d.range = x.range).length = 1) ∧
    ∀ d ∈ parsed.diagnostics, d.code = 1060 →
      ∃ t ∈ tokens, d.range = t.range ∧ isReserved t.text = true ∧
        ¬ ReadAsMember mode tokens t := by
  intro tokens parsed
  obtain ⟨⟨new, added, turn, places⟩, -⟩ := Parser.follows_parse mode (ordered_scan source)
  obtain rfl : parsed.diagnostics = new := added
  refine ⟨fun n x occurs binds reserved => ?_, fun d mem code => ?_⟩
  · have proper := Node.Throughout.occurs (parse_lies mode source).2 occurs
    obtain ⟨d, mem, code, range⟩ := proper.here.2 x binds reserved
    refine length_of_pairwise_false (x := d) (List.mem_filter.mpr ⟨mem, by simp [code, range]⟩) ?_
    refine (turn.filter _).imp_of_mem fun {d d'} mem mem' turn => ?_
    obtain ⟨mem, hit⟩ := List.mem_filter.mp mem
    obtain ⟨-, hit'⟩ := List.mem_filter.mp mem'
    obtain ⟨code, range⟩ := of_decide_eq_true hit
    obtain ⟨code', range'⟩ := of_decide_eq_true hit'
    obtain ⟨t, -, at_, -, spans, -⟩ := (places d mem).2.2 code
    -- both are at the same word, which takes up some text
    have le := turn.2 code code'
    rw [range', ← range, at_] at le
    exact not_le_of_gt spans.2.1 le
  · obtain ⟨t, mem, range, word, -, other⟩ := (places d mem).2.2 code
    refine ⟨t, mem, range, word, ?_⟩
    rintro ⟨s, call, rfl⟩
    exact other (call.members rfl)

theorem parse_reserved_told_item :
    let x : Ident := ⟨"End", ⟨⟨0, 9⟩, ⟨0, 12⟩⟩⟩
    let parsed := parse .brightScript (scan "for each End in m.end\nend for").tokens
    (∃ n, Node.Occurs parsed.statements n ∧ n.binds? = some x) ∧
      (parsed.diagnostics.filter fun d => d.code = 1060 ∧ d.range = x.range).length = 1 := by
  intro x parsed
  let loop := Node.stmt (parsed.statements.get ⟨0, by decide +kernel⟩)
  have occurs : Node.Occurs parsed.statements loop := .top (List.get_mem _ _)
  have binds : loop.binds? = some x := by decide +kernel
  exact ⟨⟨_, occurs, binds⟩, (parse_reserved_told _ _).1 _ x occurs binds (by decide +kernel)⟩

end BrightScript
