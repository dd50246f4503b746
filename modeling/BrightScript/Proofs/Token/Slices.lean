import BrightScript.Proofs.Parser.Bounds
import BrightScript.Proofs.Token.Line

/-! Tokens as slices of their text.
A scan cuts a text into slices, one for each token, in the order of the tokens. Between them only
blanks are left out and the characters that are reported. The places in a scan are those of the
slices. -/
namespace BrightScript

variable {text : List Char}

/-- A stretch of a text, from one offset up to another. -/
structure Slice where
  start : Nat
  stop : Nat
  deriving DecidableEq, Repr

namespace Slice

/-- The characters of the stretch. -/
def of (text : List Char) (s : Slice) : List Char := (text.take s.stop).drop s.start

def covers (s : Slice) (offset : Nat) : Bool := s.start ≤ offset && offset < s.stop

/-- From the place of its first offset to that of the last one. -/
def range (text : List Char) (s : Slice) : Range :=
  ⟨.endOf (text.take s.start), .endOf (text.take s.stop)⟩

end Slice

def covered (slices : List Slice) (offset : Nat) : Bool := slices.any (·.covers offset)

def strayAt (text : List Char) (slices : List Slice) (offset : Nat) : Option Diagnostic :=
  if covered slices offset then none
  else text[offset]?.bind fun c =>
    if Text.isBlank c then none
    else some (.of (.unexpectedCharacter c) (Slice.range text ⟨offset, offset + 1⟩))

/-- The scan of a text from the offset `n` on, with the slices of its tokens. -/
structure Sliced (text : List Char) (n : Nat) (scan : Scan) (slices : List Slice) : Prop where
  tokens : List.Forall₂ (fun t s => t.text.toList = s.of text ∧ t.range = s.range text)
    scan.tokens slices
  within : ∀ s ∈ slices, n ≤ s.start ∧ s.start ≤ s.stop ∧ s.stop ≤ text.length
  ordered : slices.Pairwise fun a b => a.start < b.start ∧ a.stop ≤ b.start
  strays : scan.diagnostics.filter (·.code = 1002) =
    (List.range' n (text.length - n)).filterMap (strayAt text slices)
  reports : ∀ d ∈ scan.diagnostics, d.code = 1002 ∨
    ∃ t s, (t, s) ∈ scan.tokens.zip slices ∧ t.kind = .stringLiteral ∧
      IsOpenString (s.of text) ∧ d = .of .unterminatedString (s.range text)

theorem Position.endOf_append (done slice : List Char) :
    (endOf done).after slice = endOf (done ++ slice) := by
  rw [← after_origin, ← after_origin, after_append]

namespace Slice

variable (done slice rest : List Char)

@[simp] theorem of_append :
    of (done ++ (slice ++ rest)) ⟨done.length, done.length + slice.length⟩ = slice := by
  simp [of, ← List.append_assoc]

@[simp] theorem range_append :
    range (done ++ (slice ++ rest)) ⟨done.length, done.length + slice.length⟩ =
      ⟨.endOf done, .endOf (done ++ slice)⟩ := by
  unfold range
  rw [List.take_left, ← List.append_assoc, List.take_left' List.length_append]

end Slice

namespace Sliced

variable {done slice rest : List Char} {scan : Scan} {slices : List Slice}

theorem strays_cons (n m k : Nat) :
    (List.range' n (m + k)).filterMap (strayAt text (⟨n, n + m⟩ :: slices)) =
      (List.range' (n + m) k).filterMap (strayAt text slices) := by
  have inside : (List.range' n m).filterMap (strayAt text (⟨n, n + m⟩ :: slices)) = [] := by
    refine List.filterMap_eq_nil_iff.mpr fun i mem => ?_
    have bounds := List.mem_range'_1.mp mem
    simp [strayAt, covered, Slice.covers, bounds]
  have later : ∀ i ∈ List.range' (n + m) k,
      strayAt text (⟨n, n + m⟩ :: slices) i = strayAt text slices i := by
    intro i mem
    have bound := (List.mem_range'_1.mp mem).1
    simp [strayAt, covered, Slice.covers, Nat.not_lt.mpr bound]
  rw [← List.range'_append_1, List.filterMap_append, inside, List.nil_append,
    List.filterMap_congr later]

theorem cons (h : Sliced (done ++ (slice ++ rest)) (done.length + slice.length) scan slices)
    (code : slice ≠ []) {t : Token} (content : t.text.toList = slice)
    (range : t.range = ⟨.endOf done, .endOf (done ++ slice)⟩) {new : List Diagnostic}
    (reports : ∀ d ∈ new, t.kind = .stringLiteral ∧ IsOpenString slice ∧
      d = .of .unterminatedString t.range) :
    Sliced (done ++ (slice ++ rest)) done.length ⟨t :: scan.tokens, new ++ scan.diagnostics⟩
      (⟨done.length, done.length + slice.length⟩ :: slices) := by
  have some : 0 < slice.length := List.length_pos_iff.mpr code
  refine ⟨?_, ?_, ?_, ?_, ?_⟩
  · exact .cons ⟨by simp [content], by simp [range]⟩ h.tokens
  · refine List.forall_mem_cons.mpr ⟨⟨Nat.le_refl _, Nat.le_add_right _ _, by simp⟩, ?_⟩
    exact fun s mem => ⟨Nat.le_trans (Nat.le_add_right _ _) (h.within s mem).1, (h.within s mem).2⟩
  · refine List.pairwise_cons.mpr ⟨fun s mem => ?_, h.ordered⟩
    have after := (h.within s mem).1
    exact ⟨Nat.lt_of_lt_of_le (Nat.lt_add_of_pos_right some) after, after⟩
  · have none : new.filter (·.code = 1002) = [] := by
      refine List.filter_eq_nil_iff.mpr fun d mem => ?_
      rw [(reports d mem).2.2]
      exact Bool.noConfusion
    have length : (done ++ (slice ++ rest)).length - done.length = slice.length + rest.length := by
      simp
    have left : (done ++ (slice ++ rest)).length - (done.length + slice.length) = rest.length := by
      simp only [List.length_append]
      omega
    rw [List.filter_append, none, List.nil_append, h.strays, length, left, strays_cons]
  · intro d mem
    rcases List.mem_append.mp mem with own | later
    · obtain ⟨kind, isOpen, same⟩ := reports d own
      refine .inr ⟨t, _, List.mem_cons_self, kind, ?_, ?_⟩
      · simpa using isOpen
      · simp [same, range]
    · rcases h.reports d later with stray | ⟨u, s, mem, string⟩
      · exact .inl stray
      · exact .inr ⟨u, s, List.mem_cons_of_mem _ mem, string⟩

theorem skip {c : Char} (h : Sliced (done ++ c :: rest) (done.length + 1) scan slices)
    {new : List Diagnostic} (reports : new = if Text.isBlank c then [] else
      [.of (.unexpectedCharacter c) ⟨.endOf done, .endOf (done ++ [c])⟩]) :
    Sliced (done ++ c :: rest) done.length ⟨scan.tokens, new ++ scan.diagnostics⟩ slices := by
  refine ⟨h.tokens, ?_, h.ordered, ?_, ?_⟩
  · exact fun s mem => ⟨Nat.le_of_succ_le (h.within s mem).1, (h.within s mem).2⟩
  · have free : covered slices done.length = false := by
      refine List.any_eq_false.mpr fun s mem => ?_
      simp [Slice.covers, Nat.not_le.mpr (h.within s mem).1]
    have here : new.filter (·.code = 1002) =
        (strayAt (done ++ c :: rest) slices done.length).toList := by
      have range := Slice.range_append done [c] rest
      simp only [List.singleton_append, List.length_singleton] at range
      rw [reports, strayAt, free]
      cases blank : Text.isBlank c with
      | true => simp [blank]
      | false =>
        simp only [Bool.false_eq_true, if_false, List.getElem?_append_right (Nat.le_refl _),
          Nat.sub_self, List.getElem?_cons_zero, Option.bind_some, blank, range]
        rfl
    have length : (done ++ c :: rest).length - done.length = rest.length + 1 := by simp
    have left : (done ++ c :: rest).length - (done.length + 1) = rest.length := by
      simp only [List.length_append, List.length_cons]
      omega
    rw [List.filter_append, here, h.strays, length, left, List.range'_succ]
    cases stray : strayAt (done ++ c :: rest) slices done.length with
    | none => rw [List.filterMap_cons_none stray]; rfl
    | some d => rw [List.filterMap_cons_some stray]; rfl
  · intro d mem
    rcases List.mem_append.mp mem with own | later
    · left
      rw [reports] at own
      split at own
      · cases own
      · rw [List.mem_singleton.mp own]
        rfl
    · exact h.reports d later

end Sliced

/-- A scan that begins after some text. -/
theorem sliced_run (last : Option Kind) (start : Position) (text done : List Char)
    (here : start = .endOf done) :
    ∃ slices, Sliced (done ++ text) done.length (.run last start text) slices := by
  induction last, start, text using Scan.run_induction generalizing done with
  | nil last start =>
    refine ⟨[⟨done.length, done.length⟩], ?_⟩
    rw [Scan.run, here]
    exact ⟨.cons (by simp [Token.endOfFile, Slice.of, Slice.range, Range.empty]) .nil, by simp,
      List.pairwise_singleton _ _, by simp, by simp⟩
  | cons last start c cs lexeme read ih =>
    have stop : start.after (lexeme.slice c cs) = .endOf (done ++ lexeme.slice c cs) := by
      rw [here, Position.endOf_append]
    obtain ⟨slices, rest⟩ := ih _ stop
    rw [List.append_assoc, List.length_append] at rest
    rw [Scan.run_cons, read, ← lexeme.slice_append c cs]
    have range : (⟨start, start.after (lexeme.slice c cs)⟩ : Range) =
        ⟨.endOf done, .endOf (done ++ lexeme.slice c cs)⟩ := by rw [stop, here]
    have proper : lexeme.Proper c cs := read ▸ Lexeme.read_proper _
    obtain ⟨reading, extra⟩ := lexeme
    cases reading with
    | token k v =>
      exact ⟨_, rest.cons (List.cons_ne_nil _ _) String.toList_ofList range (List.forall_mem_nil _)⟩
    | openString v =>
      refine ⟨_, rest.cons (List.cons_ne_nil _ _) String.toList_ofList range ?_⟩
      exact List.forall_mem_singleton.mpr ⟨rfl, proper, rfl⟩
    | blank =>
      obtain ⟨blank, rfl⟩ := proper
      exact ⟨_, rest.skip (by simp [Scan.problemsOf, blank])⟩
    | stray =>
      obtain ⟨visible, rfl⟩ := proper
      refine ⟨_, rest.skip ?_⟩
      rw [visible, if_neg Bool.noConfusion]
      exact congrArg (fun r => [Diagnostic.of (.unexpectedCharacter c) r]) range

theorem sliced_scan (source : String) : ∃ slices, Sliced source.toList 0 (scan source) slices :=
  sliced_run none .origin source.toList [] rfl

theorem strayAt_eq_some {slices : List Slice} {i : Nat} {d : Diagnostic} :
    strayAt text slices i = some d ↔ ∃ c, text[i]? = some c ∧ covered slices i = false ∧
      Text.isBlank c = false ∧ d = .of (.unexpectedCharacter c) (Slice.range text ⟨i, i + 1⟩) := by
  unfold strayAt
  cases covered slices i with
  | true => simp
  | false =>
    cases text[i]? with
    | none => simp
    | some c =>
      cases blank : Text.isBlank c with
      | true => simp [blank]
      | false => simp only [Bool.false_eq_true, if_false, Option.bind_some, blank,
          Option.some.injEq, exists_eq_left', true_and, eq_comm]

namespace Position

theorem not_step_le (p : Position) (c : Char) : ¬ p.step c ≤ p := by
  have wide : 0 < units c := by unfold units; split <;> decide
  unfold step
  split
  all_goals
    rw [le_def]
    simp only
    omega

theorem after_ne (some : text ≠ []) (p : Position) : p.after text ≠ p := by
  cases text with
  | nil => exact absurd rfl some
  | cons c text =>
    intro same
    have le : p.step c ≤ p.after (c :: text) := le_after (p.step c) text
    rw [same] at le
    exact not_step_le p c le

theorem endOf_take_ne {i j : Nat} (less : i < j) (le : j ≤ text.length) :
    endOf (text.take i) ≠ endOf (text.take j) := by
  have cut := List.take_append_drop i (text.take j)
  rw [List.take_take, Nat.min_eq_left less.le] at cut
  have some : (text.take j).drop i ≠ [] := by
    rw [← List.length_pos_iff, List.length_drop, List.length_take]
    omega
  rw [← cut, ← endOf_append]
  exact (after_ne some _).symm

theorem endOf_take_inj {i j : Nat} (hi : i ≤ text.length) (hj : j ≤ text.length)
    (same : endOf (text.take i) = endOf (text.take j)) : i = j := by
  rcases Nat.lt_trichotomy i j with less | rfl | less
  · exact absurd same (endOf_take_ne less hj)
  · rfl
  · exact absurd same.symm (endOf_take_ne less hi)

end Position

theorem Sliced.strayAt_of_mem {n : Nat} {scan : Scan} {slices : List Slice}
    (h : Sliced text n scan slices) {d : Diagnostic} (mem : d ∈ scan.diagnostics)
    (code : d.code = 1002) : ∃ i, strayAt text slices i = some d := by
  have kept : d ∈ scan.diagnostics.filter (·.code = 1002) := by simp [mem, code]
  rw [h.strays] at kept
  obtain ⟨i, _, stray⟩ := List.mem_filterMap.mp kept
  exact ⟨i, stray⟩

theorem Sliced.report {scan : Scan} {slices : List Slice} (h : Sliced text 0 scan slices) {i : Nat}
    {d : Diagnostic} (stray : strayAt text slices i = some d) :
    scan.diagnostics.filter (fun d => d.code = 1002 ∧ d.range.start = .endOf (text.take i)) =
      [d] := by
  have place : ∀ {j e}, strayAt text slices j = some e →
      j < text.length ∧ e.range.start = .endOf (text.take j) := by
    intro j e at_j
    obtain ⟨c, found, _, _, rfl⟩ := strayAt_eq_some.mp at_j
    exact ⟨(List.getElem?_eq_some_iff.mp found).1, rfl⟩
  obtain ⟨bound, start⟩ := place stray
  have elsewhere : ∀ j, j ≠ i →
      (strayAt text slices j).filter (·.range.start = .endOf (text.take i)) = none := by
    intro j other
    refine Option.filter_eq_none_iff.mpr fun e at_j same => other ?_
    obtain ⟨bound', start'⟩ := place at_j
    exact Position.endOf_take_inj bound'.le bound.le (start'.symm.trans (of_decide_eq_true same))
  obtain ⟨k, length⟩ : ∃ k, text.length = i + (k + 1) := ⟨text.length - i - 1, by omega⟩
  have split : List.range' 0 text.length = List.range' 0 i ++ i :: List.range' (i + 1) k := by
    rw [length, ← List.range'_append_1, Nat.zero_add, List.range'_succ]
  have filters : scan.diagnostics.filter
      (fun d => d.code = 1002 ∧ d.range.start = .endOf (text.take i)) =
        (scan.diagnostics.filter (·.code = 1002)).filter (·.range.start = .endOf (text.take i)) := by
    rw [List.filter_filter]
    exact List.filter_congr fun d _ => by rw [Bool.and_comm, Bool.decide_and]
  rw [filters, h.strays, Nat.sub_zero, List.filter_filterMap, split, List.filterMap_append,
    List.filterMap_cons_some (b := d) (by rw [stray, Option.filter_some_pos (by simpa using start)]),
    List.filterMap_eq_nil_iff.mpr, List.filterMap_eq_nil_iff.mpr]
  · rfl
  · exact fun j mem => elsewhere j (by have := (List.mem_range'_1.mp mem).1; omega)
  · exact fun j mem => elsewhere j (by have := (List.mem_range'_1.mp mem).2; omega)

/-- Every character of a source is in the slice of one token, or is a blank, or is reported. -/
theorem scan_lossless (source : String) :
    ∃ slices : List Slice,
      List.Forall₂ (fun t s => t.text.toList = s.of source.toList) (scan source).tokens slices ∧
      (∀ s ∈ slices, s.start ≤ s.stop ∧ s.stop ≤ source.length) ∧
      slices.Pairwise (fun a b => a.start < b.start ∧ a.stop ≤ b.start) ∧
      (∃ front last, (scan source).tokens = front ++ [last] ∧
        last.kind = .endOfFile ∧ last.text = "" ∧ ∀ t ∈ front, t.kind ≠ .endOfFile) ∧
      (∀ i c, source.toList[i]? = some c → covered slices i = false →
        c ∈ [' ', '\t', '\r', '\ufeff', '\u00a0'] ∨
        (scan source).diagnostics.filter
            (fun d => d.code = 1002 ∧ d.range.start = .endOf (source.toList.take i)) =
          [.of (.unexpectedCharacter c) (Slice.range source.toList ⟨i, i + 1⟩)]) ∧
      ∀ d ∈ (scan source).diagnostics, d.code = 1002 →
        ∃ i c, source.toList[i]? = some c ∧ covered slices i = false ∧
          c ∉ [' ', '\t', '\r', '\ufeff', '\u00a0'] ∧
          d = .of (.unexpectedCharacter c) (Slice.range source.toList ⟨i, i + 1⟩) := by
  obtain ⟨slices, h⟩ := sliced_scan source
  obtain ⟨front, tokens, code⟩ := Scan.run_endOfFile none .origin source.toList
  have blank : ∀ c, c ∈ [' ', '\t', '\r', '\ufeff', '\u00a0'] ↔ Text.isBlank c = true := by
    simp [Text.isBlank, or_assoc]
  refine ⟨slices, h.tokens.imp fun _ _ both => both.1, fun s mem => ?_, h.ordered,
    ⟨front, _, tokens, rfl, rfl, code⟩, fun i c found free => ?_, fun d mem isStray => ?_⟩
  · exact String.length_toList ▸ (h.within s mem).2
  · rw [blank]
    cases visible : Text.isBlank c with
    | true => exact .inl rfl
    | false => exact .inr (h.report (strayAt_eq_some.mpr ⟨c, found, free, visible, rfl⟩))
  · obtain ⟨i, stray⟩ := h.strayAt_of_mem mem isStray
    obtain ⟨c, found, free, visible, same⟩ := strayAt_eq_some.mp stray
    exact ⟨i, c, found, free, by simp [blank, visible], same⟩

namespace Scan

theorem oneLine_run (last : Option Kind) (start : Position) (text : List Char) :
    ∀ t ∈ (run last start text).tokens, t.kind ≠ .newline →
      t.range.start.line = t.range.stop.line := by
  induction last, start, text using run_induction with
  | nil last start =>
    rw [run]
    exact List.forall_mem_singleton.mpr fun _ => rfl
  | cons last start c cs lexeme read ih =>
    rw [run_cons, read]
    refine List.forall_mem_append.mpr ⟨fun t mem code => ?_, ih⟩
    have line : '\n' ∉ lexeme.slice c cs := by
      by_cases feed : c = '\n'
      · obtain rfl : lexeme = ⟨.token .newline none, 0⟩ := by rw [← read, feed]; rfl
        exact absurd (by rw [List.mem_singleton.mp mem]) code
      · exact read ▸ Lexeme.feed_not_mem_read cs feed
    have range : t.range = ⟨start, start.after (lexeme.slice c cs)⟩ := by
      cases reading : lexeme.reading with
      | token k v => rw [reading] at mem; rw [List.mem_singleton.mp mem]
      | openString v => rw [reading] at mem; rw [List.mem_singleton.mp mem]
      | blank => rw [reading] at mem; cases mem
      | stray => rw [reading] at mem; cases mem
    rw [range]
    exact (Position.line_after line start).symm

end Scan

theorem Position.endOf_le (text : List Char) :
    (endOf text).line ≤ text.length ∧ (endOf text).column ≤ 2 * text.length := by
  induction text using List.reverseRecOn with
  | nil => exact ⟨Nat.le_refl 0, Nat.le_refl 0⟩
  | append_singleton text c ih =>
    have narrow : units c ≤ 2 := by unfold units; split <;> decide
    rw [endOf_concat, List.length_append, List.length_singleton]
    unfold step
    split
    · exact ⟨Nat.add_le_add_right ih.1 1, Nat.zero_le _⟩
    · exact ⟨Nat.le_succ_of_le ih.1, Nat.add_le_add ih.2 narrow⟩

/-- The places in a scan are those of the slices, so they never go back. -/
theorem scan_positions (source : String) (short : source.length < 2 ^ 31) :
    ∃ slices : List Slice,
      List.Forall₂ (fun t s => t.text.toList = s.of source.toList ∧ t.range = s.range source.toList)
        (scan source).tokens slices ∧
      (∀ s ∈ slices, s.start ≤ s.stop ∧ s.stop ≤ source.length) ∧
      slices.Pairwise (fun a b => a.start < b.start ∧ a.stop ≤ b.start) ∧
      (∀ d ∈ (scan source).diagnostics,
        (∃ i c, source.toList[i]? = some c ∧ covered slices i = false ∧
          d = .of (.unexpectedCharacter c) (Slice.range source.toList ⟨i, i + 1⟩)) ∨
        ∃ t s, (t, s) ∈ (scan source).tokens.zip slices ∧ t.kind = .stringLiteral ∧
          IsOpenString (s.of source.toList) ∧
          d = .of .unterminatedString (s.range source.toList)) ∧
      (scan source).tokens.Pairwise (fun t next => t.range.stop ≤ next.range.start) ∧
      (∀ t ∈ (scan source).tokens, t.range.start ≤ t.range.stop ∧
        (t.kind ≠ .newline → t.range.start.line = t.range.stop.line)) ∧
      ∀ i, (Position.endOf (source.toList.take i)).line < 2 ^ 32 ∧
        (Position.endOf (source.toList.take i)).column < 2 ^ 32 := by
  obtain ⟨slices, h⟩ := sliced_scan source
  have ordered := ordered_scan source
  refine ⟨slices, h.tokens, fun s mem => ?_, h.ordered, fun d mem => ?_, ordered.sorted,
    fun t mem => ⟨ordered.proper t mem, Scan.oneLine_run _ _ _ t mem⟩, fun i => ?_⟩
  · exact String.length_toList ▸ (h.within s mem).2
  · refine (h.reports d mem).imp (fun isStray => ?_) id
    obtain ⟨i, stray⟩ := h.strayAt_of_mem mem isStray
    obtain ⟨c, found, free, _, same⟩ := strayAt_eq_some.mp stray
    exact ⟨i, c, found, free, same⟩
  · have bound := Position.endOf_le (source.toList.take i)
    have length : (source.toList.take i).length ≤ source.length := by
      rw [List.length_take, String.length_toList]
      exact Nat.min_le_right _ _
    omega

/- A name, a character of two code units that is not known, and a string that its line cuts off. -/
theorem scan_positions_mixed :
    "a😀\"b\nc".length < 2 ^ 31 ∧
    ∃ slices : List Slice,
      List.Forall₂ (fun t s => t.text.toList = s.of "a😀\"b\nc".toList ∧
          t.range = s.range "a😀\"b\nc".toList) (scan "a😀\"b\nc").tokens slices ∧
      ∀ s ∈ slices, s.start ≤ s.stop ∧ s.stop ≤ "a😀\"b\nc".length :=
  ⟨by decide, (scan_positions "a😀\"b\nc" (by decide)).imp fun _ h => ⟨h.1, h.2.1⟩⟩

end BrightScript
