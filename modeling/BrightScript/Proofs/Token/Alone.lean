import BrightScript.Proofs.Token.Slices

/-! Tokens that stand alone.
A token is read with what stands around it: the token before it, a second word behind it, the end
of its line. Without carriage returns none of that is needed to read its text again. -/
namespace BrightScript
namespace Lexeme

variable {a : Bool} {c : Char} {cs : List Char}

theorem quoted_take (isOpen : (quoted cs).closed = false) (ret : '\r' ∉ cs) :
    quoted (cs.take (quoted cs).length) = quoted cs := by
  fun_induction quoted cs with
  | case1 => rfl
  | case2 cs q ih =>
    have rest := ih isOpen fun mem => ret (List.mem_cons_of_mem _ (List.mem_cons_of_mem _ mem))
    rw [List.take_succ_cons, List.take_succ_cons, quoted, rest]
  | case3 => cases isOpen
  | case4 => rfl
  | case5 => rfl
  | case6 => rfl
  | case7 c cs _ quote feed _ _ q ih =>
    have other : c ≠ '\r' := fun same => ret (same ▸ List.mem_cons_self)
    have rest := ih isOpen fun mem => ret (List.mem_cons_of_mem _ mem)
    rw [List.take_succ_cons, quoted, rest]
    · exact fun _ same _ => quote same
    · exact quote
    · exact feed
    · exact fun same _ => other same
    · exact fun _ same _ => other same

theorem string_take {value : String} {n : Nat} (h : string cs = ⟨.openString value, n⟩)
    (ret : '\r' ∉ cs) : string (cs.take n) = ⟨.openString value, n⟩ := by
  have length : (quoted cs).length = n := by rw [← string_extra, h]
  have isOpen : (quoted cs).closed = false := by
    cases closed : (quoted cs).closed with
    | false => rfl
    | true =>
      rw [string, closed] at h
      cases h
  have again : string (cs.take n) = string cs := by
    unfold string
    rw [← length, quoted_take isOpen ret]
  rw [again, h]

theorem comment_take {v : Option Value} {n : Nat} (h : read a c cs = ⟨.token .comment v, n⟩)
    (ret : '\r' ∉ cs) : read false c (cs.take n) = ⟨.token .comment v, n⟩ := by
  obtain ⟨rfl, le, _, comment, _⟩ := read_eq_comment h
  have last : (cs.take n).getLast? ≠ some '\r' := fun same =>
    ret (List.mem_of_mem_take (List.mem_of_getLast? same))
  have again := read_comment (a := false) comment .nil fun same => absurd same last
  rw [List.append_nil, Comment.shown, if_neg last, List.length_take, Nat.min_eq_left le] at again
  exact again

theorem read_slice {lexeme : Lexeme} (h : read a c cs = lexeme) (ret : '\r' ∉ cs)
    (token : lexeme.reading.kind? ≠ none) : read false c (cs.take lexeme.extra) = lexeme := by
  have proper : lexeme.Proper c cs := h ▸ read_proper a
  obtain ⟨reading, n⟩ := lexeme
  cases reading with
  | token k v =>
    by_cases comment : k = .comment
    · subst comment
      exact comment_take h ret
    · exact (read_alone h comment).2
  | openString value =>
    obtain rfl : c = '"' := Option.some.inj proper.1
    exact string_take h ret
  | blank => exact absurd rfl token
  | stray => exact absurd rfl token

end Lexeme

namespace Scan

theorem run_slice {a : Bool} {c : Char} {cs : List Char} {lexeme : Lexeme}
    (h : Lexeme.read a c cs = lexeme) (ret : '\r' ∉ cs) (token : lexeme.reading.kind? ≠ none)
    (start : Position) :
    run none start (lexeme.slice c cs) = push lexeme.reading c (lexeme.slice c cs) start
      ⟨[.endOfFile (start.after (lexeme.slice c cs))], []⟩ := by
  have alone : Lexeme.read (endsOperand none) c (cs.take lexeme.extra) = lexeme :=
    Lexeme.read_slice h ret token
  have whole : lexeme.slice c (cs.take lexeme.extra) = lexeme.slice c cs := by
    simp [Lexeme.slice, List.take_take]
  have done : (cs.take lexeme.extra).drop lexeme.extra = [] := by simp
  rw [Lexeme.slice, run_cons]
  simp only [alone, whole, done]
  rw [run]
  rfl

/-- A token of a text is the only one of its own. -/
theorem run_of_mem {last : Option Kind} {start : Position} {text : List Char} {t : Token}
    (ret : '\r' ∉ text) (mem : t ∈ (run last start text).tokens) (code : t.kind ≠ .endOfFile)
    (p : Position) :
    let stop := p.after t.text.toList
    (run none p t.text.toList).tokens =
        [⟨t.kind, t.text, ⟨p, stop⟩, t.value⟩, .endOfFile stop] ∧
      (¬ IsOpenString t.text.toList → (run none p t.text.toList).diagnostics = []) ∧
      (IsOpenString t.text.toList →
        (run none p t.text.toList).diagnostics = [.of .unterminatedString ⟨p, stop⟩]) := by
  induction last, start, text using run_induction with
  | nil last start =>
    rw [run] at mem
    exact absurd (by rw [List.mem_singleton.mp mem]; rfl) code
  | cons last start c cs lexeme read ih =>
    rw [run_cons, read] at mem
    have ret' : '\r' ∉ cs := fun mem => ret (List.mem_cons_of_mem _ mem)
    rcases List.mem_append.mp mem with own | later
    · have proper : lexeme.Proper c cs := read ▸ Lexeme.read_proper _
      have alone := run_slice read ret'
      obtain ⟨reading, n⟩ := lexeme
      cases reading with
      | token k v =>
        obtain rfl := List.mem_singleton.mp own
        simp only [String.toList_ofList, alone (Option.some_ne_none _)]
        exact ⟨rfl, fun _ => rfl, fun isOpen => absurd isOpen proper⟩
      | openString v =>
        obtain rfl := List.mem_singleton.mp own
        simp only [String.toList_ofList, alone (Option.some_ne_none _)]
        exact ⟨rfl, fun closed => absurd proper closed, fun _ => rfl⟩
      | blank => cases own
      | stray => cases own
    · exact ih (fun mem => ret' (List.mem_of_mem_drop mem)) later

end Scan

/-- Every token of a source is scanned again by itself, and is then all there is. -/
theorem scan_alone (source : String) (ret : '\r' ∉ source.toList) (t : Token)
    (mem : t ∈ (scan source).tokens) (code : t.kind ≠ .endOfFile) :
    let stop := Position.origin.after t.text.toList
    (scan t.text).tokens = [⟨t.kind, t.text, ⟨.origin, stop⟩, t.value⟩, .endOfFile stop] ∧
      (¬ IsOpenString t.text.toList → (scan t.text).diagnostics = []) ∧
      (IsOpenString t.text.toList →
        (scan t.text).diagnostics = [.of .unterminatedString ⟨.origin, stop⟩]) :=
  Scan.run_of_mem ret mem code .origin

/- A numeral that begins with a point, two words that are one keyword, and a string that its line
cuts off. -/
theorem scan_alone_mixed :
    let source := "x=.5e+\n END  if\n\"a\"\"b\nrem c"
    let t : Token := ⟨.stringLiteral, "\"a\"\"b", ⟨⟨2, 0⟩, ⟨2, 5⟩⟩, some (.string "a\"b")⟩
    '\r' ∉ source.toList ∧ t ∈ (scan source).tokens ∧
      (∀ t ∈ (scan source).tokens, t.kind ≠ .endOfFile →
        (scan t.text).tokens.map Token.word = [t.word, .endOfFile]) ∧
      (scan t.text).diagnostics = [.of .unterminatedString ⟨⟨0, 0⟩, ⟨0, 5⟩⟩] := by
  refine ⟨by decide, by decide +kernel, fun t mem code => ?_, ?_⟩
  · rw [(scan_alone _ (by decide) t mem code).1]
    rfl
  · exact (scan_alone "x=.5e+\n END  if\n\"a\"\"b\nrem c" (by decide) _ (by decide +kernel)
      Kind.noConfusion).2.2 ⟨rfl, rfl⟩

end BrightScript
