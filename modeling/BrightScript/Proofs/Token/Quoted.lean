import BrightScript.Proofs.Token.Scanned

/-! String literals and their values.
A value without a line feed has one literal, which is read back as that value. Every string in a
text is such a literal, unless it is reported that its line ends before it does. -/
namespace BrightScript
namespace Scan

theorem run_genuine {x : Word} (genuine : x.Genuine) (start : Position) :
    let stop := start.after x.text.toList
    run none start x.text.toList =
      ⟨[⟨x.kind, x.text, ⟨start, stop⟩, x.value⟩, .endOfFile stop], []⟩ := by
  obtain ⟨c, cs, text, read⟩ := genuine.read
  have alone : Lexeme.read (endsOperand none) c cs = ⟨.token x.kind x.value, cs.length⟩ := read
  have whole : String.ofList (c :: cs) = x.text := by rw [← text, String.ofList_toList]
  rw [text, run, alone]
  simp only [tokensOf, problemsOf, List.take_length, List.drop_length, run, whole]
  rfl

theorem quote_of_run {last : Option Kind} {start : Position} {text : List Char} {t : Token}
    (mem : t ∈ (run last start text).tokens) (string : t.kind = .stringLiteral)
    (closed : ∀ d ∈ (run last start text).diagnostics, d.range = t.range → d.code ≠ 1001) :
    ∃ value, t.value = some (.string value) ∧ t.text = Emit.quote value ∧
      '\n' ∉ value.toList := by
  fun_induction run last start text with
  | case1 =>
    obtain rfl := List.mem_singleton.mp mem
    cases string
  | case2 last start c cs lexeme taken stop here rest ih =>
    rcases List.mem_append.mp mem with own | later
    · cases reading : lexeme.reading with
      | token k v =>
        simp only [here, tokensOf, reading, List.mem_singleton] at own
        subst own
        obtain rfl : k = .stringLiteral := string
        exact Lexeme.read_eq_string (n := lexeme.extra) (by rw [← reading])
      | openString v =>
        simp only [here, tokensOf, reading, List.mem_singleton] at own
        subst own
        refine absurd rfl (closed (.of .unterminatedString ⟨start, stop⟩) ?_ rfl)
        simp [problemsOf, reading]
      | blank => simp [here, tokensOf, reading] at own
      | stray => simp [here, tokensOf, reading] at own
    · exact ih later fun d reported => closed d (List.mem_append_right _ reported)

end Scan

/-- Writing a value as a string literal and scanning it are each other's inverse. -/
theorem scan_quote_inverse :
    (∀ value : String, '\n' ∉ value.toList →
      let stop := Position.origin.after (Emit.quote value).toList
      (scan (Emit.quote value)).tokens =
          [⟨.stringLiteral, Emit.quote value, ⟨.origin, stop⟩, some (.string value)⟩,
            .endOfFile stop] ∧
        (scan (Emit.quote value)).diagnostics = []) ∧
    ∀ source, ∀ t ∈ (scan source).tokens, t.kind = .stringLiteral →
      (∀ d ∈ (scan source).diagnostics, d.range = t.range → d.code ≠ 1001) →
      ∃ value, t.value = some (.string value) ∧ t.text = Emit.quote value ∧
        '\n' ∉ value.toList := by
  refine ⟨fun value line => ?_, fun _ _ mem string closed => Scan.quote_of_run mem string closed⟩
  rw [scan, Scan.run_genuine (Word.genuine_quote line)]
  exact ⟨rfl, rfl⟩

/- A string before one that stays open. -/
theorem scan_quote_inverse_open :
    let t : Token := ⟨.stringLiteral, "\"a\"\"b\"", ⟨⟨0, 6⟩, ⟨0, 12⟩⟩, some (.string "a\"b")⟩
    t ∈ (scan "print \"a\"\"b\" + \"c").tokens ∧ (scan (Emit.quote "a\"b")).diagnostics = [] ∧
      ∃ value, t.value = some (.string value) ∧ t.text = Emit.quote value ∧
        '\n' ∉ value.toList := by
  refine ⟨by decide +kernel, (scan_quote_inverse.1 "a\"b" (by decide)).2, ?_⟩
  exact scan_quote_inverse.2 "print \"a\"\"b\" + \"c" _ (by decide +kernel) rfl (by decide +kernel)

end BrightScript
