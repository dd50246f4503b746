import BrightScript.Proofs.Token.Spells
import Mathlib.Data.List.Chain

/-! What holds of the tokens of a text that is scanned without a report. -/
namespace BrightScript

open Text (startsWith startsWithFraction)

variable {n : Nat} {v : Option Value} {c : Char} {cs text : List Char} {k : Kind}
    {last : Option Kind} {a : Bool} {start : Position}

/- The parser sees a list of tokens from some place on, so all of this holds of every tail of the
list as well. -/
structure Scanned (tokens : List Token) : Prop where
  genuine : ∀ t ∈ tokens, t.kind ≠ .endOfFile → t.kind ≠ .comment → t.word.Genuine
  comment : ∀ t ∈ tokens, t.kind = .comment →
    IsComment t.text.toList ∧ t.range.start.line = t.range.stop.line
  /- A point after an operand begins no numeral. -/
  point : tokens.IsChain fun t u => Scan.endsOperand (some t.kind) = true → u.word.isPoint = false
  /- A comment reaches to the end of its line. -/
  lines : tokens.Pairwise fun t u => t.kind = .comment → u.kind = .comment →
    t.range.stop.line < u.range.start.line

theorem Scanned.suffix {tokens tail : List Token} (h : Scanned tokens) (suffix : tail <:+ tokens) :
    Scanned tail where
  genuine t mem := h.genuine t (suffix.mem mem)
  comment t mem := h.comment t (suffix.mem mem)
  point := h.point.suffix suffix
  lines := h.lines.sublist suffix.sublist

/-- A quote and no other to close it: inside a string each of them is doubled. -/
def IsOpenString (text : List Char) : Prop := text.head? = some '"' ∧ text.count '"' % 2 = 1

namespace Lexeme

theorem takeWhile_eq_line (cs : List Char) :
    '\n' ∉ cs.takeWhile (· ≠ '\n') := by
  intro mem
  have := List.all_eq_true.mp List.all_takeWhile _ mem
  simp at this

theorem drop_lineLength (cs : List Char) :
    lineLength cs ≤ cs.length ∧ '\n' ∉ cs.take (lineLength cs) ∧
      (EndsLine (cs.drop (lineLength cs)) ∨ cs.drop (lineLength cs) = ['\r']) := by
  let line := cs.takeWhile (· ≠ '\n')
  have cs_eq : cs = line ++ cs.dropWhile (· ≠ '\n') := List.takeWhile_append_dropWhile.symm
  have feed : '\n' ∉ line := takeWhile_eq_line cs
  have after : cs.dropWhile (· ≠ '\n') = [] ∨ ∃ ds, cs.dropWhile (· ≠ '\n') = '\n' :: ds := by
    have stops := startsWith_dropWhile (· ≠ '\n') cs
    cases h : cs.dropWhile (· ≠ '\n') with
    | nil => exact .inl rfl
    | cons d ds =>
      rw [h] at stops
      have : d = '\n' := by simpa using stops
      exact .inr ⟨ds, by rw [this]⟩
  by_cases ret : line.getLast? = some '\r'
  · obtain ⟨init, line_eq⟩ := List.getLast?_eq_some_iff.mp ret
    have length : lineLength cs = init.length := by
      simp only [lineLength]
      rw [if_pos ret, show cs.takeWhile (· ≠ '\n') = line from rfl, line_eq]
      simp
    have split_cs : cs = init ++ '\r' :: cs.dropWhile (· ≠ '\n') := by
      conv => lhs; rw [cs_eq, line_eq]
      simp
    rw [length]
    refine ⟨?_, ?_, ?_⟩
    · have := congrArg List.length split_cs
      simp at this
      omega
    · rw [split_cs, List.take_left]
      intro mem
      exact feed (line_eq ▸ List.mem_append_left _ mem)
    · have rest_eq : cs.drop init.length = '\r' :: cs.dropWhile (· ≠ '\n') := by
        conv => lhs; rw [split_cs]
        rw [List.drop_left]
      rw [rest_eq]
      rcases after with none | ⟨ds, more⟩
      · exact .inr (by rw [none])
      · exact .inl (by rw [more]; exact .return ds)
  · have length : lineLength cs = line.length := by
      simp only [lineLength]
      rw [if_neg ret]
    rw [length]
    refine ⟨Text.length_takeWhile_le _ cs, ?_, .inl ?_⟩
    · rw [Text.take_length_takeWhile]
      exact feed
    · rw [drop_length_takeWhile]
      rcases after with none | ⟨ds, more⟩
      · rw [none]
        exact .nil
      · rw [more]
        exact .feed ds

def mayJoin : Kind → Bool
  | .end_ | .exit | .else_ | .if_ | .for_ | .while_ | .function | .sub => true
  | _ => false

theorem keyword_eq_token {kind : Kind} {extra : Nat} {after : List Char}
    (h : keyword kind extra after = ⟨.token k v, n⟩) :
    (kind = k ∧ n = extra ∧ (isFirstWord kind = true → secondWord? kind after = none)) ∨
      ∃ second, Kind.combine? kind second = some k := by
  rcases keyword_cases kind extra after with ⟨_, same, alone⟩ | ⟨both, length, same, second⟩
  · cases same.symm.trans h
    exact .inl ⟨rfl, rfl, alone⟩
  · cases same.symm.trans h
    obtain ⟨_, _, _, _, _, _, _, _, _, _, joined, _, combined⟩ := secondWord?_eq_some second
    exact .inr ⟨joined, combined⟩

theorem isKeyword_of_token {text : String} {kind : Kind} {extra : Nat} {after : List Char}
    (found : Kind.ofKeyword? text = some kind) (h : keyword kind extra after = ⟨.token k v, n⟩) :
    k.isKeyword = true := by
  rcases keyword_eq_token h with ⟨rfl, _⟩ | ⟨_, combined⟩
  · exact isKeyword_of_keyword found
  · exact isKeyword_of_combine combined

/-- A token is a word, a comment, a string, a numeral or a mark. -/
theorem read_eq_token (h : read a c cs = ⟨.token k v, n⟩) :
    (Text.isWordStart c = true ∧ word c cs = ⟨.token k v, n⟩) ∨
      (c = '\'' ∧ k = .comment ∧ v = none ∧ n = lineLength cs) ∨
      (c = '"' ∧ string cs = ⟨.token k v, n⟩) ∨ k.isNumeral = true ∨ k.boundary ≠ .word := by
  cases start : Text.isWordStart c with
  | true => exact .inl ⟨rfl, by rw [← read_word start, h]⟩
  | false =>
    right
    unfold read at h
    split at h
    · cases h
    split at h
    · rename_i remark
      cases h
      exact .inl ⟨remark, rfl, rfl, rfl⟩
    split at h
    · rename_i quote
      exact .inr (.inl ⟨quote, h⟩)
    split at h
    · split at h
      · exact .inr (.inr (.inl (isNumeral_of_number h)))
      · cases h
        exact .inr (.inr (.inr (by decide)))
    split at h
    · cases cs with
      | nil => rename_i hex; simp at hex
      | cons d ds => exact .inr (.inr (.inl (isNumeral_of_hexNumber h)))
    split at h
    · exact .inr (.inr (.inl (isNumeral_of_number h)))
    rw [start] at h
    cases single : single? c with
    | some kind =>
      have notWord : kind.boundary ≠ .word := by
        unfold single? at single
        split at single <;> cases single <;> decide
      rw [single] at h
      cases h
      exact .inr (.inr (.inr notWord))
    | none =>
      cases op : operator c cs with
      | none => simp [single, op] at h
      | some lexeme =>
        obtain rfl : lexeme = ⟨.token k v, n⟩ := by simpa [single, op] using h
        rw [boundary_of_operator op]
        exact .inr (.inr (.inr (by decide)))

theorem word_eq_token (h : word c cs = ⟨.token k v, n⟩) :
    k = .identifier ∨
      ∃ part after, cs = part ++ after ∧ part.all Text.isWordPart = true ∧
        startsWith Text.isWordPart after = false ∧ startsWith Text.isDesignator after = false ∧
        (((String.ofList (c :: part)).toLower = "rem" ∧ k = .comment ∧ v = none ∧
            n = part.length + lineLength after) ∨
          ∃ kind, Kind.ofKeyword? (String.ofList (c :: part)).toLower = some kind ∧
            keyword kind part.length after = ⟨.token k v, n⟩) := by
  obtain ⟨part, after, rfl, parts, apart⟩ := exists_word cs
  rw [word_append c parts apart] at h
  cases designator : startsWith Text.isDesignator after with
  | true =>
    rw [designator] at h
    cases h
    exact .inl rfl
  | false =>
    simp only [designator, plainWord, List.length_cons, Nat.add_sub_cancel] at h
    by_cases remark : (String.ofList (c :: part)).toLower = "rem"
    · simp only [remark] at h
      cases h
      exact .inr ⟨part, after, rfl, parts, apart, designator, .inl ⟨remark, rfl, rfl, rfl⟩⟩
    · simp only [remark] at h
      cases found : Kind.ofKeyword? (String.ofList (c :: part)).toLower with
      | none =>
        rw [found] at h
        cases h
        exact .inl rfl
      | some kind =>
        rw [found] at h
        exact .inr ⟨part, after, rfl, parts, apart, designator, .inr ⟨kind, found, h⟩⟩

theorem read_eq_joining (h : read a c cs = ⟨.token k v, n⟩) (join : mayJoin k = true) :
    Text.isWordStart c = true ∧ ∃ part after, cs = part ++ after ∧ n = part.length ∧
      part.all Text.isWordPart = true ∧ startsWith Text.isWordPart after = false ∧
      startsWith Text.isDesignator after = false ∧
      Kind.ofKeyword? (String.ofList (c :: part)).toLower = some k ∧
      (isFirstWord k = true → secondWord? k after = none) := by
  have kinds : k ≠ .comment ∧ k ≠ .identifier ∧ k ≠ .stringLiteral ∧ k.isNumeral = false ∧
      k.boundary = .word := by
    unfold mayJoin at join
    split at join
    all_goals first | exact ⟨by decide, by decide, by decide, rfl, rfl⟩ | cases join
  obtain ⟨code, name, string, numeral, boundary⟩ := kinds
  rcases read_eq_token h with ⟨start, h⟩ | ⟨_, comment, _⟩ | ⟨_, h⟩ | isNumeral | mark
  · refine ⟨start, ?_⟩
    rcases word_eq_token h with isName | ⟨part, after, rfl, parts, apart, designator, inner⟩
    · exact absurd isName name
    · rcases inner with ⟨_, comment, _⟩ | ⟨kind, found, h⟩
      · exact absurd comment code
      · rcases keyword_eq_token h with ⟨rfl, length, second⟩ | ⟨second, combined⟩
        · exact ⟨part, after, rfl, length, parts, apart, designator, found, second⟩
        · unfold Kind.combine? at combined
          split at combined <;> cases combined <;> cases join
  · exact absurd comment code
  · exact absurd (string_eq_token h).2.1 string
  · rw [numeral] at isNumeral
    cases isNumeral
  · exact absurd boundary mark

theorem read_eq_comment (h : read a c cs = ⟨.token .comment v, n⟩) :
    v = none ∧ n ≤ cs.length ∧ '\n' ∉ cs.take n ∧ IsComment (c :: cs.take n) ∧
      (EndsLine (cs.drop n) ∨ cs.drop n = ['\r']) := by
  rcases read_eq_token h with ⟨start, h⟩ | ⟨rfl, _, rfl, rfl⟩ | ⟨_, h⟩ | isNumeral | mark
  · rcases word_eq_token h with isName | ⟨part, after, rfl, parts, apart, designator, inner⟩
    · cases isName
    · rcases inner with ⟨remark, _, rfl, rfl⟩ | ⟨kind, found, h⟩
      · obtain ⟨le, feed, ends⟩ := drop_lineLength after
        have part_feed : '\n' ∉ part := by
          intro mem
          exact absurd (List.all_eq_true.mp parts _ mem) (by decide)
        have cut : (part ++ after).take (part.length + lineLength after) =
            part ++ after.take (lineLength after) := by
          rw [List.take_add, List.take_left, List.drop_left]
        have first : c ≠ '\n' := by
          rintro rfl
          cases start
        have line : '\n' ∉ part ++ after.take (lineLength after) := by
          simp [part_feed, feed]
        refine ⟨rfl, by simpa using le, by rwa [cut], ⟨?_, .inr ?_⟩, ?_⟩
        · rw [cut]
          simpa [first.symm] using line
        · refine ⟨c, part, after.take (lineLength after), by rw [cut], start, parts, remark, ?_, ?_⟩
          · simpa using startsWith_take_append (lineLength after) apart (Text.startsWith_nil _)
          · simpa using startsWith_take_append (lineLength after) designator (Text.startsWith_nil _)
        · rw [← List.drop_drop, List.drop_left]
          exact ends
      · cases isKeyword_of_token found h
  · obtain ⟨le, feed, ends⟩ := drop_lineLength cs
    exact ⟨rfl, le, feed, ⟨by simpa using feed, .inl ⟨_, rfl⟩⟩, ends⟩
  · cases (string_eq_token h).2.1
  · cases isNumeral
  · exact absurd rfl mark

theorem number_reading (c : Char) (cs : List Char) :
    ∃ k v, (number c cs).reading = .token k v := by
  rw [number]
  unfold typedNumeral
  split
  iterate 4 exact ⟨_, _, rfl⟩
  split
  · exact ⟨_, _, rfl⟩
  · unfold wholeNumber
    split <;> exact ⟨_, _, rfl⟩

theorem hexNumber_reading (cs : List Char) : ∃ k v, (hexNumber cs).reading = .token k v := by
  unfold hexNumber typedHex
  dsimp only
  split <;> exact ⟨_, _, rfl⟩

theorem keyword_reading (kind : Kind) (extra : Nat) (rest : List Char) :
    ∃ k v, (keyword kind extra rest).reading = .token k v := by
  rcases keyword_cases kind extra rest with ⟨_, same, _⟩ | ⟨_, _, same, _⟩ <;>
    exact ⟨_, _, congrArg Lexeme.reading same⟩

theorem word_reading (c : Char) (cs : List Char) : ∃ k v, (word c cs).reading = .token k v := by
  unfold word
  dsimp only
  split
  · exact ⟨_, _, rfl⟩
  split
  · exact ⟨_, _, rfl⟩
  split
  · exact keyword_reading _ _ _
  · exact ⟨_, _, rfl⟩

theorem operator_reading {lexeme : Lexeme}
    (found : operator c cs = some lexeme) : ∃ k v, lexeme.reading = .token k v := by
  unfold operator at found
  split at found <;> cases found <;> exact ⟨_, _, rfl⟩

theorem count_quoted (cs : List Char) :
    (cs.take (quoted cs).length).count '"' % 2 = (quoted cs).closed.toNat := by
  fun_induction quoted cs with
  | case1 => rfl
  | case2 cs q ih =>
    rw [List.take_succ_cons, List.take_succ_cons, List.count_cons_self, List.count_cons_self,
      Nat.add_assoc, Nat.add_mod_right]
    exact ih
  | case3 => rfl
  | case4 => rfl
  | case5 => rfl
  | case6 => rfl
  | case7 c cs _ quote _ _ _ q ih =>
    rw [List.take_succ_cons, List.count_cons_of_ne quote]
    exact ih

/-- What is no token is an open string or one character: a blank, or one that is not known. -/
def Proper (lexeme : Lexeme) (c : Char) (cs : List Char) : Prop :=
  match lexeme.reading with
  | .token _ _ => ¬ IsOpenString (c :: cs.take lexeme.extra)
  | .openString _ => IsOpenString (c :: cs.take lexeme.extra)
  | .blank => Text.isBlank c = true ∧ lexeme.extra = 0
  | .stray => Text.isBlank c = false ∧ lexeme.extra = 0

theorem Proper.of_token {lexeme : Lexeme} (other : c ≠ '"')
    (h : ∃ k v, lexeme.reading = .token k v) : lexeme.Proper c cs := by
  obtain ⟨k, v, same⟩ := h
  unfold Proper
  rw [same]
  exact fun isOpen => other (Option.some.inj isOpen.1)

theorem string_proper : (string cs).Proper '"' cs := by
  have pairs := count_quoted cs
  unfold string
  dsimp only
  split
  · rename_i closed
    rintro ⟨_, odd⟩
    change ('"' :: cs.take (quoted cs).length).count '"' % 2 = 1 at odd
    rw [closed, Bool.toNat_true] at pairs
    rw [List.count_cons_self] at odd
    omega
  · rename_i closed
    rw [Bool.eq_false_iff.mpr closed, Bool.toNat_false] at pairs
    refine ⟨rfl, ?_⟩
    change ('"' :: cs.take (quoted cs).length).count '"' % 2 = 1
    rw [List.count_cons_self]
    omega

theorem read_proper (a : Bool) : (read a c cs).Proper c cs := by
  cases blank : Text.isBlank c with
  | true =>
    rw [read_blank blank]
    exact ⟨blank, rfl⟩
  | false =>
    rw [read, if_neg (by simp [blank])]
    split_ifs with comment quote
    · exact .of_token (by simp [comment]) ⟨_, _, rfl⟩
    · exact quote ▸ string_proper
    · exact .of_token quote (number_reading _ _)
    · exact .of_token quote ⟨_, _, rfl⟩
    · exact .of_token quote (hexNumber_reading _)
    · exact .of_token quote (number_reading _ _)
    · exact .of_token quote (word_reading _ _)
    · split
      · exact .of_token quote ⟨_, _, rfl⟩
      · rename_i found
        exact .of_token quote (operator_reading found)
      · exact ⟨blank, rfl⟩

theorem isBlank_of_read (h : (read a c cs).reading = .blank) : Text.isBlank c = true := by
  have proper : (read a c cs).Proper c cs := read_proper a
  rw [Proper, h] at proper
  exact proper.1

end Lexeme

namespace Word.Genuine

variable {x : Word}

theorem read_word (h : x.Genuine) (word : x.kind.isWord = true) :
    ∃ c cs, x.text.toList = c :: cs ∧ Text.isWordStart c = true ∧
      Lexeme.word c cs = ⟨.token x.kind x.value, cs.length⟩ := by
  obtain ⟨c, cs, text, read⟩ := h.read
  have kinds : x.kind ≠ .stringLiteral ∧ x.kind.isNumeral = false ∧ x.kind.boundary = .word := by
    revert word
    cases x.kind <;> decide
  rcases Lexeme.read_eq_token read with ⟨start, word⟩ | ⟨_, comment, _⟩ | ⟨_, string⟩ | isNumeral |
    mark
  · exact ⟨c, cs, text, start, word⟩
  · exact absurd comment h.code
  · exact absurd (Lexeme.string_eq_token string).2.1 kinds.1
  · rw [kinds.2.1] at isNumeral
    cases isNumeral
  · exact absurd kinds.2.2 mark

theorem starts_word (h : x.Genuine) (word : x.kind.isWord = true) :
    startsWith Text.isWordStart x.text.toList = true := by
  obtain ⟨c, cs, text, start, _⟩ := h.read_word word
  rw [text]
  exact start

theorem isPoint_eq_false (h : x.Genuine) (word : x.kind.isWord = true) : x.isPoint = false := by
  have start := h.starts_word word
  unfold Word.isPoint
  cases text : x.text.toList with
  | nil => simp
  | cons c cs =>
    rw [text] at start
    have : c ≠ '.' := by
      rintro rfl
      cases start
    simp [this]

theorem isNumeral_of_isPoint (h : x.Genuine) (point : x.isPoint = true) :
    x.kind.isNumeral = true := by
  obtain ⟨c, cs, text, read⟩ := h.read
  unfold Word.isPoint at point
  rw [text, Bool.and_eq_true, decide_eq_true_eq] at point
  obtain ⟨other, first⟩ := point
  obtain rfl : c = '.' := of_decide_eq_true first
  have dispatch : Lexeme.read false '.' cs =
      if cs.head?.any Char.isDigit && !false then Lexeme.number '.' cs else Lexeme.mark .dot 0 := rfl
  rw [dispatch] at read
  split at read
  · exact Lexeme.isNumeral_of_number read
  · cases kind : x.kind <;> rw [kind] at read other <;> first | cases read | exact absurd rfl other

theorem unsigned (h : x.Genuine) (sign : x.kind.boundary ≠ .sign) (equal : x.kind ≠ .equal)
    (rest : List Char) : startsWith Text.isSign (x.text.toList ++ rest) = false := by
  obtain ⟨c, cs, text, read⟩ := h.read
  rw [text, List.cons_append]
  cases isSign : Text.isSign c with
  | false => exact isSign
  | true =>
    simp only [Text.isSign, Bool.or_eq_true, decide_eq_true_eq] at isSign
    have single : c ≠ '=' := by
      rintro rfl
      have same : x.kind = .equal := by
        have := (show Lexeme.read false '=' cs = Lexeme.mark .equal 0 from rfl).symm.trans read
        simp only [Lexeme.mark, Lexeme.mk.injEq, Reading.token.injEq] at this
        exact this.1.1.symm
      exact equal same
    have other : Text.isBlank c = false ∧ c ≠ '\'' ∧ c ≠ '"' ∧ c ≠ '.' ∧ c ≠ '&' ∧
        c.isDigit = false ∧ Text.isWordStart c = false ∧ Lexeme.single? c = none := by
      rcases isSign with (((rfl | rfl) | rfl) | rfl) | rfl
      · decide
      · decide
      · exact absurd rfl single
      · decide
      · decide
    have dispatch : Lexeme.read false c cs = (Lexeme.operator c cs).getD ⟨.stray, 0⟩ := by
      cases found : Lexeme.operator c cs <;> simp [Lexeme.read, other, found]
    rw [dispatch] at read
    cases found : Lexeme.operator c cs with
    | none =>
      rw [found] at read
      cases read
    | some lexeme =>
      rw [found] at read
      obtain rfl : lexeme = _ := read
      exact absurd (Lexeme.boundary_of_operator found) sign

end Word.Genuine

namespace Lexeme

theorem word_kind (h : word c cs = ⟨.token k v, n⟩) : k = .comment ∨ k.isWord = true := by
  rcases word_eq_token h with rfl | ⟨_, _, _, _, _, _, ⟨_, comment, _⟩ | ⟨kind, found, h⟩⟩
  · exact .inr rfl
  · exact .inl comment
  · exact .inr (by rw [Kind.isWord, isKeyword_of_token found h, Bool.or_true])

theorem read_eq_string (h : read a c cs = ⟨.token .stringLiteral v, n⟩) :
    ∃ value, v = some (.string value) ∧ String.ofList (c :: cs.take n) = Emit.quote value ∧
      '\n' ∉ value.toList := by
  rcases read_eq_token h with ⟨_, word⟩ | ⟨_, comment, _⟩ | ⟨rfl, read⟩ | isNumeral | mark
  · rcases word_kind word with kind | kind <;> cases kind
  · cases comment
  · obtain ⟨closed, _, value, rfl⟩ := string_eq_token read
    obtain ⟨spelling, line, _⟩ := quoted_of_closed closed
    refine ⟨_, value, ?_, ?_⟩
    · rw [Emit.quote, String.toList_ofList, List.cons_append, ← spelling]
    · rwa [String.toList_ofList]
  · cases isNumeral
  · exact absurd rfl mark

end Lexeme

theorem Word.Genuine.quote {x : Word} (h : x.Genuine) (string : x.kind = .stringLiteral) :
    ∃ value, x.value = some (.string value) ∧ x.text = Emit.quote value := by
  obtain ⟨c, cs, text, read⟩ := h.read
  rw [string] at read
  obtain ⟨value, same, spelling, _⟩ := Lexeme.read_eq_string read
  rw [List.take_length, ← text, String.ofList_toList] at spelling
  exact ⟨value, same, spelling⟩

theorem Word.genuine_quote {value : String} (line : '\n' ∉ value.toList) :
    (⟨.stringLiteral, Emit.quote value, some (.string value)⟩ : Word).Genuine := by
  refine ⟨by simp, '"', Emit.doubleQuotes value.toList ++ ['"'], String.toList_ofList, ?_⟩
  have read := Lexeme.string_doubleQuotes line (Text.startsWith_nil _)
  rw [String.ofList_toList] at read
  have quoted : Lexeme.read false '"' (Emit.doubleQuotes value.toList ++ ['"']) =
      Lexeme.string (Emit.doubleQuotes value.toList ++ ['"']) := rfl
  rw [quoted, read, List.length_append]
  rfl

theorem Lexeme.read_alone (h : read a c cs = ⟨.token k v, n⟩) (code : k ≠ .comment) :
    n ≤ cs.length ∧ read false c (cs.take n) = ⟨.token k v, n⟩ := by
  have alone : secondWord? k [] = none := rfl
  have again : n ≤ cs.length ∧ read false c (cs.take n ++ []) = ⟨.token k v, n⟩ :=
    read_reread h code (Apart.nil k) alone fun operand => by cases operand
  rwa [List.append_nil] at again

namespace Spells

variable {ws : List Word}

theorem genuine (h : Spells last text ws) {x : Word} (mem : x ∈ ws) (file : x.kind ≠ .endOfFile)
    (code : x.kind ≠ .comment) : x.Genuine := by
  induction h with
  | nil =>
    obtain rfl := List.mem_singleton.mp mem
    exact absurd rfl file
  | blank _ _ ih => exact ih mem
  | @token _ c cs _ k v n read _ ih =>
    rcases List.mem_cons.mp mem with rfl | mem
    · obtain ⟨le, again⟩ := Lexeme.read_alone read code
      refine ⟨code, c, cs.take n, String.toList_ofList, ?_⟩
      rw [again, List.length_take, Nat.min_eq_left le]
    · exact ih mem

theorem isComment (h : Spells last text ws) {x : Word} (mem : x ∈ ws) (comment : x.kind = .comment) :
    IsComment x.text.toList := by
  induction h with
  | nil =>
    obtain rfl := List.mem_singleton.mp mem
    cases comment
  | blank _ _ ih => exact ih mem
  | token read _ ih =>
    rcases List.mem_cons.mp mem with rfl | mem
    · obtain rfl : _ = Kind.comment := comment
      rw [String.toList_ofList]
      exact (Lexeme.read_eq_comment read).2.2.2.1
    · exact ih mem

theorem head_isPoint (h : Spells last text ws) (operand : Scan.endsOperand last = true) {x : Word}
    (head : ws.head? = some x) : x.isPoint = false := by
  induction h with
  | nil =>
    cases head
    rfl
  | blank _ _ ih => exact ih operand head
  | @token _ c cs _ k v n read _ _ =>
    cases head
    by_cases point : c = '.'
    · subst point
      have dot : Lexeme.read true '.' cs = Lexeme.mark .dot 0 := by simp [Lexeme.read, Text.isBlank]
      rw [operand, dot] at read
      cases read
      rfl
    · simp [Word.isPoint, point]

theorem isPoint (h : Spells last text ws) :
    ws.IsChain fun x y => Scan.endsOperand (some x.kind) = true → y.isPoint = false := by
  induction h with
  | nil => exact .singleton _
  | blank _ _ ih => exact ih
  | token _ rest ih =>
    refine ih.cons fun y head operand => rest.head_isPoint operand ?_
    exact head

end Spells
namespace Position

theorem line_le_after (p : Position) (text : List Char) : p.line ≤ (p.after text).line := by
  induction text generalizing p with
  | nil => exact Nat.le_refl _
  | cons c text ih =>
    refine Nat.le_trans ?_ (ih (p.step c))
    unfold step
    split
    · exact Nat.le_succ _
    · exact Nat.le_refl _

theorem line_after (feed : '\n' ∉ text) (p : Position) : (p.after text).line = p.line := by
  induction text generalizing p with
  | nil => rfl
  | cons c text ih =>
    have first : c ≠ '\n' := fun same => feed (same ▸ List.mem_cons_self)
    rw [after_cons, ih (fun mem => feed (List.mem_cons_of_mem _ mem))]
    simp [step, first]

end Position

namespace Scan

theorem line_le_of_mem {t : Token} (mem : t ∈ (run last start text).tokens) :
    start.line ≤ t.range.start.line := by
  fun_induction run last start text with
  | case1 =>
    obtain rfl := List.mem_singleton.mp mem
    exact Nat.le_refl _
  | case2 last start c cs lexeme taken stop here rest ih =>
    rcases List.mem_append.mp mem with own | later
    · have range : t.range.start = start := by
        simp only [here, tokensOf] at own
        split at own <;> simp_all
      rw [range]
    · exact Nat.le_trans (Position.line_le_after start taken) (ih later)

theorem line_lt_of_endsLine {rest : List Char} {t : Token} (ends : EndsLine rest ∨ rest = ['\r'])
    (mem : t ∈ (run last start rest).tokens) (comment : t.kind = .comment) :
    start.line < t.range.start.line := by
  have feed : ∀ {last : Option Kind} {start : Position} {cs : List Char},
      t ∈ (run last start ('\n' :: cs)).tokens → start.line < t.range.start.line := by
    intro last start cs mem
    have read : ∀ a, Lexeme.read a '\n' cs = Lexeme.mark .newline 0 := fun _ => rfl
    rw [run] at mem
    simp only [read, Lexeme.mark, tokensOf, List.singleton_append, List.take_zero] at mem
    rcases List.mem_cons.mp mem with rfl | later
    · cases comment
    · exact line_le_of_mem later
  have ret : ∀ {start : Position} {cs : List Char}, t ∈ (run last start ('\r' :: cs)).tokens →
      ∃ stop, stop.line = start.line ∧ t ∈ (run last stop cs).tokens := by
    intro start cs mem
    have read : ∀ a, Lexeme.read a '\r' cs = ⟨.blank, 0⟩ := fun _ => rfl
    rw [run] at mem
    simp only [read, tokensOf, List.nil_append, List.take_zero, List.drop_zero] at mem
    exact ⟨start.after ['\r'], rfl, mem⟩
  have finish : ∀ {start : Position}, ¬ t ∈ (run last start []).tokens := by
    intro start mem
    rw [run] at mem
    obtain rfl := List.mem_singleton.mp mem
    cases comment
  rcases ends with ends | rfl
  · cases ends with
    | nil => exact absurd mem finish
    | feed cs => exact feed mem
    | «return» cs =>
      obtain ⟨stop, line, mem⟩ := ret mem
      rw [← line]
      exact feed mem
  · obtain ⟨stop, _, mem⟩ := ret mem
    exact absurd mem finish

theorem lines_of_comment (read : Lexeme.read (endsOperand last) c cs = ⟨.token .comment v, n⟩) :
    let stop := start.after (c :: cs.take n)
    start.line = stop.line ∧ ∀ u ∈ (run (some .comment) stop (cs.drop n)).tokens,
      u.kind = .comment → stop.line < u.range.start.line := by
  obtain ⟨_, _, _, comment, ends⟩ := Lexeme.read_eq_comment read
  exact ⟨(Position.line_after comment.line start).symm,
    fun u mem kind => line_lt_of_endsLine ends mem kind⟩

theorem lines_of_run (last : Option Kind) (start : Position) (text : List Char) :
    (∀ t ∈ (run last start text).tokens, t.kind = .comment →
      t.range.start.line = t.range.stop.line) ∧
    (run last start text).tokens.Pairwise fun t u => t.kind = .comment → u.kind = .comment →
      t.range.stop.line < u.range.start.line := by
  fun_induction run last start text with
  | case1 => simp [Token.endOfFile]
  | case2 last start c cs lexeme taken stop here rest ih =>
    obtain ⟨lines, later⟩ := ih
    -- only a comment says something about its own line and about what comes after it
    have own : ∀ t ∈ here, t.kind = .comment →
        t.range.start.line = t.range.stop.line ∧
          ∀ u ∈ rest.tokens, u.kind = .comment → t.range.stop.line < u.range.start.line := by
      intro t mem comment
      cases reading : lexeme.reading with
      | blank => simp [here, reading, tokensOf] at mem
      | stray => simp [here, reading, tokensOf] at mem
      | openString v =>
        obtain rfl : t = _ := by simpa [here, reading, tokensOf] using mem
        cases comment
      | token k v =>
        have one : here = [⟨k, String.ofList taken, ⟨start, stop⟩, v⟩] := by
          simp [here, reading, tokensOf]
        obtain rfl : t = ⟨k, String.ofList taken, ⟨start, stop⟩, v⟩ := by simpa [one] using mem
        obtain rfl : k = .comment := comment
        have read : Lexeme.read (endsOperand last) c cs = ⟨.token .comment v, lexeme.extra⟩ :=
          show lexeme = _ by rw [← reading]
        have rest_eq : rest = run (some .comment) stop (cs.drop lexeme.extra) := by
          simp only [rest, one]
          rfl
        rw [rest_eq]
        exact lines_of_comment read
    have single : here.Pairwise fun t u => t.kind = .comment → u.kind = .comment →
        t.range.stop.line < u.range.start.line := by
      simp only [here, tokensOf]
      split <;> simp
    refine ⟨fun t mem comment => ?_, List.pairwise_append.mpr ⟨single, later, ?_⟩⟩
    · rcases List.mem_append.mp mem with mem | mem
      · exact (own t mem comment).1
      · exact lines t mem comment
    · exact fun t mem u mem' comment comment' => (own t mem comment).2 u mem' comment'

end Scan

theorem scanned_of_run (quiet : (Scan.run last start text).diagnostics = []) :
    Scanned (Scan.run last start text).tokens := by
  have spells := spells_of_run quiet
  have lines := Scan.lines_of_run last start text
  refine ⟨fun t mem file code => ?_, fun t mem comment => ⟨?_, lines.1 t mem comment⟩, ?_, lines.2⟩
  · exact spells.genuine (List.mem_map_of_mem mem) file code
  · exact spells.isComment (List.mem_map_of_mem mem) comment
  · exact (List.isChain_map _).mp spells.isPoint

/-- Tokens that are not read together as one keyword. -/
def Separate (tokens : List Token) : Prop :=
  tokens.IsChain fun t u => Kind.combine? t.kind u.kind = none

theorem Separate.suffix {tokens tail : List Token} (h : Separate tokens) (suffix : tail <:+ tokens) :
    Separate tail := List.IsChain.suffix h suffix

/- The only blanks of the text are spaces and tabs. -/
def PlainBlanks (text : List Char) : Prop :=
  ∀ c ∈ text, Text.isBlank c = true → Text.isSpace c = true

theorem PlainBlanks.drop (h : PlainBlanks (c :: cs)) (n : Nat) : PlainBlanks (cs.drop n) :=
  fun d mem => h d (List.mem_cons_of_mem _ (List.mem_of_mem_drop mem))

theorem combine?_kinds {first second both : Kind} (h : Kind.combine? first second = some both) :
    Lexeme.isFirstWord first = true ∧ Lexeme.mayJoin first = true ∧ Lexeme.mayJoin second = true := by
  unfold Kind.combine? at h
  split at h <;> first | exact ⟨rfl, rfl, rfl⟩ | cases h

namespace Spells

theorem after_spaces {ws : List Word} (h : Spells last text ws) (plain : PlainBlanks text) :
    ws = [.endOfFile] ∨ ∃ blanks c cs k v n, text = blanks ++ c :: cs ∧
      blanks.all Text.isSpace = true ∧
      Lexeme.read (Scan.endsOperand last) c cs = ⟨.token k v, n⟩ ∧ Word.next ws = k := by
  induction h with
  | nil => exact .inl rfl
  | @blank last c cs ws n read rest ih =>
    have isBlank : Text.isBlank c = true := Lexeme.isBlank_of_read (by rw [read])
    rw [Lexeme.read_blank isBlank] at read
    cases read
    rcases ih (plain.drop 0) with file | ⟨blanks, d, ds, k, v, m, same, spaces, token, next⟩
    · exact .inl file
    · refine .inr ⟨c :: blanks, d, ds, k, v, m, ?_, ?_, token, next⟩
      · rw [List.cons_append, ← same, List.drop_zero]
      · simp [spaces, plain c List.mem_cons_self isBlank]
  | @token last c cs ws k v n read _ _ =>
    exact .inr ⟨[], c, cs, k, v, n, rfl, rfl, read, rfl⟩

theorem combine?_next {rest : List Char} {ws : List Word} (h : Spells (some k) rest ws)
    (plain : PlainBlanks rest)
    (alone : Lexeme.isFirstWord k = true → Lexeme.secondWord? k rest = none) :
    Kind.combine? k (Word.next ws) = none := by
  cases combined : Kind.combine? k (Word.next ws) with
  | none => rfl
  | some both =>
    obtain ⟨first, _, join⟩ := combine?_kinds combined
    rcases h.after_spaces plain with rfl | ⟨blanks, c, cs, k', v, n, rfl, spaces, read, rfl⟩
    · cases join
    · obtain ⟨start, part, after, rfl, _, parts, apart, designator, keyword, _⟩ :=
        Lexeme.read_eq_joining read join
      have parts' : (c :: part).all Text.isWordPart = true := by
        simp [parts, Text.isWordPart_of_isWordStart start]
      have second := Lexeme.secondWord?_append spaces parts' start keyword combined apart designator
      rw [List.cons_append, alone first] at second
      cases second

theorem separate {ws : List Word} (h : Spells last text ws) (plain : PlainBlanks text) :
    ws.IsChain fun x y => Kind.combine? x.kind y.kind = none := by
  induction h with
  | nil => exact .singleton _
  | blank _ _ ih => exact ih (plain.drop _)
  | @token last c cs ws k v n read rest ih =>
    refine (ih (plain.drop _)).cons fun y head => ?_
    have alone : Lexeme.isFirstWord k = true → Lexeme.secondWord? k (cs.drop n) = none := by
      intro first
      have join : Lexeme.mayJoin k = true := by
        unfold Lexeme.isFirstWord at first
        split at first <;> first | rfl | cases first
      obtain ⟨_, part, after, rfl, rfl, _, _, _, _, second⟩ := Lexeme.read_eq_joining read join
      rw [List.drop_left]
      exact second first
    have next := rest.combine?_next (plain.drop _) alone
    rw [Word.next, show ws.head? = some y from head] at next
    exact next

end Spells

theorem separate_of_run (quiet : (Scan.run last start text).diagnostics = [])
    (plain : PlainBlanks text) : Separate (Scan.run last start text).tokens :=
  (List.isChain_map _).mp ((spells_of_run quiet).separate plain)

end BrightScript
