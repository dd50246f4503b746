import BrightScript.Proofs.Token.Reread

/-! Which texts may follow a token.
`Apart k rest` says that `rest` does not touch a token of kind `k`. A token that is put before such
a text is read as it was, unless it is a keyword that makes one with the next word. -/
namespace BrightScript

open Text (startsWith startsWithFraction isSpace)

variable {k : Kind} {c : Char} {rest : List Char}

/-- What could prolong a token. -/
inductive Kind.Boundary where
  | none
  | digit
  | sign
  | word
  deriving DecidableEq

def Kind.boundary : Kind → Kind.Boundary
  | newline | leftParen | rightParen | leftSquare | rightSquare | leftCurly | rightCurly | comma
  | colon | semicolon | questionMark | equal | caret => .none
  | dot => .digit
  | lessGreater | less | lessEqual | greater | greaterEqual | plus | minus | star | slash
  | backslash | leftShift | rightShift | plusPlus | minusMinus | plusEqual | minusEqual | starEqual
  | slashEqual | backslashEqual | leftShiftEqual | rightShiftEqual => .sign
  | _ => .word

def Kind.isNumeral : Kind → Bool
  | integerLiteral | longIntegerLiteral | floatLiteral | doubleLiteral => true
  | _ => false

def Text.isSign (c : Char) : Bool := c = '<' || c = '>' || c = '=' || c = '+' || c = '-'

/- Characters that could belong to a word or to a literal before them. -/
structure EndsWord (rest : List Char) : Prop where
  part : startsWith Text.isWordPart rest = false
  designator : startsWith Text.isDesignator rest = false
  quote : startsWith (· = '"') rest = false
  point : startsWithFraction rest = false

def Apart (k : Kind) (rest : List Char) : Prop :=
  match k.boundary with
  | .none => True
  | .digit => startsWith Char.isDigit rest = false
  | .sign => startsWith Text.isSign rest = false
  | .word => EndsWord rest

theorem Apart.nil (k : Kind) : Apart k [] := by
  unfold Apart
  split
  · trivial
  · rfl
  · rfl
  · exact ⟨rfl, rfl, rfl, rfl⟩

def Text.isGap (c : Char) : Bool :=
  !isWordPart c && !isDesignator c && !isSign c && c ≠ '"' && c ≠ '.'

theorem Apart.of_gap (k : Kind) (cs : List Char) (gap : Text.isGap c = true) :
    Apart k (c :: cs) := by
  simp only [Text.isGap, Bool.and_eq_true, Bool.not_eq_true', decide_eq_true_eq] at gap
  obtain ⟨⟨⟨⟨part, designator⟩, sign⟩, quote⟩, point⟩ := gap
  unfold Apart
  split
  · trivial
  · exact Text.startsWith_eq_false_of_imp (fun _ => Text.isWordPart_of_isDigit) part
  · exact sign
  · exact ⟨part, designator, by simpa using quote, by simp [startsWithFraction, point]⟩

theorem EndsWord.of_apart (apart : Apart k rest) (word : k.boundary = .word) : EndsWord rest := by
  simpa [Apart, word] using apart

namespace EndsWord

theorem numeral (h : EndsWord rest) : Lexeme.EndsNumeral rest := ⟨h.part, h.point⟩

theorem suffix (h : EndsWord rest) : startsWith Lexeme.isNumeralSuffix rest = false :=
  Text.startsWith_eq_false_of_imp
    (fun c suffix => by
      simp only [Lexeme.isNumeralSuffix, Bool.or_eq_true, decide_eq_true_eq] at suffix
      rcases suffix with ((rfl | rfl) | rfl) | rfl <;> rfl) h.designator

end EndsWord

namespace Lexeme

variable {n : Nat} {cs : List Char} {v : Option Value}

theorem isWordPart_of_isDesignator (h : Text.isDesignator c = true) :
    Text.isWordPart c = false := by
  simp only [Text.isDesignator, Bool.or_eq_true, decide_eq_true_eq] at h
  rcases h with (((rfl | rfl) | rfl) | rfl) | rfl <;> rfl

theorem isWordPart_of_isSpace (h : Text.isSpace c = true) : Text.isWordPart c = false := by
  simp only [Text.isSpace, Bool.or_eq_true, decide_eq_true_eq] at h
  rcases h with rfl | rfl <;> rfl

theorem drop_length_takeWhile (p : Char → Bool) (text : List Char) :
    text.drop (text.takeWhile p).length = text.dropWhile p := by
  conv => lhs; arg 2; rw [← List.takeWhile_append_dropWhile (p := p) (l := text)]
  rw [List.drop_left]

theorem startsWith_dropWhile (p : Char → Bool) (text : List Char) :
    startsWith p (text.dropWhile p) = false := by
  induction text with
  | nil => rfl
  | cons c cs ih => cases h : p c <;> simp [h, ih]

theorem exists_word (cs : List Char) : ∃ part after, cs = part ++ after ∧
    part.all Text.isWordPart = true ∧ startsWith Text.isWordPart after = false :=
  ⟨_, _, List.takeWhile_append_dropWhile.symm, List.all_takeWhile, startsWith_dropWhile _ _⟩

theorem secondWord?_eq_some {first both : Kind} (h : secondWord? first cs = some (both, n)) :
    ∃ blanks word after, cs = blanks ++ (word ++ after) ∧ n = blanks.length + word.length ∧
      blanks.all isSpace = true ∧ word.all Text.isWordPart = true ∧
      startsWith Text.isWordStart word = true ∧ startsWith Text.isWordPart after = false ∧
      startsWith Text.isDesignator after = false ∧
      (∃ second, Kind.ofKeyword? (String.ofList word).toLower = some second ∧
        Kind.combine? first second = some both) := by
  let blanks := cs.takeWhile isSpace
  let rest := cs.dropWhile isSpace
  let word := rest.takeWhile Text.isWordPart
  have rest_eq : cs.drop (cs.takeWhile isSpace).length = rest := drop_length_takeWhile isSpace cs
  simp only [secondWord?, rest_eq] at h
  split at h
  · rename_i starts
    simp only [Bool.and_eq_true] at starts
    simp only [Option.bind_eq_some_iff, Option.map_eq_some_iff, Prod.mk.injEq] at h
    obtain ⟨second, keyword, _, combined, rfl, rfl⟩ := h
    refine ⟨blanks, word, rest.dropWhile Text.isWordPart, ?_, rfl, List.all_takeWhile,
      List.all_takeWhile, ?_, startsWith_dropWhile _ _, ?_, second, keyword, combined⟩
    · rw [List.takeWhile_append_dropWhile, List.takeWhile_append_dropWhile]
    · cases h : rest with
      | nil => simp [h] at starts
      | cons c ds =>
        have start : Text.isWordStart c = true := by simpa [h] using starts.1
        simp [word, h, Text.isWordPart_of_isWordStart start, start]
    · rw [← drop_length_takeWhile]
      simpa [startsWith] using starts.2
  · cases h

theorem secondWord?_append {first both second : Kind} {blanks word after : List Char}
    (spaces : blanks.all isSpace = true) (parts : word.all Text.isWordPart = true)
    (starts : startsWith Text.isWordStart word = true)
    (keyword : Kind.ofKeyword? (String.ofList word).toLower = some second)
    (combined : Kind.combine? first second = some both)
    (ends : startsWith Text.isWordPart after = false)
    (designator : startsWith Text.isDesignator after = false) :
    secondWord? first (blanks ++ (word ++ after)) = some (both, blanks.length + word.length) := by
  obtain ⟨c, ds, rfl⟩ : ∃ c ds, word = c :: ds := by
    cases word with
    | nil => simp at starts
    | cons c ds => exact ⟨c, ds, rfl⟩
  have notSpace : isSpace c = false := by
    cases h : isSpace c with
    | false => rfl
    | true =>
      have part := Text.isWordPart_of_isWordStart (c := c) starts
      rw [isWordPart_of_isSpace h] at part
      cases part
  have blanks_eq : (blanks ++ (c :: ds ++ after)).takeWhile isSpace = blanks := by
    rw [List.takeWhile_append_of_pos (List.all_eq_true.mp spaces)]
    simp [notSpace]
  have word_eq : (c :: ds ++ after).takeWhile Text.isWordPart = c :: ds := by
    rw [List.takeWhile_append_of_pos (List.all_eq_true.mp parts)]
    cases after with
    | nil => simp
    | cons d es =>
      have : Text.isWordPart d = false := ends
      simp [this]
  have start : Text.isWordStart c = true := starts
  have after_eq : after.head?.any Text.isDesignator = false := designator
  simp only [secondWord?, blanks_eq, List.drop_left, word_eq, keyword, combined,
    Option.bind_some, Option.map_some]
  simp [start, after_eq]

theorem mem_keywords {text : String} (h : Kind.ofKeyword? text = some k) :
    (text, k) ∈ Kind.keywords := by
  obtain ⟨before, after, same, _⟩ := List.lookup_eq_some_iff.mp h
  simp [same]

theorem isKeyword_of_keyword {text : String} (h : Kind.ofKeyword? text = some k) :
    k.isKeyword = true := by
  have all : ∀ entry ∈ Kind.keywords, entry.2.isKeyword = true := by decide
  exact all _ (mem_keywords h)

theorem isKeyword_of_combine {first second both : Kind}
    (h : Kind.combine? first second = some both) : both.isKeyword = true := by
  unfold Kind.combine? at h
  split at h <;> cases h <;> rfl

theorem boundary_of_isKeyword (h : k.isKeyword = true) : k.boundary = .word := by
  cases k <;> first | rfl | cases h

/- A word without a designator: a comment, a keyword or a name. -/
def plainWord (text : List Char) (rest : List Char) : Lexeme :=
  let extra := text.length - 1
  if (String.ofList text).toLower = "rem" then mark .comment (extra + lineLength rest)
  else
    match Kind.ofKeyword? (String.ofList text).toLower with
    | some kind => keyword kind extra rest
    | none => mark .identifier extra

theorem word_append (c : Char) {part : List Char} (parts : part.all Text.isWordPart = true)
    (ends : startsWith Text.isWordPart rest = false) :
    word c (part ++ rest) =
      if startsWith Text.isDesignator rest then mark .identifier (part.length + 1)
      else plainWord (c :: part) rest := by
  have part_eq : (part ++ rest).takeWhile Text.isWordPart = part := by
    rw [List.takeWhile_append_of_pos (List.all_eq_true.mp parts)]
    cases rest with
    | nil => simp
    | cons d ds =>
      have : Text.isWordPart d = false := ends
      simp [this]
  simp only [word, part_eq, List.drop_left]
  rfl

/-- The keywords that may have a second word. -/
def isFirstWord : Kind → Bool
  | .end_ | .exit | .else_ => true
  | _ => false

theorem keyword_of_first {kind : Kind} (first : isFirstWord kind = true) (extra : Nat)
    (text : List Char) :
    keyword kind extra text =
      match secondWord? kind text with
      | some (both, length) => mark both (extra + length)
      | none => mark kind extra := by
  unfold isFirstWord at first
  split at first
  · rfl
  · rfl
  · rfl
  · cases first

theorem keyword_of_not_first {kind : Kind} (single : isFirstWord kind = false) (extra : Nat) :
    ∃ v, ∀ text, keyword kind extra text = ⟨.token kind v, extra⟩ := by
  cases kind <;> first | exact ⟨_, fun _ => rfl⟩ | cases single

theorem keyword_cases (kind : Kind) (extra : Nat) (text : List Char) :
    (∃ v, keyword kind extra text = ⟨.token kind v, extra⟩ ∧
        (isFirstWord kind = true → secondWord? kind text = none)) ∨
      ∃ both length, keyword kind extra text = mark both (extra + length) ∧
        secondWord? kind text = some (both, length) := by
  cases first : isFirstWord kind with
  | false =>
    obtain ⟨v, same⟩ := keyword_of_not_first first extra
    exact .inl ⟨v, same text, nofun⟩
  | true =>
    rw [keyword_of_first first]
    cases second : secondWord? kind text with
    | none => exact .inl ⟨none, rfl, fun _ => rfl⟩
    | some found => exact .inr ⟨found.1, found.2, rfl, rfl⟩

/-- Keywords take as much of the following text as their second word has, which is nothing for
most of them. -/
theorem keyword_reread {kind : Kind} {extra : Nat} {after : List Char}
    (h : keyword kind extra after = ⟨.token k v, n⟩) (isKeyword : kind.isKeyword = true)
    (ends : EndsWord rest) (alone : secondWord? k rest = none) :
    ∃ m, m ≤ after.length ∧ n = extra + m ∧ k.boundary = .word ∧
      keyword kind extra (after.take m ++ rest) = ⟨.token k v, n⟩ := by
  cases first : isFirstWord kind with
  | false =>
    obtain ⟨v', same⟩ := keyword_of_not_first first extra
    rw [same] at h
    cases h
    exact ⟨0, Nat.zero_le _, rfl, boundary_of_isKeyword isKeyword, same _⟩
  | true =>
    rw [keyword_of_first first] at h
    cases second : secondWord? kind after with
    | none =>
      rw [second] at h
      cases h
      refine ⟨0, Nat.zero_le _, rfl, boundary_of_isKeyword isKeyword, ?_⟩
      rw [keyword_of_first first, List.take_zero, List.nil_append, alone]
      rfl
    | some found =>
      obtain ⟨both, length⟩ := found
      rw [second] at h
      cases h
      obtain ⟨blanks, word, beyond, rfl, rfl, spaces, parts, starts, _, _, joined, keyword,
        combined⟩ := secondWord?_eq_some second
      have cut : (blanks ++ (word ++ beyond)).take (blanks.length + word.length) ++ rest =
          blanks ++ (word ++ rest) := by
        rw [← List.append_assoc, List.take_left' (by simp), List.append_assoc]
      refine ⟨_, by simp, rfl, boundary_of_isKeyword (isKeyword_of_combine combined), ?_⟩
      rw [keyword_of_first first, cut,
        secondWord?_append spaces parts starts keyword combined ends.part ends.designator]
      rfl

/-- A word, a keyword of two words included, is read again as it was. The hypothesis about a
second word only matters to a keyword that may have one. -/
theorem word_reread (h : word c cs = ⟨.token k v, n⟩) (code : k ≠ .comment) (ends : EndsWord rest)
    (alone : secondWord? k rest = none) :
    n ≤ cs.length ∧ k.boundary = .word ∧ word c (cs.take n ++ rest) = ⟨.token k v, n⟩ := by
  obtain ⟨part, after, rfl, parts, apart⟩ := exists_word cs
  rw [word_append c parts apart] at h
  cases designator : startsWith Text.isDesignator after with
  | true =>
    obtain ⟨d, ds, rfl⟩ : ∃ d ds, after = d :: ds := by
      cases after with
      | nil => simp at designator
      | cons d ds => exact ⟨d, ds, rfl⟩
    obtain ⟨⟨rfl, rfl⟩, rfl⟩ : (.identifier = k ∧ none = v) ∧ part.length + 1 = n := by
      simpa [designator, mark] using h
    have cut : (part ++ d :: ds).take (part.length + 1) ++ rest = part ++ d :: rest := by
      rw [List.take_add, List.take_left, List.drop_left, List.append_assoc]
      rfl
    refine ⟨by simp, rfl, ?_⟩
    have apart' : startsWith Text.isWordPart (d :: rest) = false :=
      isWordPart_of_isDesignator designator
    have designator' : startsWith Text.isDesignator (d :: rest) = true := designator
    rw [cut, word_append c parts apart', designator']
    rfl
  | false =>
    simp only [designator, plainWord, List.length_cons, Nat.add_sub_cancel] at h
    have again : ∀ m, word c (part ++ (after.take m ++ rest)) =
        plainWord (c :: part) (after.take m ++ rest) := by
      intro m
      rw [word_append c parts (startsWith_take_append m apart ends.part),
        startsWith_take_append m designator ends.designator]
      rfl
    by_cases remark : (String.ofList (c :: part)).toLower = "rem"
    · have : k = .comment := by
        simp only [remark] at h
        exact (by simpa [mark, eq_comm] using congrArg Lexeme.reading h : k = .comment ∧ _).1
      exact absurd this code
    · cases found : Kind.ofKeyword? (String.ofList (c :: part)).toLower with
      | none =>
        simp only [remark, found] at h
        obtain ⟨⟨rfl, rfl⟩, rfl⟩ : (.identifier = k ∧ none = v) ∧ part.length = n := by
          simpa [mark] using h
        have same := again 0
        simp only [plainWord, remark, found, List.length_cons, Nat.add_sub_cancel,
          List.take_zero, List.nil_append] at same
        exact ⟨by simp, rfl, by rw [List.take_left]; exact same⟩
      | some kind =>
        simp only [remark, found] at h
        obtain ⟨m, le, rfl, boundary, same⟩ :=
          keyword_reread h (isKeyword_of_keyword found) ends alone
        have cut : (part ++ after).take (part.length + m) ++ rest =
            part ++ (after.take m ++ rest) := by
          rw [List.take_add, List.take_left, List.drop_left, List.append_assoc]
        refine ⟨by simp; omega, boundary, ?_⟩
        rw [cut, again m]
        simp only [plainWord, remark, found, List.length_cons, Nat.add_sub_cancel]
        exact same

theorem operator_reread (h : operator c cs = some ⟨.token k v, n⟩)
    (ends : startsWith Text.isSign rest = false) :
    n ≤ cs.length ∧ operator c (cs.take n ++ rest) = some ⟨.token k v, n⟩ := by
  have plain : rest = [] ∨ ∃ d ds, rest = d :: ds ∧ d ≠ '<' ∧ d ≠ '>' ∧ d ≠ '=' ∧ d ≠ '+' ∧
      d ≠ '-' := by
    cases rest with
    | nil => exact .inl rfl
    | cons d ds => exact .inr ⟨d, ds, rfl, by simpa [Text.isSign, and_assoc] using ends⟩
  unfold operator at h
  split at h <;> cases h <;>
    (obtain rfl | ⟨d, ds, rfl, less, greater, equal, plus, minus⟩ := plain) <;>
      simp_all [operator, mark]

theorem boundary_of_operator (h : operator c cs = some ⟨.token k v, n⟩) : k.boundary = .sign := by
  unfold operator at h
  split at h <;> cases h <;> rfl

theorem boundary_of_numeral (h : k.isNumeral = true) : k.boundary = .word := by
  unfold Kind.isNumeral at h
  split at h <;> first | rfl | cases h

theorem isNumeral_of_wholeNumber {digits : List Char} {extra : Nat}
    (h : wholeNumber digits extra = ⟨.token k v, n⟩) : k.isNumeral = true := by
  unfold wholeNumber at h
  split at h <;> cases h <;> rfl

theorem isNumeral_of_number (h : number c cs = ⟨.token k v, n⟩) : k.isNumeral = true := by
  rw [number] at h
  unfold typedNumeral at h
  split at h
  · cases h; rfl
  · cases h; rfl
  · cases h; rfl
  · cases h; rfl
  · split at h
    · cases h; rfl
    · exact isNumeral_of_wholeNumber h

theorem isNumeral_of_hexNumber (h : hexNumber (c :: cs) = ⟨.token k v, n⟩) :
    k.isNumeral = true := by
  rw [hexNumber_eq] at h
  unfold typedHex at h
  split at h <;> cases h <;> rfl

theorem startsWith_take {p : Char → Bool} (rest : List Char) (pos : 0 < n)
    (h : startsWith p cs = true) : startsWith p (cs.take n ++ rest) = true := by
  cases cs with
  | nil => simp at h
  | cons c cs =>
    obtain ⟨n, rfl⟩ := Nat.exists_eq_add_of_lt pos
    simpa using h

theorem number_extra_pos (h : startsWith Char.isDigit cs = true) : 0 < (number c cs).extra := by
  have digits : 0 < digitCount cs := by
    cases cs with
    | nil => simp at h
    | cons d ds =>
      have : d.isDigit = true := h
      simp [digitCount, this]
  have length : digitCount cs ≤ numeralLength c cs := by unfold numeralLength; omega
  rw [number, typedNumeral_extra]
  split <;> omega

theorem hexNumber_extra_pos (c : Char) (cs : List Char) : 0 < (hexNumber (c :: cs)).extra := by
  rw [hexNumber_eq]
  unfold typedHex
  split <;> simp [literal]

theorem point_reread {a a' : Bool} (h : read a '.' cs = ⟨.token k v, n⟩) (apart : Apart k rest)
    (point : a' = true → k = .dot) :
    n ≤ cs.length ∧ read a' '.' (cs.take n ++ rest) = ⟨.token k v, n⟩ := by
  have read_point : ∀ a cs, read a '.' cs =
      if startsWith Char.isDigit cs && !a then number '.' cs else mark .dot 0 := fun _ _ => rfl
  rw [read_point] at h ⊢
  split at h
  · -- a numeral, whose first digit is still there
    rename_i digit
    have word := boundary_of_numeral (isNumeral_of_number h)
    have ends := EndsWord.of_apart apart word
    have first : a' = false := by
      cases operand : a' with
      | false => rfl
      | true => rw [point operand] at word; cases word
    have starts : startsWith Char.isDigit cs = true := (Bool.and_eq_true_iff.mp digit).1
    have extra : (number '.' cs).extra = n := by rw [h]
    have again : number '.' (cs.take (number '.' cs).extra ++ rest) = number '.' cs :=
      number_reread ends.numeral ends.suffix
    rw [extra] at again
    rw [first, startsWith_take rest (extra ▸ number_extra_pos starts) starts]
    exact ⟨extra ▸ number_extra_le '.' cs, again.trans h⟩
  · cases h
    have digit : startsWith Char.isDigit rest = false := apart
    exact ⟨Nat.zero_le _, by simp [digit, mark]⟩

theorem hex_reread (h : hexNumber (c :: cs) = ⟨.token k v, n⟩) (apart : Apart k rest) :
    n ≤ cs.length + 1 ∧ ∃ text, (c :: cs).take n ++ rest = c :: text ∧
      hexNumber (c :: text) = ⟨.token k v, n⟩ := by
  have ends := EndsWord.of_apart apart (boundary_of_numeral (isNumeral_of_hexNumber h))
  have extra : (hexNumber (c :: cs)).extra = n := by rw [h]
  have again := hexNumber_reread c cs ends.part ends.suffix
  obtain ⟨m, rfl⟩ : ∃ m, n = m + 1 := by
    have pos := hexNumber_extra_pos c cs
    exact ⟨n - 1, by omega⟩
  rw [extra] at again
  exact ⟨extra ▸ hexNumber_extra_le c cs, _, rfl, again.trans h⟩

theorem decimal_reread (h : number c cs = ⟨.token k v, n⟩) (apart : Apart k rest) :
    n ≤ cs.length ∧ number c (cs.take n ++ rest) = ⟨.token k v, n⟩ := by
  have ends := EndsWord.of_apart apart (boundary_of_numeral (isNumeral_of_number h))
  have extra : (number c cs).extra = n := by rw [h]
  have again : number c (cs.take (number c cs).extra ++ rest) = number c cs :=
    number_reread ends.numeral ends.suffix
  rw [extra] at again
  exact ⟨extra ▸ number_extra_le c cs, again.trans h⟩

/-- A token that is not a comment is read again as it was, before any text that does not touch
it. A numeral that begins with a point cannot stand right after an operand. -/
theorem read_reread {a a' : Bool} (h : read a c cs = ⟨.token k v, n⟩) (code : k ≠ .comment)
    (apart : Apart k rest) (alone : secondWord? k rest = none)
    (point : a' = true → c = '.' → k = .dot) :
    n ≤ cs.length ∧ read a' c (cs.take n ++ rest) = ⟨.token k v, n⟩ := by
  by_cases dot : c = '.'
  · subst dot
    exact point_reread h apart fun operand => point operand rfl
  unfold read at h ⊢
  by_cases blank : Text.isBlank c = true
  · simp [blank] at h
  by_cases remark : c = '\''
  · rw [if_neg blank, if_pos remark] at h
    cases h
    exact absurd rfl code
  rw [if_neg blank, if_neg remark] at h ⊢
  by_cases quote : c = '"'
  · rw [if_pos quote] at h ⊢
    have word : k.boundary = .word := by rw [(string_eq_token h).2.1]; rfl
    exact string_reread h (EndsWord.of_apart apart word).quote
  rw [if_neg quote, if_neg dot] at h ⊢
  by_cases ampersand : c = '&'
  · subst ampersand
    cases cs with
    | nil => simp [single?, operator, Text.isWordStart] at h
    | cons d ds =>
      by_cases hex : (d = 'h' || d = 'H') = true
      · have hex' : ('&' = '&' && ((d :: ds).head? = some 'h' || (d :: ds).head? = some 'H')) =
            true := by simpa using hex
        rw [if_pos hex'] at h
        obtain ⟨le, text, same, again⟩ := hex_reread h apart
        rw [same]
        exact ⟨le, by rw [if_pos (by simpa using hex), again]⟩
      · have hex' : ¬ ('&' = '&' && ((d :: ds).head? = some 'h' || (d :: ds).head? = some 'H')) =
            true := by simpa using hex
        rw [if_neg hex'] at h
        simp [single?, operator, Text.isWordStart] at h
  have noHex : ∀ text : List Char,
      ¬ (c = '&' && (text.head? = some 'h' || text.head? = some 'H')) = true := by
    simp [ampersand]
  rw [if_neg (noHex _)] at h ⊢
  by_cases digit : c.isDigit = true
  · rw [if_pos digit] at h ⊢
    exact decimal_reread h apart
  rw [if_neg digit] at h ⊢
  by_cases start : Text.isWordStart c = true
  · rw [if_pos start] at h ⊢
    have word := (word_reread h code (EndsWord.of_apart (Apart.nil .identifier) rfl) rfl).2.1
    obtain ⟨le, _, again⟩ := word_reread h code (EndsWord.of_apart apart word) alone
    exact ⟨le, again⟩
  rw [if_neg start] at h ⊢
  cases mark : single? c with
  | some kind =>
    rw [mark] at h
    cases h
    exact ⟨Nat.zero_le _, rfl⟩
  | none =>
    rw [mark] at h
    cases op : operator c cs with
    | none => simp [op] at h
    | some lexeme =>
      obtain rfl : lexeme = ⟨.token k v, n⟩ := by simpa [op] using h
      have sign : startsWith Text.isSign rest = false := by
        have := boundary_of_operator op
        simpa [Apart, this] using apart
      obtain ⟨le, again⟩ := operator_reread op sign
      exact ⟨le, by rw [again]⟩

end Lexeme
end BrightScript
