import BrightScript.Proofs.Token.Contents
import BrightScript.Proofs.Token.Scanned

/-! The tokens of a text that is scanned without a report are told apart by their spelling. -/
namespace BrightScript

open Text (startsWith)

variable {k : Kind} {v : Option Value}

theorem Text.toList_toLower (s : String) : s.toLower.toList = s.toList.map Char.toLower :=
  String.toList_map

theorem isAlpha_of_keyword {text : String} (found : Kind.ofKeyword? text = some k) :
    text.toList.all Char.isAlpha = true := by
  have all : ∀ entry ∈ Kind.keywords, entry.1.toList.all Char.isAlpha = true := by decide
  exact all _ (Lexeme.mem_keywords found)

theorem any_isSpace_eq_false {word : List Char} (parts : word.all Text.isWordPart = true) :
    word.any Text.isSpace = false := by
  refine List.any_eq_false.mpr fun c mem space => ?_
  have part := List.all_eq_true.mp parts c mem
  simp only [Text.isSpace, Bool.or_eq_true, decide_eq_true_eq] at space
  rcases space with rfl | rfl <;> exact absurd part (by decide)

theorem isPlainName_designated {word : List Char} {d : Char}
    (parts : word.all Text.isWordPart = true) (designator : Text.isDesignator d = true) :
    isPlainName (String.ofList (word ++ [d])) = true := by
  have other : Char.isAlpha d.toLower = false ∧ Text.isSpace d = false := by
    simp only [Text.isDesignator, Bool.or_eq_true, decide_eq_true_eq] at designator
    rcases designator with (((rfl | rfl) | rfl) | rfl) | rfl <;> decide
  have keyword : Kind.ofKeyword? (String.ofList (word ++ [d])).toLower = none := by
    cases found : Kind.ofKeyword? (String.ofList (word ++ [d])).toLower with
    | none => rfl
    | some k =>
      have letters := isAlpha_of_keyword found
      simp [Text.toList_toLower, other.1] at letters
  have spaces : (word ++ [d]).any Text.isSpace = false := by
    rw [List.any_append, any_isSpace_eq_false parts]
    simp [other.2]
  rw [isPlainName, keyword, String.toList_ofList, spaces]
  rfl

/- A keyword that reaches further than its first word has blanks in it. -/
theorem startsWith_isSpace_of_keyword {kind : Kind} {extra n : Nat} {after : List Char}
    (apart : startsWith Text.isWordPart after = false)
    (h : Lexeme.keyword kind extra after = ⟨.token k v, n⟩) (more : extra < n) :
    startsWith Text.isSpace after = true := by
  rcases Lexeme.keyword_cases kind extra after with ⟨_, same, _⟩ | ⟨_, _, _, second⟩
  · cases same.symm.trans h
    omega
  · obtain ⟨blanks, word, rest, rfl, _, spaces, _, starts, _⟩ := Lexeme.secondWord?_eq_some second
    cases blanks with
    | nil =>
      cases word with
      | nil => cases starts
      | cons c cs =>
        have part : Text.isWordPart c = true := Text.isWordPart_of_isWordStart starts
        exact absurd (part.symm.trans apart) (by decide)
    | cons c cs =>
      simp only [List.all_cons, Bool.and_eq_true] at spaces
      exact spaces.1

theorem isPlainName_of_word {c : Char} {cs : List Char} (start : Text.isWordStart c = true)
    (code : k ≠ .comment) (h : Lexeme.word c cs = ⟨.token k v, cs.length⟩) :
    isPlainName (String.ofList (c :: cs)) = decide (k = .identifier) := by
  obtain ⟨part, after, rfl, parts, apart⟩ := Lexeme.exists_word cs
  have word : (c :: part).all Text.isWordPart = true := by
    rw [List.all_cons, parts, Text.isWordPart_of_isWordStart start]
    rfl
  rw [Lexeme.word_append c parts apart] at h
  cases designator : startsWith Text.isDesignator after with
  | true =>
    cases after with
    | nil => cases designator
    | cons d rest =>
      rw [designator] at h
      simp only [if_true, Lexeme.mark, Lexeme.mk.injEq, Reading.token.injEq] at h
      obtain ⟨⟨rfl, _⟩, length⟩ := h
      obtain rfl : rest = [] := by
        rw [List.length_append, List.length_cons] at length
        exact List.eq_nil_of_length_eq_zero (by omega)
      exact isPlainName_designated word designator
  | false =>
    rw [designator, if_neg Bool.false_ne_true] at h
    unfold Lexeme.plainWord at h
    split at h
    · simp only [Lexeme.mark, Lexeme.mk.injEq, Reading.token.injEq] at h
      exact absurd h.1.1.symm code
    · split at h
      · rename_i kind found
        simp only [List.length_cons, Nat.add_sub_cancel] at h
        have other : k ≠ .identifier := by
          rintro rfl
          cases Lexeme.isKeyword_of_token found h
        cases after with
        | nil =>
          rw [List.append_nil] at h ⊢
          rw [isPlainName, found, decide_eq_false other]
          rfl
        | cons d rest =>
          have space : Text.isSpace d = true := startsWith_isSpace_of_keyword apart h (by simp)
          have spaces : (c :: (part ++ d :: rest)).any Text.isSpace = true := by simp [space]
          simp [isPlainName, spaces, other]
      · rename_i found
        simp only [Lexeme.mark, Lexeme.mk.injEq, Reading.token.injEq] at h
        obtain ⟨⟨rfl, _⟩, length⟩ := h
        obtain rfl : after = [] := by
          rw [List.length_append, List.length_cons] at length
          exact List.eq_nil_of_length_eq_zero (by omega)
        rw [List.append_nil, isPlainName, found, String.toList_ofList, any_isSpace_eq_false word]
        rfl

theorem Word.Genuine.isPlainName_eq {x : Word} (h : x.Genuine) (word : x.kind.isWord = true) :
    isPlainName x.text = decide (x.kind = .identifier) := by
  obtain ⟨c, cs, text, start, read⟩ := h.read_word word
  rw [← String.ofList_toList (s := x.text), text]
  exact isPlainName_of_word start h.code read

theorem Lexeme.name_parts {c : Char} {cs : List Char}
    (h : word c cs = ⟨.token .identifier v, cs.length⟩) :
    ∃ part tail, cs = part ++ tail ∧ part.all Text.isWordPart = true ∧
      tail.all Text.isDesignator = true := by
  obtain ⟨part, after, rfl, parts, apart⟩ := exists_word cs
  refine ⟨part, after, rfl, parts, ?_⟩
  rw [word_append c parts apart] at h
  cases after with
  | nil => rfl
  | cons d rest =>
    cases designator : startsWith Text.isDesignator (d :: rest) with
    | true =>
      rw [designator] at h
      simp only [if_true, mark, Lexeme.mk.injEq, List.length_append, List.length_cons] at h
      obtain rfl : rest = [] := List.eq_nil_of_length_eq_zero (by omega)
      have one : Text.isDesignator d = true := designator
      simp [one]
    | false =>
      rw [designator, if_neg Bool.false_ne_true] at h
      unfold plainWord at h
      split at h
      · simp [mark] at h
      · split at h
        · rename_i kind found
          cases isKeyword_of_token found h
        · simp [mark] at h

theorem Word.Genuine.feed_not_mem {x : Word} (h : x.Genuine) (name : x.kind = .identifier) :
    '\n' ∉ x.text.toList := by
  obtain ⟨c, cs, text, start, read⟩ := h.read_word (by rw [name]; rfl)
  rw [name] at read
  rw [text]
  obtain ⟨part, tail, rfl, parts, designators⟩ := Lexeme.name_parts read
  intro mem
  rcases List.mem_cons.mp mem with rfl | mem
  · cases start
  · rcases List.mem_append.mp mem with mem | mem
    · exact absurd (List.all_eq_true.mp parts _ mem) (by decide)
    · exact absurd (List.all_eq_true.mp designators _ mem) (by decide)

theorem Lexeme.read_ne_endOfFile {a : Bool} {c : Char} {cs : List Char} {n : Nat}
    (h : read a c cs = ⟨.token k v, n⟩) : k ≠ .endOfFile := by
  rintro rfl
  rcases read_eq_token h with ⟨_, word⟩ | ⟨_, comment, _⟩ | ⟨_, string⟩ | isNumeral | mark
  · rcases word_kind word with kind | kind <;> cases kind
  · cases comment
  · cases (string_eq_token string).2.1
  · cases isNumeral
  · exact absurd rfl mark

theorem Spells.endOfFile {last : Option Kind} {text : List Char} {ws : List Word}
    (h : Spells last text ws) {before after : List Word} {x : Word}
    (split : ws = before ++ x :: after) (file : x.kind = .endOfFile) : after = [] := by
  induction h generalizing before with
  | nil =>
    cases before with
    | nil => exact ((List.cons.inj split).2).symm
    | cons y before =>
      have := congrArg List.length split
      simp at this
  | blank _ _ ih => exact ih split
  | token read _ ih =>
    cases before with
    | nil =>
      obtain ⟨rfl, _⟩ := List.cons.inj split
      exact absurd file (Lexeme.read_ne_endOfFile read)
    | cons y before => exact ih (List.cons.inj split).2

theorem faithful_of_scan {source : String} (quiet : (scan source).diagnostics = []) :
    ∀ t ∈ (scan source).tokens, t.Faithful := by
  have scanned := scanned_of_run quiet
  intro t mem
  refine ⟨fun word => ?_, fun string => ?_, fun comment => (scanned.comment t mem comment).1.line⟩
  · have code : t.kind ≠ .endOfFile ∧ t.kind ≠ .comment := by
      constructor <;> intro same <;> rw [same] at word <;> cases word
    exact (scanned.genuine t mem code.1 code.2).isPlainName_eq word
  · exact (scanned.genuine t mem (by simp [string]) (by simp [string])).quote string

end BrightScript
