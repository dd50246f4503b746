import BrightScript.Proofs.Parser.Yields
import BrightScript.Proofs.Token.Boundary
import BrightScript.Token.Scan

/-! Spelling: which words a text is scanned into.
`Spells last text ws` is the scanner as a relation between a text and its words, without places,
for texts that are scanned without a report. -/
namespace BrightScript

open Text (startsWith startsWithFraction)

variable {c : Char} {cs rest text : List Char} {last : Option Kind} {a : Bool}

def Word.endOfFile : Word := ⟨.endOfFile, "", none⟩

inductive Spells : Option Kind → List Char → List Word → Prop where
  | nil {last : Option Kind} : Spells last [] [.endOfFile]
  | blank {last : Option Kind} {c : Char} {cs : List Char} {ws : List Word} {n : Nat} :
      Lexeme.read (Scan.endsOperand last) c cs = ⟨.blank, n⟩ → Spells last (cs.drop n) ws →
      Spells last (c :: cs) ws
  | token {last : Option Kind} {c : Char} {cs : List Char} {ws : List Word} {k : Kind}
      {v : Option Value} {n : Nat} :
      Lexeme.read (Scan.endsOperand last) c cs = ⟨.token k v, n⟩ → Spells (some k) (cs.drop n) ws →
      Spells last (c :: cs) (⟨k, String.ofList (c :: cs.take n), v⟩ :: ws)

theorem Spells.run {ws : List Word} (h : Spells last text ws) (start : Position) :
    (Scan.run last start text).diagnostics = [] ∧
      (Scan.run last start text).tokens.map Token.word = ws := by
  induction h generalizing start with
  | nil => rw [Scan.run]; exact ⟨rfl, rfl⟩
  | blank read _ ih =>
    rw [Scan.run]
    simp only [read, Scan.tokensOf, Scan.problemsOf]
    exact ih _
  | token read _ ih =>
    rw [Scan.run]
    simp only [read, Scan.tokensOf, Scan.problemsOf]
    obtain ⟨quiet, words⟩ := ih _
    exact ⟨quiet, congrArg _ words⟩

theorem spells_of_run {start : Position} (quiet : (Scan.run last start text).diagnostics = []) :
    Spells last text ((Scan.run last start text).tokens.map Token.word) := by
  fun_induction Scan.run last start text with
  | case1 => exact .nil
  | case2 last start c cs lexeme taken stop here rest ih =>
    cases reading : lexeme.reading with
    | openString v => simp [reading, Scan.problemsOf] at quiet
    | stray => simp [reading, Scan.problemsOf] at quiet
    | blank =>
      simp only [reading, Scan.problemsOf, List.nil_append] at quiet
      have none : here = [] := by simp [here, reading, Scan.tokensOf]
      have same : (here.getLast?.map (·.kind)).or last = last := by simp [none]
      have rest_eq : rest = Scan.run last stop (cs.drop lexeme.extra) := by simp only [rest, same]
      have words := ih quiet
      rw [same] at words
      rw [none, List.nil_append, rest_eq]
      exact .blank (show lexeme = ⟨.blank, lexeme.extra⟩ by rw [← reading]) words
    | token k v =>
      simp only [reading, Scan.problemsOf, List.nil_append] at quiet
      have one : here = [⟨k, String.ofList taken, ⟨start, stop⟩, v⟩] := by
        simp [here, reading, Scan.tokensOf]
      have same : (here.getLast?.map (·.kind)).or last = some k := by simp [one]
      have rest_eq : rest = Scan.run (some k) stop (cs.drop lexeme.extra) := by
        simp only [rest, same]
      have words := ih quiet
      rw [same] at words
      rw [one, List.singleton_append, rest_eq]
      exact .token (show lexeme = ⟨.token k v, lexeme.extra⟩ by rw [← reading]) words

/-- A word that is read back when it stands alone. Comments are not among them: how they end
depends on the line. -/
structure Word.Genuine (x : Word) : Prop where
  code : x.kind ≠ .comment
  read : ∃ c cs, x.text.toList = c :: cs ∧
    Lexeme.read false c cs = ⟨.token x.kind x.value, cs.length⟩

/-- A numeral that begins with a point, which would be a member after an operand. -/
def Word.isPoint (x : Word) : Bool := x.kind ≠ .dot && startsWith (· = '.') x.text.toList

namespace Lexeme

theorem read_blank (h : Text.isBlank c = true) : read a c cs = ⟨.blank, 0⟩ := by
  simp [read, h]

theorem isDigit_eq_false_of_isWordStart (h : Text.isWordStart c = true) : c.isDigit = false := by
  cases digit : c.isDigit with
  | false => rfl
  | true =>
    simp only [Char.isDigit, Bool.and_eq_true, decide_eq_true_eq, ge_iff_le,
      UInt32.le_iff_toNat_le] at digit
    simp only [Text.isWordStart, Text.isAlpha_iff, Text.isUpper_iff, Text.isLower_iff,
      Bool.or_eq_true, Bool.and_eq_true, decide_eq_true_eq, UInt32.le_iff_toNat_le] at h
    have val : c.toNat = c.val.toNat := rfl
    have nine : '9'.val.toNat = 57 := rfl
    have capital : 'A'.val.toNat = 65 := rfl
    have small : 'a'.val.toNat = 97 := rfl
    rcases h with (rfl | upper | lower) | ⟨high, _⟩
    · exact absurd digit.2 (by decide)
    · omega
    · omega
    · omega

theorem read_word (h : Text.isWordStart c = true) : read a c cs = word c cs := by
  have other : ∀ d : Char, Text.isWordStart d = false → c ≠ d := by
    rintro d no rfl
    rw [no] at h
    cases h
  have blank : ¬ Text.isBlank c = true := by
    simp only [Text.isBlank, Bool.or_eq_true, decide_eq_true_eq, not_or]
    exact ⟨⟨⟨⟨other _ rfl, other _ rfl⟩, other _ rfl⟩, other _ (by decide +kernel)⟩,
      other _ (by decide +kernel)⟩
  simp [read, blank, other '\'' rfl, other '"' rfl, other '.' rfl, other '&' rfl,
    isDigit_eq_false_of_isWordStart h, h]

end Lexeme

namespace Spells

variable {ws : List Word}

theorem of_blank (blank : Text.isBlank c = true) (h : Spells last text ws) :
    Spells last (c :: text) ws := .blank (Lexeme.read_blank blank) h

theorem of_cons_blank (blank : Text.isBlank c = true) (h : Spells last (c :: text) ws) :
    Spells last text ws := by
  cases h with
  | blank read rest =>
    rw [Lexeme.read_blank blank] at read
    cases read
    exact rest
  | token read _ =>
    rw [Lexeme.read_blank blank] at read
    cases read

theorem of_spaces {blanks : List Char} (spaces : blanks.all Text.isSpace = true)
    (h : Spells last (blanks ++ text) ws) : Spells last text ws := by
  induction blanks with
  | nil => exact h
  | cons c blanks ih =>
    simp only [List.all_cons, Bool.and_eq_true] at spaces
    refine ih spaces.2 (of_cons_blank ?_ h)
    have := spaces.1
    simp only [Text.isSpace, Bool.or_eq_true, decide_eq_true_eq] at this
    rcases this with rfl | rfl <;> rfl

theorem keyword_next {second : Kind} {part after : List Char} (start : Text.isWordStart c = true)
    (parts : part.all Text.isWordPart = true) (ends : startsWith Text.isWordPart after = false)
    (designator : startsWith Text.isDesignator after = false)
    (keyword : Kind.ofKeyword? (String.ofList (c :: part)).toLower = some second)
    (single : ∀ text, Lexeme.keyword second part.length text = Lexeme.mark second part.length)
    (h : Spells last (c :: (part ++ after)) ws) : Word.next ws = second := by
  have remark : (String.ofList (c :: part)).toLower ≠ "rem" := by
    intro same
    rw [same, show Kind.ofKeyword? "rem" = none by decide +kernel] at keyword
    cases keyword
  have read : Lexeme.read (Scan.endsOperand last) c (part ++ after) =
      Lexeme.mark second part.length := by
    rw [Lexeme.read_word start, Lexeme.word_append c parts ends, designator]
    simp only [Lexeme.plainWord, remark, keyword, if_false, List.length_cons,
      Nat.add_sub_cancel, single]
    rfl
  cases h with
  | blank read' _ =>
    rw [read] at read'
    cases read'
  | token read' _ =>
    rw [read] at read'
    cases read'
    rfl

theorem secondWord?_eq_none {k : Kind} (h : Spells (some k) rest ws)
    (apart : Kind.combine? k (Word.next ws) = none) : Lexeme.secondWord? k rest = none := by
  cases found : Lexeme.secondWord? k rest with
  | none => rfl
  | some pair =>
    obtain ⟨both, n⟩ := pair
    obtain ⟨blanks, word, after, rfl, _, spaces, parts, starts, ends, designator, second, keyword,
      combined⟩ := Lexeme.secondWord?_eq_some found
    obtain ⟨c, part, rfl⟩ : ∃ c part, word = c :: part := by
      cases word with
      | nil => simp at starts
      | cons c part => exact ⟨c, part, rfl⟩
    simp only [List.all_cons, Bool.and_eq_true] at parts
    have single : ∀ text, Lexeme.keyword second part.length text =
        Lexeme.mark second part.length := by
      intro text
      unfold Kind.combine? at combined
      split at combined <;> first | rfl | cases combined
    have next := keyword_next starts parts.2 ends designator keyword single (of_spaces spaces h)
    rw [next, combined] at apart
    cases apart

theorem word {x : Word} (genuine : x.Genuine) (h : Spells (some x.kind) rest ws)
    (apart : Apart x.kind rest) (single : Kind.combine? x.kind (Word.next ws) = none)
    (point : Scan.endsOperand last = true → x.isPoint = false) :
    Spells last (x.text.toList ++ rest) (x :: ws) := by
  obtain ⟨c, cs, text, read⟩ := genuine.read
  have point' : Scan.endsOperand last = true → c = '.' → x.kind = .dot := by
    rintro operand rfl
    have := point operand
    simpa [Word.isPoint, text] using this
  have alone := secondWord?_eq_none h single
  obtain ⟨_, again⟩ := Lexeme.read_reread read genuine.code apart alone point'
  rw [List.take_length] at again
  have spelled := Spells.token again (by rwa [List.drop_left])
  rw [List.take_left, ← text, String.ofList_toList] at spelled
  rw [text]
  exact spelled

end Spells
/-- A text before which a line ends. -/
inductive EndsLine : List Char → Prop where
  | nil : EndsLine []
  | feed (cs : List Char) : EndsLine ('\n' :: cs)
  | return (cs : List Char) : EndsLine ('\r' :: '\n' :: cs)

theorem EndsLine.startsWith (h : EndsLine rest) {p : Char → Bool} (feed : p '\n' = false)
    (ret : p '\r' = false) : Text.startsWith p rest = false := by
  cases h with
  | nil => rfl
  | feed cs => exact feed
  | «return» cs => exact ret

/-- The text of a comment: an apostrophe or the word `rem`, and the rest of a line. -/
structure IsComment (text : List Char) : Prop where
  line : '\n' ∉ text
  starts : (∃ cs, text = '\'' :: cs) ∨
    ∃ c part cs, text = c :: (part ++ cs) ∧ Text.isWordStart c = true ∧
      part.all Text.isWordPart = true ∧ (String.ofList (c :: part)).toLower = "rem" ∧
      startsWith Text.isWordPart cs = false ∧ startsWith Text.isDesignator cs = false

/-- What is kept of a comment at the end of a line: not a carriage return. -/
def Comment.shown (text : List Char) : List Char :=
  if text.getLast? = some '\r' then text.dropLast else text

namespace Lexeme

theorem takeWhile_line {line : List Char} (feed : '\n' ∉ line) (rest : List Char) :
    (line ++ rest).takeWhile (· ≠ '\n') = line ++ rest.takeWhile (· ≠ '\n') :=
  List.takeWhile_append_of_pos fun c mem => by
    simpa using fun same : c = '\n' => feed (same ▸ mem)

theorem lineLength_append {line : List Char} (feed : '\n' ∉ line) (ends : EndsLine rest)
    (ret : line.getLast? = some '\r' → startsWith (· = '\r') rest = false) :
    lineLength (line ++ rest) = (Comment.shown line).length := by
  have own : ∀ rest : List Char, rest.takeWhile (· ≠ '\n') = [] →
      lineLength (line ++ rest) = (Comment.shown line).length := by
    intro rest none
    simp only [lineLength, takeWhile_line feed, none, List.append_nil, Comment.shown]
    split
    · rw [List.length_dropLast]
    · rfl
  cases ends with
  | nil => exact own [] rfl
  | feed cs => exact own _ (by simp)
  | «return» cs =>
    have whole : line.getLast? ≠ some '\r' := fun same => by simpa using ret same
    simp only [lineLength, takeWhile_line feed, Comment.shown, whole, if_false]
    simp

theorem startsWith_append {p : Char → Bool} {first second : List Char}
    (h : startsWith p first = false) (h' : startsWith p second = false) :
    startsWith p (first ++ second) = false := by
  cases first with
  | nil => exact h'
  | cons c cs => exact h

theorem read_comment (h : IsComment (c :: cs)) (ends : EndsLine rest)
    (ret : cs.getLast? = some '\r' → startsWith (· = '\r') rest = false) :
    read a c (cs ++ rest) = ⟨.token .comment none, (Comment.shown cs).length⟩ := by
  have feed : '\n' ∉ cs := fun mem => h.line (List.mem_cons_of_mem _ mem)
  rcases h.starts with ⟨_, same⟩ | ⟨_, part, tail, same, start, parts, remark, word, designator⟩
  · cases same
    rw [← lineLength_append feed ends ret]
    rfl
  · cases same
    have last : (part ++ tail).getLast? = some '\r' ↔ tail.getLast? = some '\r' := by
      cases tail with
      | nil =>
        refine ⟨fun ret => ?_, fun ret => by simp at ret⟩
        have mem := List.mem_of_getLast? (by simpa using ret)
        exact absurd (List.all_eq_true.mp parts _ mem) (by decide)
      | cons d ds => simp [List.getLast?_append]
    have shown : (Comment.shown (part ++ tail)).length =
        part.length + (Comment.shown tail).length := by
      unfold Comment.shown
      simp only [last]
      split
      · rename_i ret
        have : tail ≠ [] := by
          rintro rfl
          simp at ret
        rw [List.dropLast_append_of_ne_nil this, List.length_append]
      · exact List.length_append
    have tail_feed : '\n' ∉ tail := fun mem => feed (List.mem_append_right _ mem)
    rw [shown, ← lineLength_append tail_feed ends fun same => ret (last.mpr same),
      List.append_assoc, read_word start,
      word_append c parts (startsWith_append word (ends.startsWith rfl rfl)),
      startsWith_append designator (ends.startsWith rfl rfl)]
    simp only [plainWord, remark, if_true]
    rfl

end Lexeme

def Word.comment (text : List Char) : Word := ⟨.comment, String.ofList (Comment.shown text), none⟩

/-- A comment at the end of a line. -/
theorem Spells.comment {ws : List Word} (h : IsComment text) (ends : EndsLine rest)
    (ret : text.getLast? = some '\r' → startsWith (· = '\r') rest = false)
    (spells : Spells (some .comment) rest ws) :
    Spells last (text ++ rest) (.comment text :: ws) := by
  obtain ⟨c, cs, rfl, first⟩ : ∃ c cs, text = c :: cs ∧ c ≠ '\r' := by
    rcases h.starts with ⟨cs, rfl⟩ | ⟨c, part, cs, rfl, start, _⟩
    · exact ⟨_, _, rfl, by decide⟩
    · refine ⟨_, _, rfl, ?_⟩
      rintro rfl
      cases start
  have ret' : cs.getLast? = some '\r' ↔ (c :: cs).getLast? = some '\r' := by
    cases cs with
    | nil => simp [first]
    | cons d ds => simp [List.getLast?_cons_cons]
  have read := Lexeme.read_comment (a := Scan.endsOperand last) h ends fun same => ret (ret'.mp same)
  have spelled : Spells last (c :: (cs ++ rest))
      (⟨.comment, String.ofList (c :: (cs ++ rest).take (Comment.shown cs).length), none⟩ :: ws) := by
    refine .token read ?_
    unfold Comment.shown
    split
    · rename_i same
      obtain ⟨init, rfl⟩ := List.getLast?_eq_some_iff.mp same
      rw [List.dropLast_concat, List.append_assoc, List.drop_left]
      exact .of_blank rfl spells
    · rwa [List.drop_left]
  have word : c :: (cs ++ rest).take (Comment.shown cs).length = Comment.shown (c :: cs) := by
    unfold Comment.shown
    simp only [← ret']
    split
    · rename_i same
      obtain ⟨init, rfl⟩ := List.getLast?_eq_some_iff.mp same
      rw [List.dropLast_concat, List.append_assoc, List.take_left, ← List.cons_append,
        List.dropLast_concat]
    · rw [List.take_left]
  rw [word] at spelled
  exact spelled

end BrightScript
