import BrightScript.Proofs.Token.Faithful
import Mathlib.Algebra.Ring.Nat

/-! A line feed ends every lexeme.
What the characters before a line feed are read as does not depend on what stands behind it: it is
what they are read as at the end of the text. So a text is scanned line by line. -/
namespace BrightScript

open Text (startsWith)

namespace Text

variable {p : Char → Bool}

theorem takeWhile_line (stop : p '\n' = false) (cs rest : List Char) :
    (cs ++ '\n' :: rest).takeWhile p = cs.takeWhile p := by
  induction cs with
  | nil => simp [stop]
  | cons c cs ih => cases h : p c <;> simp [h, ih]

theorem startsWith_line (stop : p '\n' = false) (cs rest : List Char) :
    startsWith p (cs ++ '\n' :: rest) = startsWith p cs := by
  cases cs with
  | nil => exact stop
  | cons c cs => rfl

end Text

namespace Lexeme

variable (cs rest : List Char)

theorem lineLength_line : lineLength (cs ++ '\n' :: rest) = lineLength cs := by
  unfold lineLength
  rw [Text.takeWhile_line (by decide)]

theorem quoted_line : quoted (cs ++ '\n' :: rest) = quoted cs := by
  fun_induction quoted cs with
  | case1 => simp [quoted]
  | case2 cs q ih => simp [quoted, ih, q]
  | case3 cs other =>
    cases cs with
    | nil => simp [quoted]
    | cons c cs =>
      have single : c ≠ '"' := fun same => other cs (by rw [same])
      simp [quoted, single]
  | case4 => simp [quoted]
  | case5 => simp [quoted]
  | case6 => simp [quoted]
  | case7 c cs doubled quote feed last ret q ih =>
    rw [List.cons_append, quoted, ih]
    · exact fun _ same _ => quote same
    · exact quote
    · exact feed
    · exact fun _ same => by simp at same
    · intro ds same next
      cases cs with
      | nil => exact last same rfl
      | cons d es =>
        obtain ⟨rfl, _⟩ : d = '\n' ∧ _ := by simpa using next
        exact ret es same rfl

theorem string_line : string (cs ++ '\n' :: rest) = string cs := by
  rw [string, quoted_line]
  rfl

theorem digitCount_line : digitCount (cs ++ '\n' :: rest) = digitCount cs := by
  rw [digitCount, Text.takeWhile_line (by decide)]
  rfl

theorem fractionLength_line : fractionLength (cs ++ '\n' :: rest) = fractionLength cs := by
  cases cs with
  | nil => rfl
  | cons c cs =>
    by_cases point : c = '.'
    · subst point
      simp only [List.cons_append, fractionLength, digitCount_line]
    · simp [fractionLength, point]

theorem exponentLength_line : exponentLength (cs ++ '\n' :: rest) = exponentLength cs := by
  rcases cs with _ | ⟨mark, _ | ⟨c, cs⟩⟩
  · cases rest <;> simp [exponentLength]
  · simp [exponentLength]
  · have again := digitCount_line (c :: cs) rest
    rw [List.cons_append] at again
    simp only [List.cons_append, exponentLength, digitCount_line, again]

theorem fraction_line (c : Char) : fraction c (cs ++ '\n' :: rest) = fraction c cs := by
  unfold fraction
  rw [digitCount_line, List.drop_append_of_le_length (digitCount_le cs), fractionLength_line]

theorem exponent_line (c : Char) : exponent c (cs ++ '\n' :: rest) = exponent c cs := by
  have le : digitCount cs + fraction c cs ≤ cs.length :=
    Nat.le_trans (Nat.le_add_right _ _) (numeralLength_le c cs)
  unfold exponent
  rw [digitCount_line, fraction_line, List.drop_append_of_le_length le, exponentLength_line]

theorem numeralLength_line (c : Char) : numeralLength c (cs ++ '\n' :: rest) = numeralLength c cs := by
  unfold numeralLength
  rw [digitCount_line, fraction_line, exponent_line]

theorem typedNumeral_line (pointed : Bool) (digits : List Char) (length : Nat) :
    typedNumeral pointed digits length (cs ++ '\n' :: rest).head? =
      typedNumeral pointed digits length cs.head? := by
  cases cs with
  | nil => rfl
  | cons c cs => rfl

theorem number_line (c : Char) : number c (cs ++ '\n' :: rest) = number c cs := by
  have le := numeralLength_le c cs
  rw [number, number, numeralLength_line, fraction_line, exponent_line,
    List.take_append_of_le_length le, List.drop_append_of_le_length le, typedNumeral_line]

theorem hexNumber_line (c : Char) : hexNumber (c :: (cs ++ '\n' :: rest)) = hexNumber (c :: cs) := by
  have le := Text.length_takeWhile_le Text.isHexDigit cs
  rw [hexNumber_eq, hexNumber_eq, Text.takeWhile_line (by decide), List.drop_append_of_le_length le]
  cases more : cs.drop (cs.takeWhile Text.isHexDigit).length with
  | nil => exact typedHex_of_ne _ (by simp)
  | cons d ds => rfl

theorem secondWord?_line (first : Kind) :
    secondWord? first (cs ++ '\n' :: rest) = secondWord? first cs := by
  have blanks := Text.length_takeWhile_le Text.isSpace cs
  have word := Text.length_takeWhile_le Text.isWordPart (cs.drop (cs.takeWhile Text.isSpace).length)
  have starts := fun (p : Char → Bool) (stop : p '\n' = false) (ds : List Char) =>
    Text.startsWith_line stop ds rest
  unfold startsWith at starts
  simp only [secondWord?, Text.takeWhile_line (p := Text.isSpace) (by decide),
    List.drop_append_of_le_length blanks, Text.takeWhile_line (p := Text.isWordPart) (by decide),
    List.drop_append_of_le_length word, starts Text.isWordStart (by decide),
    starts Text.isDesignator (by decide)]

theorem keyword_line (kind : Kind) (extra : Nat) :
    keyword kind extra (cs ++ '\n' :: rest) = keyword kind extra cs := by
  cases first : isFirstWord kind with
  | false =>
    obtain ⟨v, same⟩ := keyword_of_not_first first extra
    rw [same, same]
  | true => rw [keyword_of_first first, keyword_of_first first, secondWord?_line]

theorem word_line (c : Char) : word c (cs ++ '\n' :: rest) = word c cs := by
  obtain ⟨part, after, rfl, parts, ends⟩ := exists_word cs
  have ends' : startsWith Text.isWordPart (after ++ '\n' :: rest) = false :=
    (Text.startsWith_line (by decide) after rest).trans ends
  rw [List.append_assoc, word_append c parts ends', word_append c parts ends,
    Text.startsWith_line (by decide)]
  simp only [plainWord, lineLength_line, keyword_line]

theorem operator_line (c : Char) : operator c (cs ++ '\n' :: rest) = operator c cs := by
  -- a line feed is no part of an operator, so no other equation applies to the longer text
  have apart : ∀ {d : Char} {ds : List Char}, (∀ tail, ds = d :: tail → False) → d ≠ '\n' →
      ∀ tail, ds ++ '\n' :: rest = d :: tail → False := by
    intro d ds other code tail same
    cases ds with
    | nil => exact code (List.cons.inj same).1.symm
    | cons e es => exact other es (by rw [(List.cons.inj same).1])
  fun_cases operator c cs
  all_goals try rfl
  case case4 other | case8 other =>
    rw [List.cons_append, operator]
    exact apart other (by decide)
  case case22 =>
    rw [operator]
    all_goals first | assumption | (intros; contradiction)
  all_goals
    rw [operator]
    all_goals first
      | exact apart (by assumption) (by decide)
      | exact fun tail same => apart (by assumption) (by decide) _ same

theorem read_line (a : Bool) (c : Char) : read a c (cs ++ '\n' :: rest) = read a c cs := by
  have hex : ((cs ++ '\n' :: rest).head? = some 'h' || (cs ++ '\n' :: rest).head? = some 'H') =
      (cs.head? = some 'h' || cs.head? = some 'H') := by
    cases cs with
    | nil => rfl
    | cons d ds => rfl
  have digit := Text.startsWith_line (p := Char.isDigit) (by decide) cs rest
  unfold startsWith at digit
  simp only [read, lineLength_line, string_line, digit, number_line, hex, word_line, operator_line]
  cases cs with
  | nil => simp
  | cons d ds => rw [List.cons_append, hexNumber_line]

theorem quoted_length_le : (quoted cs).length ≤ cs.length := by
  fun_induction quoted cs with
  | case1 => exact Nat.le_refl _
  | case2 cs q ih => simpa using ih
  | case3 cs _ => simp
  | case4 => exact Nat.zero_le _
  | case5 => exact Nat.zero_le _
  | case6 => exact Nat.zero_le _
  | case7 c cs _ _ _ _ _ q ih => simpa using ih

theorem string_extra : (string cs).extra = (quoted cs).length := by
  unfold string
  dsimp only
  split <;> rfl

theorem keyword_extra_le (kind : Kind) (extra : Nat) :
    (keyword kind extra cs).extra ≤ extra + cs.length := by
  rcases keyword_cases kind extra cs with ⟨_, same, _⟩ | ⟨_, _, same, second⟩ <;> rw [same]
  · exact Nat.le_add_right _ _
  · obtain ⟨_, _, _, rfl, rfl, _⟩ := secondWord?_eq_some second
    simp only [mark, List.length_append]
    omega

theorem word_extra_le (c : Char) : (word c cs).extra ≤ cs.length := by
  obtain ⟨part, after, rfl, parts, ends⟩ := exists_word cs
  rw [word_append c parts ends, List.length_append]
  split
  · rename_i designator
    cases after with
    | nil => simp at designator
    | cons d ds => simp [mark]
  · simp only [plainWord, List.length_cons, Nat.add_sub_cancel]
    split
    · exact Nat.add_le_add_left (drop_lineLength after).1 _
    · split
      · exact keyword_extra_le after _ _
      · exact Nat.le_add_right _ _

theorem operator_extra_le {c : Char} {lexeme : Lexeme} (found : operator c cs = some lexeme) :
    lexeme.extra ≤ cs.length := by
  unfold operator at found
  split at found <;> cases found <;> simp [mark]

theorem read_extra_le (a : Bool) (c : Char) : (read a c cs).extra ≤ cs.length := by
  unfold read
  split
  · exact Nat.zero_le _
  split
  · exact (drop_lineLength cs).1
  split
  · rw [string_extra]
    exact quoted_length_le cs
  split
  · split
    · exact number_extra_le c cs
    · exact Nat.zero_le _
  split
  · rename_i hex
    cases cs with
    | nil => simp at hex
    | cons d ds => exact hexNumber_extra_le d ds
  split
  · exact number_extra_le c cs
  split
  · exact word_extra_le cs c
  split
  · exact Nat.zero_le _
  · rename_i found
    exact operator_extra_le cs found
  · exact Nat.zero_le _

theorem feed_not_mem_read {a : Bool} {c : Char} (code : c ≠ '\n') :
    '\n' ∉ c :: cs.take (read a c cs).extra := by
  rw [List.mem_cons, not_or]
  refine ⟨Ne.symm code, fun mem => ?_⟩
  obtain ⟨line, rest, same, before⟩ := List.eq_append_cons_of_mem (List.mem_of_mem_take mem)
  rw [same, read_line, List.take_append_of_le_length (read_extra_le line a c)] at mem
  exact before (List.mem_of_mem_take mem)

end Lexeme

/- The same place in a text that has so many lines before it. -/
def Position.shift (lines : Nat) (p : Position) : Position := ⟨p.line + lines, p.column⟩

def Range.shift (lines : Nat) (r : Range) : Range := ⟨r.start.shift lines, r.stop.shift lines⟩

def Token.shift (lines : Nat) (t : Token) : Token := { t with range := t.range.shift lines }

def Diagnostic.shift (lines : Nat) (d : Diagnostic) : Diagnostic :=
  { d with range := d.range.shift lines }

def Scan.shift (lines : Nat) (s : Scan) : Scan :=
  ⟨s.tokens.map (·.shift lines), s.diagnostics.map (·.shift lines)⟩

namespace Position

theorem shift_step (lines : Nat) (p : Position) (c : Char) :
    (p.shift lines).step c = (p.step c).shift lines := by
  unfold step shift
  split
  · simp [Nat.add_right_comm]
  · rfl

theorem shift_after (lines : Nat) (p : Position) (text : List Char) :
    (p.shift lines).after text = (p.after text).shift lines := by
  induction text generalizing p with
  | nil => rfl
  | cons c text ih => rw [after_cons, after_cons, shift_step, ih]

/-- Where a text ends: below as many lines as it has line feeds, and as many code units to the
right as there are since the last of them. -/
def endOf (text : List Char) : Position :=
  ⟨text.count '\n', ((text.reverse.takeWhile (· ≠ '\n')).map units).sum⟩

theorem endOf_concat (text : List Char) (c : Char) : endOf (text ++ [c]) = (endOf text).step c := by
  unfold endOf step
  by_cases feed : c = '\n'
  · simp [feed]
  · simp [feed, Nat.add_comm]

theorem after_origin (text : List Char) : origin.after text = endOf text := by
  induction text using List.reverseRecOn with
  | nil => rfl
  | append_singleton text c ih => rw [after_append, ih, endOf_concat, after_cons, after_nil]

theorem after_line (p : Position) (text : List Char) :
    p.after (text ++ ['\n']) = origin.shift (p.line + text.count '\n' + 1) := by
  induction text generalizing p with
  | nil => simp [step, shift, origin]
  | cons c text ih =>
    rw [List.cons_append, after_cons, ih]
    by_cases feed : c = '\n'
    · simp [step, feed, shift, Nat.add_right_comm, Nat.add_assoc]
    · simp [step, feed]

end Position

def Reading.kind? : Reading → Option Kind
  | .token kind _ => some kind
  | .openString _ => some .stringLiteral
  | .blank | .stray => none

/-- The characters of a lexeme that begins with `c`. -/
def Lexeme.slice (lexeme : Lexeme) (c : Char) (cs : List Char) : List Char :=
  c :: cs.take lexeme.extra

theorem Lexeme.slice_append (lexeme : Lexeme) (c : Char) (cs : List Char) :
    lexeme.slice c cs ++ cs.drop lexeme.extra = c :: cs := by
  rw [slice, List.cons_append, List.take_append_drop]

theorem Lexeme.after_slice (lexeme : Lexeme) (start : Position) (c : Char) (cs : List Char) :
    (start.after (lexeme.slice c cs)).after (cs.drop lexeme.extra) = start.after (c :: cs) := by
  rw [← Position.after_append, slice_append]

namespace Scan

def push (reading : Reading) (c : Char) (slice : List Char) (start : Position) (rest : Scan) : Scan :=
  ⟨tokensOf reading (String.ofList slice) ⟨start, start.after slice⟩ ++ rest.tokens,
    problemsOf reading c ⟨start, start.after slice⟩ ++ rest.diagnostics⟩

theorem run_cons (last : Option Kind) (start : Position) (c : Char) (cs : List Char) :
    run last start (c :: cs) =
      let lexeme := Lexeme.read (endsOperand last) c cs
      push lexeme.reading c (lexeme.slice c cs) start
        (run (lexeme.reading.kind?.or last) (start.after (lexeme.slice c cs))
          (cs.drop lexeme.extra)) := by
  rw [run]
  generalize Lexeme.read (endsOperand last) c cs = lexeme
  obtain ⟨reading, extra⟩ := lexeme
  cases reading <;> rfl

theorem run_induction {motive : Option Kind → Position → List Char → Prop}
    (nil : ∀ last start, motive last start [])
    (cons : ∀ last start c cs (lexeme : Lexeme), Lexeme.read (endsOperand last) c cs = lexeme →
      motive (lexeme.reading.kind?.or last) (start.after (lexeme.slice c cs))
        (cs.drop lexeme.extra) → motive last start (c :: cs))
    (last : Option Kind) (start : Position) (text : List Char) : motive last start text := by
  induction length : text.length using Nat.strongRecOn generalizing last start text with
  | ind n ih =>
    cases text with
    | nil => exact nil last start
    | cons c cs =>
      refine cons last start c cs _ rfl (ih _ ?_ _ _ _ rfl)
      rw [← length, List.length_drop, List.length_cons]
      omega

theorem run_of_endsOperand {last last' : Option Kind} (start : Position) (text : List Char)
    (same : endsOperand last = endsOperand last') : run last start text = run last' start text := by
  induction last, start, text using run_induction generalizing last' with
  | nil last start => rw [run, run]
  | cons last start c cs lexeme read ih =>
    have again : endsOperand (lexeme.reading.kind?.or last) =
        endsOperand (lexeme.reading.kind?.or last') := by
      cases lexeme.reading.kind? with
      | none => exact same
      | some k => rfl
    simp only [run_cons, ← same, read]
    rw [ih again]

theorem push_shift (reading : Reading) (c : Char) (slice : List Char) (start : Position)
    (rest : Scan) (lines : Nat) :
    push reading c slice (start.shift lines) (rest.shift lines) =
      (push reading c slice start rest).shift lines := by
  unfold push shift
  rw [Position.shift_after, List.map_append, List.map_append]
  cases reading <;> rfl

theorem run_shift (last : Option Kind) (start : Position) (text : List Char) (lines : Nat) :
    run last (start.shift lines) text = (run last start text).shift lines := by
  induction last, start, text using run_induction with
  | nil last start => rw [run, run]; rfl
  | cons last start c cs lexeme read ih =>
    simp only [run_cons, read]
    rw [Position.shift_after, ih, push_shift]

def lineThen (start : Position) (more : List Char) : Scan :=
  push (.token .newline none) '\n' ['\n'] start ((run none .origin more).shift (start.line + 1))

theorem run_feed (last : Option Kind) (start : Position) (more : List Char) :
    run last start ('\n' :: more) = lineThen start more := by
  have read : Lexeme.read (endsOperand last) '\n' more = ⟨.token .newline none, 0⟩ := rfl
  have stop : start.after ['\n'] = Position.origin.shift (start.line + 1) :=
    start.after_line []
  simp only [run_cons, read, Lexeme.slice, List.take_zero, List.drop_zero, stop]
  rw [run_shift]
  exact congrArg (push _ _ _ _ <| shift _ ·) (run_of_endsOperand _ _ rfl)

theorem run_endOfFile (last : Option Kind) (start : Position) (text : List Char) :
    ∃ front, (run last start text).tokens = front ++ [.endOfFile (start.after text)] ∧
      ∀ t ∈ front, t.kind ≠ .endOfFile := by
  induction last, start, text using run_induction with
  | nil last start => exact ⟨[], by rw [run]; rfl, by simp⟩
  | cons last start c cs lexeme read ih =>
    obtain ⟨front, tokens, code⟩ := ih
    refine ⟨tokensOf lexeme.reading (String.ofList (lexeme.slice c cs))
      ⟨start, start.after (lexeme.slice c cs)⟩ ++ front, ?_, fun t mem => ?_⟩
    · rw [← lexeme.after_slice, run_cons, List.append_assoc, ← tokens, read]
      rfl
    · rcases List.mem_append.mp mem with own | later
      · obtain ⟨reading, extra⟩ := lexeme
        cases reading with
        | token k v =>
          obtain rfl := List.mem_singleton.mp own
          exact Lexeme.read_ne_endOfFile read
        | openString v =>
          obtain rfl := List.mem_singleton.mp own
          exact Kind.noConfusion
        | blank => cases own
        | stray => cases own
      · exact code t later

/-- A text is scanned up to a line feed as if it ended there. -/
theorem run_line (last : Option Kind) (start : Position) (text more : List Char) :
    run last start (text ++ '\n' :: more) =
      ⟨(run last start text).tokens.dropLast ++ (lineThen (start.after text) more).tokens,
        (run last start text).diagnostics ++ (lineThen (start.after text) more).diagnostics⟩ := by
  induction last, start, text using run_induction with
  | nil last start =>
    rw [List.nil_append, run_feed, run]
    rfl
  | cons last start c cs lexeme read ih =>
    have le : lexeme.extra ≤ cs.length := read ▸ Lexeme.read_extra_le cs _ c
    have slice : lexeme.slice c (cs ++ '\n' :: more) = lexeme.slice c cs := by
      rw [Lexeme.slice, List.take_append_of_le_length le]
      rfl
    have some : (run (lexeme.reading.kind?.or last) (start.after (lexeme.slice c cs))
        (cs.drop lexeme.extra)).tokens ≠ [] := by
      obtain ⟨front, tokens, _⟩ := run_endOfFile (lexeme.reading.kind?.or last)
        (start.after (lexeme.slice c cs)) (cs.drop lexeme.extra)
      simp [tokens]
    simp only [List.cons_append, run_cons, Lexeme.read_line, read, slice,
      List.drop_append_of_le_length le]
    rw [ih, lexeme.after_slice]
    simp only [push, List.dropLast_append_of_ne_nil some, List.append_assoc]

end Scan

theorem scan_endOfFile (source : String) :
    ∃ front, (scan source).tokens = front ++ [.endOfFile (.endOf source.toList)] ∧
      ∀ t ∈ front, t.kind ≠ .endOfFile := by
  obtain ⟨front, tokens, code⟩ := Scan.run_endOfFile none .origin source.toList
  rw [Position.after_origin] at tokens
  exact ⟨front, tokens, code⟩

theorem scan_line (a b : String) :
    let lines := a.toList.count '\n' + 1
    scan (a ++ "\n" ++ b) =
      ⟨(scan a).tokens.dropLast ++
          ⟨.newline, "\n", ⟨.endOf a.toList, ⟨lines, 0⟩⟩, none⟩ ::
            (scan b).tokens.map (·.shift lines),
        (scan a).diagnostics ++ (scan b).diagnostics.map (·.shift lines)⟩ := by
  intro lines
  have text : (a ++ "\n" ++ b).toList = a.toList ++ '\n' :: b.toList := by
    simp [show "\n".toList = ['\n'] from rfl]
  have stop : (Position.endOf a.toList).after ['\n'] = ⟨lines, 0⟩ := by
    simp [Position.endOf, Position.step, lines]
  rw [scan, text, Scan.run_line, Position.after_origin, Scan.lineThen, Scan.push, stop]
  rfl

/-- Scanning is compositional over lines, reports included. -/
theorem scan_append_line (a b : String) :
    let lines := a.toList.count '\n' + 1
    ∃ front, (scan a).tokens = front ++ [.endOfFile (.endOf a.toList)] ∧
      (∀ t ∈ front, t.kind ≠ .endOfFile) ∧
      (scan (a ++ "\n" ++ b)).tokens =
        front ++ ⟨.newline, "\n", ⟨.endOf a.toList, ⟨lines, 0⟩⟩, none⟩ ::
          (scan b).tokens.map (·.shift lines) ∧
      (scan (a ++ "\n" ++ b)).diagnostics =
        (scan a).diagnostics ++ (scan b).diagnostics.map (·.shift lines) := by
  intro lines
  obtain ⟨front, tokens, code⟩ := scan_endOfFile a
  refine ⟨front, tokens, code, ?_, ?_⟩
  · rw [scan_line, tokens, List.dropLast_concat]
  · rw [scan_line]

end BrightScript
