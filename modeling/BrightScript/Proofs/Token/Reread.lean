import BrightScript.Emit.Layout
import BrightScript.Token.Lexeme

/-! Lexemes read again with other text after them.
What a lexeme is read as depends on its own characters, and past them only on whether the next
ones could belong to it. So a lexeme that is cut out of one text and put before another is read
as the same one, if that text does not touch it. -/
namespace BrightScript

variable {rest text : List Char} {c : Char} {p : Char → Bool}

/-- Whether a text begins with such a character. -/
def Text.startsWith (p : Char → Bool) (text : List Char) : Bool := text.head?.any p

namespace Text

@[simp] theorem startsWith_nil (p : Char → Bool) : startsWith p [] = false := rfl

@[simp] theorem startsWith_cons (p : Char → Bool) (c : Char) (cs : List Char) :
    startsWith p (c :: cs) = p c := rfl

theorem startsWith_eq_false_of_imp {q : Char → Bool} (weaker : ∀ c, p c = true → q c = true)
    (h : startsWith q text = false) : startsWith p text = false := by
  cases text with
  | nil => rfl
  | cons c cs =>
    cases hp : p c with
    | false => simpa using hp
    | true => simp [weaker c hp] at h

def startsWithFraction : List Char → Bool
  | c :: cs => c = '.' && startsWith Char.isDigit cs
  | [] => false

theorem takeWhile_append_of_startsWith (h : startsWith p rest = false) :
    (text.takeWhile p ++ rest).takeWhile p = text.takeWhile p := by
  rw [List.takeWhile_append_of_pos (List.all_eq_true.mp List.all_takeWhile)]
  cases rest with
  | nil => simp
  | cons c cs =>
    have : p c = false := h
    simp [this]

theorem take_length_takeWhile (p : Char → Bool) (text : List Char) :
    text.take (text.takeWhile p).length = text.takeWhile p :=
  (List.prefix_iff_eq_take.mp (List.takeWhile_prefix p)).symm

theorem length_takeWhile_le (p : Char → Bool) (text : List Char) :
    (text.takeWhile p).length ≤ text.length := (List.takeWhile_prefix p).length_le

theorem isWordPart_of_isDigit (h : c.isDigit = true) : isWordPart c = true := by
  simp [isWordPart, h]

theorem isUpper_iff : c.isUpper = true ↔ 'A'.val ≤ c.val ∧ c.val ≤ 'Z'.val := decide_eq_true_iff

theorem isLower_iff : c.isLower = true ↔ 'a'.val ≤ c.val ∧ c.val ≤ 'z'.val :=
  Bool.and_eq_true_iff.trans (and_congr decide_eq_true_iff decide_eq_true_iff)

theorem isAlpha_iff : c.isAlpha = true ↔ c.isUpper = true ∨ c.isLower = true := Bool.or_eq_true_iff

theorem isWordPart_of_isHexDigit (h : isHexDigit c = true) : isWordPart c = true := by
  have letter (alpha : c.isAlpha = true) : isWordPart c = true := by
    simp [isWordPart, isWordStart, alpha]
  simp only [isHexDigit, Bool.or_eq_true, Bool.and_eq_true, decide_eq_true_eq] at h
  rcases h with (digit | ⟨low, high⟩) | ⟨low, high⟩
  · exact isWordPart_of_isDigit digit
  · exact letter (isAlpha_iff.mpr (.inr (isLower_iff.mpr ⟨low, UInt32.le_trans high (by decide)⟩)))
  · exact letter (isAlpha_iff.mpr (.inl (isUpper_iff.mpr ⟨low, UInt32.le_trans high (by decide)⟩)))

end Text

namespace Lexeme

open Text (startsWith startsWithFraction)

variable {cs : List Char}

theorem take_digitCount (cs : List Char) : cs.take (digitCount cs) = cs.takeWhile Char.isDigit :=
  Text.take_length_takeWhile _ cs

theorem digitCount_le (cs : List Char) : digitCount cs ≤ cs.length :=
  Text.length_takeWhile_le _ cs

theorem digitCount_reread (cs : List Char) (ends : startsWith Char.isDigit rest = false) :
    digitCount (cs.take (digitCount cs) ++ rest) = digitCount cs := by
  rw [take_digitCount, digitCount, Text.takeWhile_append_of_startsWith ends]
  rfl

theorem fractionLength_le (cs : List Char) : fractionLength cs ≤ cs.length := by
  unfold fractionLength
  split
  · rename_i ds
    have := digitCount_le ds
    split
    · exact Nat.zero_le _
    · rw [List.length_cons]
      omega
  · exact Nat.zero_le _

theorem fractionLength_eq_zero (ends : startsWithFraction rest = false) :
    fractionLength rest = 0 := by
  unfold fractionLength
  split
  · rename_i ds
    have : startsWith Char.isDigit ds = false := by simpa [startsWithFraction] using ends
    have none : digitCount ds = 0 := by
      cases ds with
      | nil => rfl
      | cons d ds => simp_all [digitCount]
    simp [none]
  · rfl

theorem fractionLength_reread (cs : List Char) (digits : startsWith Char.isDigit rest = false)
    (ends : startsWithFraction rest = false) :
    fractionLength (cs.take (fractionLength cs) ++ rest) = fractionLength cs := by
  by_cases none : fractionLength cs = 0
  · rw [none]
    exact fractionLength_eq_zero ends
  · obtain ⟨ds, rfl⟩ : ∃ ds, cs = '.' :: ds := by
      unfold fractionLength at none
      split at none
      · exact ⟨_, rfl⟩
      · exact absurd rfl none
    have some : digitCount ds ≠ 0 := fun h => none (by simp [fractionLength, h])
    have length : fractionLength ('.' :: ds) = digitCount ds + 1 := by
      simp [fractionLength, some]
    have again := digitCount_reread ds digits
    rw [length, List.take_succ_cons, List.cons_append]
    simp [fractionLength, again, some]

theorem exponentLength_le (cs : List Char) : exponentLength cs ≤ cs.length := by
  unfold exponentLength
  split
  · rename_i mark c ds
    have := digitCount_le ds
    have := digitCount_le (c :: ds)
    split
    · split
      · simp only [List.length_cons]; omega
      · split
        · simp only [List.length_cons] at *; omega
        · exact Nat.zero_le _
    · exact Nat.zero_le _
  · exact Nat.zero_le _

theorem exponentLength_eq_zero (ends : startsWith Text.isWordPart rest = false) :
    exponentLength rest = 0 := by
  unfold exponentLength
  split
  · rename_i mark c ds
    have noMark : ¬ (mark = 'e' || mark = 'E') = true := by
      intro h
      simp only [Bool.or_eq_true, decide_eq_true_eq] at h
      have part : Text.isWordPart mark = true := by rcases h with rfl | rfl <;> decide
      simp [part] at ends
    rw [if_neg noMark]
  · rfl

theorem exponentLength_reread (cs : List Char) (ends : startsWith Text.isWordPart rest = false) :
    exponentLength (cs.take (exponentLength cs) ++ rest) = exponentLength cs := by
  have digits : startsWith Char.isDigit rest = false :=
    Text.startsWith_eq_false_of_imp (fun _ => Text.isWordPart_of_isDigit) ends
  by_cases none : exponentLength cs = 0
  · rw [none]
    exact exponentLength_eq_zero ends
  · match cs, none with
    | [], none => exact absurd rfl none
    | [_], none => exact absurd rfl none
    | mark :: c :: ds, none =>
      by_cases isMark : (mark = 'e' || mark = 'E') = true
      · by_cases sign : (c = '+' || c = '-') = true
        · have length : exponentLength (mark :: c :: ds) = digitCount ds + 2 := by
            simp only [exponentLength, isMark, sign, if_true]
          have again := digitCount_reread ds digits
          rw [length, List.take_succ_cons, List.take_succ_cons, List.cons_append, List.cons_append]
          simp only [exponentLength, isMark, sign, if_true, again]
        · by_cases digit : c.isDigit = true
          · have length : exponentLength (mark :: c :: ds) = digitCount (c :: ds) + 1 := by
              simp only [exponentLength, isMark, sign, digit, if_true]
              simp
            have again := digitCount_reread (c :: ds) digits
            have first : digitCount (c :: ds) = digitCount ds + 1 := by simp [digitCount, digit]
            rw [first, List.take_succ_cons, List.cons_append] at again
            rw [length, first, List.take_succ_cons, List.take_succ_cons, List.cons_append,
              List.cons_append]
            simp only [exponentLength, isMark, sign, digit, if_true, again]
            simp
          · exact absurd (by simp only [exponentLength, isMark, sign, digit, if_true]; simp) none
      · exact absurd (by simp only [exponentLength, isMark]; simp) none

theorem startsWith_drop_digitCount (cs : List Char) :
    startsWith Char.isDigit (cs.drop (digitCount cs)) = false := by
  induction cs with
  | nil => rfl
  | cons c cs ih =>
    cases h : c.isDigit with
    | false => simp [digitCount, h]
    | true => simpa [digitCount, h] using ih

theorem startsWith_drop_fractionLength (h : startsWith Char.isDigit cs = false) :
    startsWith Char.isDigit (cs.drop (fractionLength cs)) = false := by
  unfold fractionLength
  split
  · rename_i ds
    split
    · exact h
    · simpa using startsWith_drop_digitCount ds
  · exact h

theorem startsWith_take_append (n : Nat) (inside : startsWith p text = false)
    (after : startsWith p rest = false) : startsWith p (text.take n ++ rest) = false := by
  cases n with
  | zero => simpa using after
  | succ n =>
    cases text with
    | nil => simpa using after
    | cons c cs => simpa using inside

theorem fraction_le (c : Char) (cs : List Char) :
    fraction c cs ≤ (cs.drop (digitCount cs)).length := by
  unfold fraction
  split
  · exact Nat.zero_le _
  · exact fractionLength_le _

theorem numeralLength_le (c : Char) (cs : List Char) : numeralLength c cs ≤ cs.length := by
  have whole := digitCount_le cs
  have fraction := fraction_le c cs
  have exponent : exponent c cs ≤ (cs.drop (digitCount cs + Lexeme.fraction c cs)).length :=
    exponentLength_le _
  simp only [List.length_drop] at fraction exponent
  unfold numeralLength
  omega

/- A text that may follow a numeral, once its suffix has been told off. -/
structure EndsNumeral (rest : List Char) : Prop where
  part : startsWith Text.isWordPart rest = false
  point : startsWithFraction rest = false

theorem EndsNumeral.digit (h : EndsNumeral rest) : startsWith Char.isDigit rest = false :=
  Text.startsWith_eq_false_of_imp (fun _ => Text.isWordPart_of_isDigit) h.part

theorem startsWith_drop_fraction (c : Char) (cs : List Char) :
    startsWith Char.isDigit (cs.drop (digitCount cs + fraction c cs)) = false := by
  have whole := startsWith_drop_digitCount cs
  simp only [fraction, ← List.drop_drop]
  split
  · exact whole
  · exact startsWith_drop_fractionLength whole

theorem startsWithFraction_exponent (cs : List Char) (ends : startsWithFraction rest = false) :
    startsWithFraction (cs.take (exponentLength cs) ++ rest) = false := by
  cases cs with
  | nil => exact ends
  | cons d ds =>
    by_cases point : d = '.'
    · subst point
      have none : exponentLength ('.' :: ds) = 0 :=
        exponentLength_eq_zero (show Text.isWordPart '.' = false by decide)
      rw [none]
      exact ends
    · cases exponentLength (d :: ds) with
      | zero => exact ends
      | succ n => simp [startsWithFraction, point]

theorem numeral_reread (c : Char) (cs : List Char) (ends : EndsNumeral rest)
    (cut : text = cs.take (numeralLength c cs) ++ rest) :
    digitCount text = digitCount cs ∧ fraction c text = fraction c cs ∧
      exponent c text = exponent c cs := by
  let afterWhole := cs.drop (digitCount cs)
  let afterFraction := cs.drop (digitCount cs + fraction c cs)
  let last := afterFraction.take (exponent c cs) ++ rest
  have text_eq : text = cs.take (digitCount cs + fraction c cs) ++ last := by
    simp only [cut, last, numeralLength, afterFraction, List.take_add, List.append_assoc]
  have text_eq' : text = cs.take (digitCount cs) ++ (afterWhole.take (fraction c cs) ++ last) := by
    simp only [text_eq, afterWhole, List.take_add, List.append_assoc]
  have digit_last : startsWith Char.isDigit last = false :=
    startsWith_take_append _ (startsWith_drop_fraction c cs) ends.digit
  have whole : digitCount text = digitCount cs := by
    rw [text_eq']
    exact digitCount_reread cs
      (startsWith_take_append _ (startsWith_drop_digitCount cs) digit_last)
  have fraction_eq : fraction c text = fraction c cs := by
    have dropped : text.drop (digitCount cs) = afterWhole.take (fraction c cs) ++ last := by
      rw [text_eq', List.drop_left' (by simp [digitCount_le])]
    have point_last : startsWithFraction last = false :=
      startsWithFraction_exponent afterFraction ends.point
    have again := fractionLength_reread afterWhole digit_last point_last
    rw [fraction, whole, dropped, fraction]
    split
    · rfl
    · exact again
  refine ⟨whole, fraction_eq, ?_⟩
  have dropped : text.drop (digitCount cs + fraction c cs) = last := by
    have length : (cs.take (digitCount cs + fraction c cs)).length =
        digitCount cs + fraction c cs := by
      rw [List.length_take, Nat.min_eq_left]
      exact Nat.le_trans (Nat.le_add_right _ _) (numeralLength_le c cs)
    rw [text_eq, List.drop_left' length]
  rw [exponent, whole, fraction_eq, dropped]
  exact exponentLength_reread afterFraction ends.part

/- A numeral's last character may give its type, as `%` does for an integer. -/
def isNumeralSuffix (c : Char) : Bool := c = '%' || c = '&' || c = '#' || c = '!'

theorem typedNumeral_of_not_suffix (pointed : Bool) (digits : List Char) (length : Nat)
    {next : Option Char} (h : next.any isNumeralSuffix = false) :
    typedNumeral pointed digits length next =
      if pointed then literal .floatLiteral (floatValue digits) length
      else wholeNumber digits length := by
  unfold typedNumeral
  split <;> simp_all [isNumeralSuffix]

theorem wholeNumber_extra (digits : List Char) (extra : Nat) :
    (wholeNumber digits extra).extra = extra := by
  unfold wholeNumber
  split <;> rfl

theorem typedNumeral_extra (pointed : Bool) (digits : List Char) (length : Nat)
    (next : Option Char) :
    (typedNumeral pointed digits length next).extra =
      if next.any isNumeralSuffix then length + 1 else length := by
  cases h : next.any isNumeralSuffix with
  | false =>
    rw [typedNumeral_of_not_suffix _ _ _ h]
    split
    · rfl
    · exact wholeNumber_extra digits length
  | true =>
    cases next with
    | none => simp at h
    | some c =>
      have suffix : isNumeralSuffix c = true := h
      simp only [isNumeralSuffix, Bool.or_eq_true, decide_eq_true_eq] at suffix
      rcases suffix with ((rfl | rfl) | rfl) | rfl <;> rfl

theorem number_extra_le (c : Char) (cs : List Char) : (number c cs).extra ≤ cs.length := by
  have le := numeralLength_le c cs
  rw [number, typedNumeral_extra]
  split
  · rename_i suffix
    cases more : cs.drop (numeralLength c cs) with
    | nil => simp [more] at suffix
    | cons d ds =>
      have : (cs.drop (numeralLength c cs)).length = ds.length + 1 := by rw [more]; rfl
      rw [List.length_drop] at this
      omega
  · exact le

theorem number_append (ends : EndsNumeral rest)
    (same : rest.head?.any isNumeralSuffix = true →
      rest.head? = (cs.drop (numeralLength c cs)).head?)
    (none : rest.head?.any isNumeralSuffix = false →
      (cs.drop (numeralLength c cs)).head?.any isNumeralSuffix = false) :
    number c (cs.take (numeralLength c cs) ++ rest) = number c cs := by
  obtain ⟨whole, fraction, exponent⟩ := numeral_reread c cs ends rfl
  have length : numeralLength c (cs.take (numeralLength c cs) ++ rest) = numeralLength c cs := by
    change digitCount _ + Lexeme.fraction c _ + Lexeme.exponent c _ = _
    rw [whole, fraction, exponent]
    rfl
  have taken : (cs.take (numeralLength c cs)).length = numeralLength c cs := by
    rw [List.length_take, Nat.min_eq_left (numeralLength_le c cs)]
  rw [number, number, length, fraction, exponent, List.take_left' taken,
    List.drop_left' taken]
  cases h : rest.head?.any isNumeralSuffix with
  | true => rw [same h]
  | false =>
    rw [typedNumeral_of_not_suffix _ _ _ h, typedNumeral_of_not_suffix _ _ _ (none h)]

theorem number_reread (ends : EndsNumeral rest) (plain : startsWith isNumeralSuffix rest = false) :
    number c (cs.take (number c cs).extra ++ rest) = number c cs := by
  have extra : (number c cs).extra =
      if (cs.drop (numeralLength c cs)).head?.any isNumeralSuffix then numeralLength c cs + 1
      else numeralLength c cs := by
    rw [number, typedNumeral_extra]
  cases more : cs.drop (numeralLength c cs) with
  | nil =>
    rw [more] at extra
    rw [show (number c cs).extra = numeralLength c cs from extra]
    exact number_append ends (fun h => absurd h (by simpa [startsWith] using plain))
      fun _ => by simp [more]
  | cons d ds =>
    rw [more] at extra
    cases suffix : isNumeralSuffix d with
    | false =>
      rw [show (number c cs).extra = numeralLength c cs by simpa [suffix] using extra]
      exact number_append ends (fun h => absurd h (by simpa [startsWith] using plain))
        fun _ => by simp [more, suffix]
    | true =>
      rw [show (number c cs).extra = numeralLength c cs + 1 by simpa [suffix] using extra,
        List.take_add, more, List.take_succ_cons, List.take_zero, List.append_assoc]
      have ends' : EndsNumeral (d :: rest) := by
        have d_eq := suffix
        simp only [isNumeralSuffix, Bool.or_eq_true, decide_eq_true_eq] at d_eq
        constructor
        · rcases d_eq with ((rfl | rfl) | rfl) | rfl <;> rfl
        · rcases d_eq with ((rfl | rfl) | rfl) | rfl <;> rfl
      exact number_append ends' (fun _ => by simp [more]) fun h => by simp [suffix] at h

theorem hexNumber_eq (c : Char) (cs : List Char) :
    hexNumber (c :: cs) =
      typedHex (cs.takeWhile Text.isHexDigit)
        (cs.drop (cs.takeWhile Text.isHexDigit).length).head? := rfl

theorem typedHex_of_ne (digits : List Char) {next : Option Char} (h : next ≠ some '&') :
    typedHex digits next = typedHex digits none := by
  simp [typedHex, h]

theorem hexNumber_append (c : Char) (part : startsWith Text.isWordPart rest = false) :
    hexNumber (c :: (cs.takeWhile Text.isHexDigit ++ rest)) =
      typedHex (cs.takeWhile Text.isHexDigit) rest.head? := by
  have digits : (cs.takeWhile Text.isHexDigit ++ rest).takeWhile Text.isHexDigit =
      cs.takeWhile Text.isHexDigit :=
    Text.takeWhile_append_of_startsWith
      (Text.startsWith_eq_false_of_imp (fun _ => Text.isWordPart_of_isHexDigit) part)
  rw [hexNumber_eq, digits, List.drop_left]

theorem hexNumber_extra_le (c : Char) (cs : List Char) :
    (hexNumber (c :: cs)).extra ≤ cs.length + 1 := by
  have le := Text.length_takeWhile_le Text.isHexDigit cs
  rw [hexNumber_eq]
  unfold typedHex
  split
  · rename_i suffix
    cases more : cs.drop (cs.takeWhile Text.isHexDigit).length with
    | nil => simp [more] at suffix
    | cons d ds =>
      have : (cs.drop (cs.takeWhile Text.isHexDigit).length).length = ds.length + 1 := by
        rw [more]
        rfl
      simp only [List.length_drop] at this
      simp only [literal]
      omega
  · simpa [literal] using le

theorem hexNumber_reread (c : Char) (cs : List Char)
    (part : startsWith Text.isWordPart rest = false)
    (plain : startsWith isNumeralSuffix rest = false) :
    hexNumber ((c :: cs).take (hexNumber (c :: cs)).extra ++ rest) = hexNumber (c :: cs) := by
  have taken := Text.take_length_takeWhile Text.isHexDigit cs
  by_cases suffix : (cs.drop (cs.takeWhile Text.isHexDigit).length).head? = some '&'
  · -- the suffix belongs to the numeral
    have extra : (hexNumber (c :: cs)).extra = (cs.takeWhile Text.isHexDigit).length + 2 := by
      rw [hexNumber_eq, suffix]
      rfl
    obtain ⟨ds, more⟩ : ∃ ds, cs.drop (cs.takeWhile Text.isHexDigit).length = '&' :: ds := by
      cases more : cs.drop (cs.takeWhile Text.isHexDigit).length with
      | nil => simp [more] at suffix
      | cons d ds => exact ⟨ds, by simpa [more] using suffix⟩
    have cut : (c :: cs).take (hexNumber (c :: cs)).extra ++ rest =
        c :: (cs.takeWhile Text.isHexDigit ++ '&' :: rest) := by
      rw [extra, List.take_succ_cons, List.take_add, taken, more]
      simp
    rw [cut, hexNumber_append c (show startsWith Text.isWordPart ('&' :: rest) = false from rfl),
      hexNumber_eq, suffix]
    rfl
  · have extra : (hexNumber (c :: cs)).extra = (cs.takeWhile Text.isHexDigit).length + 1 := by
      rw [hexNumber_eq, typedHex_of_ne _ suffix]
      rfl
    have cut : (c :: cs).take (hexNumber (c :: cs)).extra ++ rest =
        c :: (cs.takeWhile Text.isHexDigit ++ rest) := by
      rw [extra, List.take_succ_cons, taken]
      rfl
    have next : rest.head? ≠ some '&' := by
      intro h
      cases rest with
      | nil => simp at h
      | cons d ds =>
        obtain rfl : d = '&' := by simpa using h
        simp [isNumeralSuffix] at plain
    rw [cut, hexNumber_append c part, hexNumber_eq, typedHex_of_ne _ suffix, typedHex_of_ne _ next]

theorem quoted_of_closed (closed : (quoted cs).closed = true) :
    cs.take (quoted cs).length = Emit.doubleQuotes (quoted cs).value ++ ['"'] ∧
      '\n' ∉ (quoted cs).value ∧ (quoted cs).length ≤ cs.length := by
  fun_induction quoted cs with
  | case1 => simp at closed
  | case2 cs q ih =>
    obtain ⟨text, line, length⟩ := ih closed
    refine ⟨?_, ?_, by simpa using length⟩
    · simpa [Emit.doubleQuotes] using text
    · simpa using line
  | case3 cs _ => simp [Emit.doubleQuotes]
  | case4 => simp at closed
  | case5 => simp at closed
  | case6 => simp at closed
  | case7 c cs _ quote feed _ _ q ih =>
    obtain ⟨text, line, length⟩ := ih closed
    refine ⟨?_, ?_, by simpa using length⟩
    · simpa [Emit.doubleQuotes, show c ≠ '"' from quote] using text
    · simpa using ⟨Ne.symm feed, line⟩

/-- A value written between quotes is read back, whatever comes after the second one. -/
theorem quoted_doubleQuotes {value : List Char} (line : '\n' ∉ value)
    (ends : startsWith (· = '"') rest = false) :
    quoted (Emit.doubleQuotes value ++ '"' :: rest) =
      ⟨value, (Emit.doubleQuotes value).length + 1, true⟩ := by
  induction value with
  | nil =>
    cases rest with
    | nil => rfl
    | cons c cs =>
      have : c ≠ '"' := by simpa using ends
      simp [Emit.doubleQuotes, quoted, this]
  | cons c value ih =>
    have first : c ≠ '\n' := fun h => line (h ▸ List.mem_cons_self)
    have again := ih fun h => line (List.mem_cons_of_mem _ h)
    by_cases quote : c = '"'
    · subst quote
      simp [Emit.doubleQuotes, quoted, again]
    · obtain ⟨d, ds, more⟩ : ∃ d ds, Emit.doubleQuotes value ++ '"' :: rest = d :: ds := by
        cases h : Emit.doubleQuotes value with
        | nil => exact ⟨_, _, rfl⟩
        | cons d ds => exact ⟨_, _, rfl⟩
      have second : d ≠ '\n' := by
        rintro rfl
        have open_ : (quoted ('\n' :: ds)).closed = false := by simp [quoted]
        rw [← more, again] at open_
        cases open_
      have step : quoted (c :: d :: ds) =
          ⟨c :: (quoted (d :: ds)).value, (quoted (d :: ds)).length + 1,
            (quoted (d :: ds)).closed⟩ := by
        rw [quoted]
        · simp [quote]
        · simp [quote]
        · simp [first]
        · simp
        · simp [second]
      rw [Emit.doubleQuotes, if_neg quote, List.cons_append, more, step, ← more, again]
      rfl

theorem string_eq_token {k : Kind} {v : Option Value} {n : Nat} (h : string cs = ⟨.token k v, n⟩) :
    (quoted cs).closed = true ∧ k = .stringLiteral ∧
      v = some (.string (String.ofList (quoted cs).value)) ∧ n = (quoted cs).length := by
  cases closed : (quoted cs).closed with
  | false => simp [string, closed] at h
  | true =>
    obtain ⟨⟨rfl, rfl⟩, rfl⟩ : (.stringLiteral = k ∧
        some (.string (String.ofList (quoted cs).value)) = v) ∧ (quoted cs).length = n := by
      simpa [string, closed, literal] using h
    exact ⟨rfl, rfl, rfl, rfl⟩

theorem string_doubleQuotes {value : List Char} (line : '\n' ∉ value)
    (ends : startsWith (· = '"') rest = false) :
    string (Emit.doubleQuotes value ++ '"' :: rest) =
      literal .stringLiteral (.string (String.ofList value))
        ((Emit.doubleQuotes value).length + 1) := by
  rw [string, quoted_doubleQuotes line ends]
  rfl

theorem string_reread {k : Kind} {v : Option Value} {n : Nat} (h : string cs = ⟨.token k v, n⟩)
    (ends : startsWith (· = '"') rest = false) :
    n ≤ cs.length ∧ string (cs.take n ++ rest) = ⟨.token k v, n⟩ := by
  obtain ⟨closed, rfl, rfl, rfl⟩ := string_eq_token h
  obtain ⟨text, line, length⟩ := quoted_of_closed closed
  have size : (Emit.doubleQuotes (quoted cs).value).length + 1 = (quoted cs).length := by
    have := congrArg List.length text
    simpa [Nat.min_eq_left length] using this.symm
  refine ⟨length, ?_⟩
  rw [text, List.append_assoc, List.singleton_append, string_doubleQuotes line ends, size]
  rfl

end Lexeme
end BrightScript
