import BrightScript.Proofs.Token.Slices
import BrightScript.Proofs.Tree.Rewrite

/-! A text with its letters folded.
A capital letter and its small one are in the same classes of characters, and the words that the
scanner knows are compared folded. So the folded text has the same lexemes, with the same reach and
the same numbers, and only the spellings are folded with it. -/
namespace BrightScript

/-- All spellings with ASCII letters folded. -/
def folding : Rewriting := { text := String.toLower }

@[simp] theorem folding_text (s : String) : folding.text s = s.toLower := rfl
@[simp] theorem folding_range (r : Range) : folding.range r = r := rfl

namespace Text

theorem ofList_toLower (cs : List Char) :
    (String.ofList cs).toLower = String.ofList (cs.map Char.toLower) :=
  String.toList_inj.mp (by simp [toList_toLower])

theorem append_toLower (a b : String) : (a ++ b).toLower = a.toLower ++ b.toLower :=
  String.toList_inj.mp (by simp [toList_toLower])

theorem empty_toLower : "".toLower = "" := String.toList_inj.mp (by simp [toList_toLower])

def capitals : List Char := "ABCDEFGHIJKLMNOPQRSTUVWXYZ".toList

theorem mem_capitals {c : Char} (h : c.toLower ≠ c) : c ∈ capitals := by
  have range : c.val ≥ 'A'.val ∧ c.val ≤ 'Z'.val :=
    Decidable.byContradiction fun other => h (dif_neg other)
  have lo : 65 ≤ c.toNat := range.1
  have hi : c.toNat ≤ 90 := range.2
  have code : c = Char.ofNat c.toNat := (Char.ofNat_toNat c).symm
  rw [code]
  generalize c.toNat = n at lo hi
  have small : ∀ n : Fin 91, 65 ≤ n.val → Char.ofNat n.val ∈ capitals := by decide
  exact small ⟨n, by omega⟩ lo

/- The letters are gone through one by one; there is no need to look at all characters. -/
theorem forall_capitals {P : Char → Prop} [DecidablePred P]
    (h : (capitals.all fun c => decide (P c)) = true) : ∀ c ∈ capitals, P c := by
  simpa using h

theorem kept_toLower {α : Type} (f : Char → α) (h : ∀ c ∈ capitals, f c.toLower = f c) (c : Char) :
    f c.toLower = f c := by
  by_cases same : c.toLower = c
  · rw [same]
  · exact h c (mem_capitals same)

theorem toLower_toLower (c : Char) : c.toLower.toLower = c.toLower :=
  kept_toLower Char.toLower (forall_capitals (by decide)) c

theorem toLower_idem (s : String) : s.toLower.toLower = s.toLower := by
  apply String.toList_inj.mp
  simp only [toList_toLower, List.map_map]
  congr 1
  exact funext toLower_toLower

theorem toLower_eq_iff {d : Char} (h : ∀ c ∈ capitals, (c.toLower = d ↔ c = d)) (c : Char) :
    c.toLower = d ↔ c = d :=
  iff_of_eq (kept_toLower (· = d) (fun c m => propext (h c m)) c)

theorem isDigit_toLower (c : Char) : c.toLower.isDigit = c.isDigit :=
  kept_toLower Char.isDigit (forall_capitals (by decide)) c

theorem isWordStart_toLower (c : Char) : isWordStart c.toLower = isWordStart c :=
  kept_toLower isWordStart (forall_capitals (by decide)) c

theorem isWordPart_toLower (c : Char) : isWordPart c.toLower = isWordPart c :=
  kept_toLower isWordPart (forall_capitals (by decide)) c

theorem isDesignator_toLower (c : Char) : isDesignator c.toLower = isDesignator c :=
  kept_toLower isDesignator (forall_capitals (by decide)) c

theorem isBlank_toLower (c : Char) : isBlank c.toLower = isBlank c :=
  kept_toLower isBlank (forall_capitals (by decide)) c

theorem isSpace_toLower (c : Char) : isSpace c.toLower = isSpace c :=
  kept_toLower isSpace (forall_capitals (by decide)) c

theorem isHexDigit_toLower (c : Char) : isHexDigit c.toLower = isHexDigit c :=
  kept_toLower isHexDigit (forall_capitals (by decide)) c

theorem feed_toLower (c : Char) : c.toLower = '\n' ↔ c = '\n' :=
  toLower_eq_iff (forall_capitals (by decide)) c

theorem return_toLower (c : Char) : c.toLower = '\r' ↔ c = '\r' :=
  toLower_eq_iff (forall_capitals (by decide)) c

theorem quote_toLower (c : Char) : c.toLower = '"' ↔ c = '"' :=
  toLower_eq_iff (forall_capitals (by decide)) c

theorem point_toLower (c : Char) : c.toLower = '.' ↔ c = '.' :=
  toLower_eq_iff (forall_capitals (by decide)) c

variable {p : Char → Bool}

theorem takeWhile_toLower (same : ∀ c, p c.toLower = p c) (cs : List Char) :
    (cs.map Char.toLower).takeWhile p = (cs.takeWhile p).map Char.toLower := by
  rw [List.takeWhile_map]
  congr 2
  exact funext same

theorem dropWhile_toLower (same : ∀ c, p c.toLower = p c) (cs : List Char) :
    (cs.map Char.toLower).dropWhile p = (cs.dropWhile p).map Char.toLower := by
  rw [List.dropWhile_map]
  congr 2
  exact funext same

theorem startsWith_toLower (same : ∀ c, p c.toLower = p c) (cs : List Char) :
    startsWith p (cs.map Char.toLower) = startsWith p cs := by
  cases cs with
  | nil => rfl
  | cons c cs => exact same c

theorem all_toLower (same : ∀ c, p c.toLower = p c) (cs : List Char) :
    (cs.map Char.toLower).all p = cs.all p := by
  rw [List.all_map]
  congr 1
  exact funext same

end Text

theorem Position.after_toLower (p : Position) (cs : List Char) :
    p.after (cs.map Char.toLower) = p.after cs := by
  have step (p : Position) (c : Char) : p.step c.toLower = p.step c := by
    have wide : units c.toLower = units c :=
      Text.kept_toLower units (Text.forall_capitals (by decide)) c
    simp only [Position.step, Text.feed_toLower, wide]
  induction cs generalizing p with
  | nil => rfl
  | cons c cs ih => rw [List.map_cons, after_cons, after_cons, step, ih]

namespace Number

open Text

theorem ofDigits_toLower (base : Nat) (cs : List Char) :
    ofDigits base (cs.map Char.toLower) = ofDigits base cs := by
  have digit (c : Char) : digitValue c.toLower = digitValue c :=
    kept_toLower digitValue (forall_capitals (by decide)) c
  simp only [ofDigits, List.foldl_map, digit]

theorem natural?_toLower (cs : List Char) : natural? (cs.map Char.toLower) = natural? cs := by
  simp only [natural?, List.isEmpty_map, all_toLower isDigit_toLower, ofDigits_toLower]

theorem below?_toLower (bound : Nat) (cs : List Char) :
    below? bound (cs.map Char.toLower) = below? bound cs := by
  rw [below?, natural?_toLower, below?]

theorem Decimal.exponent?_toLower (cs : List Char) :
    exponent? (cs.map Char.toLower) = exponent? cs := by
  rcases cs with _ | ⟨mark, rest⟩
  · rfl
  · have letter : (mark.toLower = 'e' || mark.toLower = 'E') = (mark = 'e' || mark = 'E') :=
      kept_toLower (fun c => (c = 'e' || c = 'E' : Bool)) (forall_capitals (by decide)) mark
    rcases rest with _ | ⟨sign, digits⟩
    · simp only [List.map_cons, List.map_nil, exponent?, letter]
    · have minus : sign.toLower = '-' ↔ sign = '-' :=
        toLower_eq_iff (forall_capitals (by decide)) sign
      have plus : sign.toLower = '+' ↔ sign = '+' :=
        toLower_eq_iff (forall_capitals (by decide)) sign
      have whole := natural?_toLower (sign :: digits)
      rw [List.map_cons] at whole
      by_cases down : sign = '-'
      · simp only [List.map_cons, minus.mpr down]
        simp only [exponent?, letter, down, natural?_toLower]
      · by_cases up : sign = '+'
        · simp only [List.map_cons, plus.mpr up]
          simp only [exponent?, letter, up, natural?_toLower]
        · simp [exponent?, letter, minus, plus, down, up, whole]

theorem Decimal.ofText?_toLower (cs : List Char) : ofText? (cs.map Char.toLower) = ofText? cs := by
  have digits (whole fraction : List Char) :
      ofDigits 10 (whole.map Char.toLower ++ fraction.map Char.toLower) =
        ofDigits 10 (whole ++ fraction) := by
    rw [← List.map_append, ofDigits_toLower]
  unfold ofText?
  rw [takeWhile_toLower isDigit_toLower, dropWhile_toLower isDigit_toLower]
  cases tail : cs.dropWhile Char.isDigit with
  | nil => simp [ofDigits_toLower]
  | cons c more =>
    by_cases point : c = '.'
    · subst point
      have same : ('.' : Char).toLower = '.' := rfl
      simp [same, takeWhile_toLower isDigit_toLower, dropWhile_toLower isDigit_toLower, digits,
        exponent?_toLower]
    · have other : c.toLower ≠ '.' := fun h => point ((point_toLower c).mp h)
      have power := exponent?_toLower (c :: more)
      rw [List.map_cons] at power
      simp [point, other, ofDigits_toLower, power]

theorem BinaryFormat.ofText_toLower (f : BinaryFormat) (cs : List Char) :
    f.ofText (cs.map Char.toLower) = f.ofText cs := by
  rw [ofText, Decimal.ofText?_toLower, ofText]

end Number

def Reading.fold : Reading → Reading
  | .token kind value => .token kind (value.map (Value.rewrite folding))
  | .openString value => .openString value.toLower
  | reading => reading

def Lexeme.fold (l : Lexeme) : Lexeme := ⟨l.reading.fold, l.extra⟩

namespace Lexeme

open Text Number

variable (cs : List Char)

theorem lineLength_toLower : lineLength (cs.map Char.toLower) = lineLength cs := by
  have line : (cs.map Char.toLower).takeWhile (· ≠ '\n') =
      (cs.takeWhile (· ≠ '\n')).map Char.toLower :=
    takeWhile_toLower (fun c => by simp only [ne_eq, feed_toLower]) cs
  unfold lineLength
  simp only [line, List.length_map, List.getLast?_map, Option.map_eq_some_iff,
    return_toLower, exists_eq_right]

theorem quoted_toLower : quoted (cs.map Char.toLower) =
    ⟨(quoted cs).value.map Char.toLower, (quoted cs).length, (quoted cs).closed⟩ := by
  fun_induction quoted cs with
  | case1 => rfl
  | case2 cs q ih =>
    have quote : ('"' : Char).toLower = '"' := rfl
    simp only [List.map_cons, quote, quoted, ih, q]
  | case3 cs other =>
    cases cs with
    | nil => rfl
    | cons c cs =>
      have single : c.toLower ≠ '"' := fun same => other cs (by rw [(quote_toLower c).mp same])
      have quote : ('"' : Char).toLower = '"' := rfl
      simp [quoted, quote, single]
  | case4 => rfl
  | case5 => rfl
  | case6 => rfl
  | case7 c cs doubled quote feed last ret q ih =>
    rw [List.map_cons, quoted, ih]
    · rfl
    · exact fun _ same _ => quote ((quote_toLower c).mp same)
    · exact fun same => quote ((quote_toLower c).mp same)
    · exact fun same => feed ((feed_toLower c).mp same)
    · intro same none
      exact last ((return_toLower c).mp same) (List.map_eq_nil_iff.mp none)
    · intro ds same next
      cases cs with
      | nil => cases next
      | cons d es =>
        obtain ⟨feed, _⟩ := List.cons.inj next
        exact ret es ((return_toLower c).mp same) (by rw [(feed_toLower d).mp feed])

theorem string_toLower : string (cs.map Char.toLower) = (string cs).fold := by
  simp only [string, quoted_toLower, ← ofList_toLower]
  split
  · rfl
  · rfl

theorem digitCount_toLower : digitCount (cs.map Char.toLower) = digitCount cs := by
  rw [digitCount, takeWhile_toLower isDigit_toLower, List.length_map, digitCount]

theorem fractionLength_toLower : fractionLength (cs.map Char.toLower) = fractionLength cs := by
  cases cs with
  | nil => rfl
  | cons c cs =>
    by_cases point : c = '.'
    · subst point
      exact congrArg (fun n => if n = 0 then 0 else n + 1) (digitCount_toLower cs)
    · have other : c.toLower ≠ '.' := fun h => point ((point_toLower c).mp h)
      simp [fractionLength, point, other]

theorem exponentLength_toLower : exponentLength (cs.map Char.toLower) = exponentLength cs := by
  rcases cs with _ | ⟨mark, _ | ⟨c, cs⟩⟩
  · rfl
  · rfl
  · have letter : (mark.toLower = 'e' || mark.toLower = 'E') = (mark = 'e' || mark = 'E') :=
      kept_toLower (fun c => (c = 'e' || c = 'E' : Bool)) (forall_capitals (by decide)) mark
    have sign : (c.toLower = '+' || c.toLower = '-') = (c = '+' || c = '-') :=
      kept_toLower (fun c => (c = '+' || c = '-' : Bool)) (forall_capitals (by decide)) c
    have digits := digitCount_toLower (c :: cs)
    rw [List.map_cons] at digits
    simp only [List.map_cons, exponentLength, letter, sign, isDigit_toLower, digitCount_toLower,
      digits]

theorem fraction_toLower (c : Char) :
    fraction c.toLower (cs.map Char.toLower) = fraction c cs := by
  simp only [fraction, point_toLower, digitCount_toLower, ← List.map_drop, fractionLength_toLower]

theorem exponent_toLower (c : Char) :
    exponent c.toLower (cs.map Char.toLower) = exponent c cs := by
  simp only [exponent, digitCount_toLower, fraction_toLower, ← List.map_drop,
    exponentLength_toLower]

theorem numeralLength_toLower (c : Char) :
    numeralLength c.toLower (cs.map Char.toLower) = numeralLength c cs := by
  simp only [numeralLength, digitCount_toLower, fraction_toLower, exponent_toLower]

/- A number is no text, and nothing of it is folded. -/
theorem fold_wholeNumber (digits : List Char) (extra : Nat) :
    (wholeNumber digits extra).fold = wholeNumber digits extra := by
  unfold wholeNumber
  split
  · rfl
  · rfl
  · rfl

theorem fold_typedNumeral (pointed : Bool) (digits : List Char) (length : Nat)
    (next : Option Char) :
    (typedNumeral pointed digits length next).fold = typedNumeral pointed digits length next := by
  unfold typedNumeral
  split
  · rfl
  · rfl
  · rfl
  · rfl
  · split
    · rfl
    · exact fold_wholeNumber digits length

theorem typedNumeral_toLower (pointed : Bool) (digits : List Char) (length : Nat)
    (next : Option Char) :
    typedNumeral pointed (digits.map Char.toLower) length (next.map Char.toLower) =
      typedNumeral pointed digits length next := by
  have value (next : Option Char) : typedNumeral pointed (digits.map Char.toLower) length next =
      typedNumeral pointed digits length next := by
    simp only [typedNumeral, integerValue, longValue, floatValue, doubleValue, wholeNumber,
      below?_toLower, BinaryFormat.ofText_toLower]
  have plain : ∀ c ∈ capitals, (some c).any isNumeralSuffix = false ∧
      (some c.toLower).any isNumeralSuffix = false := forall_capitals (by decide)
  rw [value]
  cases next with
  | none => rfl
  | some c =>
    refine kept_toLower (fun c => typedNumeral pointed digits length (some c)) ?_ c
    intro c letter
    rw [typedNumeral_of_not_suffix _ _ _ (plain c letter).2,
      typedNumeral_of_not_suffix _ _ _ (plain c letter).1]

theorem number_toLower (c : Char) :
    number c.toLower (cs.map Char.toLower) = (number c cs).fold := by
  have digits : c.toLower :: (cs.map Char.toLower).take (numeralLength c cs) =
      (c :: cs.take (numeralLength c cs)).map Char.toLower := by
    rw [List.map_cons, List.map_take]
  rw [number, number, numeralLength_toLower, fraction_toLower, exponent_toLower, digits,
    ← List.map_drop, List.head?_map, typedNumeral_toLower, fold_typedNumeral]
  simp only [point_toLower]

theorem hexNumber_toLower : hexNumber (cs.map Char.toLower) = (hexNumber cs).fold := by
  have long (next : Option Char) : next.map Char.toLower = some '&' ↔ next = some '&' := by
    cases next with
    | none => simp
    | some c => simpa using toLower_eq_iff (forall_capitals (by decide)) c
  simp only [hexNumber, typedHex, ← List.map_drop, takeWhile_toLower isHexDigit_toLower,
    List.length_map, ofDigits_toLower, List.head?_map, long]
  split
  · rfl
  · rfl

theorem folded_toLower :
    (String.ofList (cs.map Char.toLower)).toLower = (String.ofList cs).toLower := by
  rw [← ofList_toLower, toLower_idem]

theorem secondWord?_toLower (first : Kind) :
    secondWord? first (cs.map Char.toLower) = secondWord? first cs := by
  have starts := fun (ds : List Char) => startsWith_toLower isWordStart_toLower ds
  have marked := fun (ds : List Char) => startsWith_toLower isDesignator_toLower ds
  unfold startsWith at starts marked
  simp only [secondWord?, takeWhile_toLower isSpace_toLower, takeWhile_toLower isWordPart_toLower,
    List.length_map, ← List.map_drop, starts, marked, folded_toLower]

theorem keyword_toLower (kind : Kind) (extra : Nat) :
    keyword kind extra (cs.map Char.toLower) = (keyword kind extra cs).fold := by
  unfold keyword
  rw [secondWord?_toLower]
  split
  case _ | _ | _ => rfl
  case _ | _ | _ => cases secondWord? _ cs <;> rfl
  case _ => rfl

theorem word_toLower (c : Char) : word c.toLower (cs.map Char.toLower) = (word c cs).fold := by
  have marked := fun (ds : List Char) => startsWith_toLower isDesignator_toLower ds
  unfold startsWith at marked
  have folded := folded_toLower (c :: cs.takeWhile isWordPart)
  rw [List.map_cons] at folded
  simp only [word, takeWhile_toLower isWordPart_toLower, List.length_map, ← List.map_drop, marked,
    folded, lineLength_toLower, keyword_toLower]
  split
  · rfl
  split
  · rfl
  split
  · rfl
  · rfl

theorem operator_of_isWordStart {c : Char} (letter : isWordStart c = true) :
    operator c cs = none := by
  fun_cases operator c cs
  all_goals first
    | rfl
    | exact absurd letter (by decide)

theorem operator_toLower (c : Char) :
    operator c.toLower (cs.map Char.toLower) = operator c cs := by
  -- no operator begins with a letter, and no letter goes on one
  have first (ds : List Char) : operator c.toLower ds = operator c ds := by
    have letters : ∀ c ∈ capitals, isWordStart c = true ∧ isWordStart c.toLower = true :=
      forall_capitals (by decide)
    refine kept_toLower (fun c => operator c ds) ?_ c
    intro c letter
    rw [operator_of_isWordStart ds (letters c letter).1,
      operator_of_isWordStart ds (letters c letter).2]
  rw [first]
  have apart : ∀ {d : Char} {ds : List Char}, (∀ tail, ds = d :: tail → False) →
      (∀ c ∈ capitals, (c.toLower = d ↔ c = d)) →
      ∀ tail, ds.map Char.toLower = d :: tail → False := by
    intro d ds other same tail eq
    cases ds with
    | nil => cases eq
    | cons e es => exact other es (by rw [(toLower_eq_iff same e).mp (List.cons.inj eq).1])
  fun_cases operator c cs
  all_goals try rfl
  case case4 rest other =>
    change operator '<' ('<' :: rest.map Char.toLower) = _
    rw [operator]
    exact apart other (forall_capitals (by decide))
  case case8 rest other =>
    change operator '>' ('>' :: rest.map Char.toLower) = _
    rw [operator]
    exact apart other (forall_capitals (by decide))
  case case22 =>
    rw [operator]
    all_goals first | assumption | (intros; contradiction)
  all_goals
    rw [operator]
    all_goals first
      | exact apart (by assumption) (forall_capitals (by decide))
      | exact fun tail same => apart (by assumption) (forall_capitals (by decide)) _ same

theorem fold_operator {c : Char} {l : Lexeme} (h : operator c cs = some l) : l.fold = l := by
  unfold operator at h
  split at h <;> cases h <;> rfl

theorem read_toLower (a : Bool) (c : Char) :
    read a c.toLower (cs.map Char.toLower) = (read a c cs).fold := by
  have digit := startsWith_toLower isDigit_toLower cs
  unfold startsWith at digit
  have hex : ((cs.map Char.toLower).head? = some 'h' || (cs.map Char.toLower).head? = some 'H') =
      (cs.head? = some 'h' || cs.head? = some 'H') := by
    cases cs with
    | nil => rfl
    | cons d ds =>
      simpa using
        kept_toLower (fun c => (c = 'h' || c = 'H' : Bool)) (forall_capitals (by decide)) d
  have apostrophe : c.toLower = '\'' ↔ c = '\'' := toLower_eq_iff (forall_capitals (by decide)) c
  have ampersand : c.toLower = '&' ↔ c = '&' := toLower_eq_iff (forall_capitals (by decide)) c
  have one : single? c.toLower = single? c := kept_toLower single? (forall_capitals (by decide)) c
  simp only [read, isBlank_toLower, apostrophe, lineLength_toLower, quote_toLower, string_toLower,
    point_toLower, digit, number_toLower, ampersand, hex, hexNumber_toLower, isDigit_toLower,
    isWordStart_toLower, word_toLower, one, operator_toLower]
  split
  · rfl
  split
  · rfl
  split
  · rfl
  split
  · split
    · rfl
    · rfl
  split
  · rfl
  split
  · rfl
  split
  · rfl
  split
  · rfl
  · rename_i found
    exact (fold_operator cs found).symm
  · rfl

theorem toLower_of_stray {a : Bool} {c : Char} (h : (read a c cs).reading = .stray) :
    c.toLower = c := by
  apply Decidable.byContradiction
  intro letter
  have classes : ∀ c ∈ capitals, isBlank c = false ∧ c ≠ '\'' ∧ c ≠ '"' ∧ c ≠ '.' ∧ c ≠ '&' ∧
      c.isDigit = false ∧ isWordStart c = true := forall_capitals (by decide)
  obtain ⟨blank, comment, quote, point, hex, digit, start⟩ := classes c (mem_capitals letter)
  simp only [read, blank, comment, quote, point, hex, digit, start, if_true, if_false, decide_false,
    Bool.false_and, Bool.false_eq_true] at h
  obtain ⟨k, v, same⟩ := word_reading c cs
  rw [same] at h
  cases h

end Lexeme

namespace Scan

theorem tokensOf_fold (r : Reading) (text : String) (range : Range) :
    tokensOf r.fold text.toLower range = (tokensOf r text range).map (Token.rewrite folding) := by
  cases r <;> rfl

def fold (s : Scan) : Scan := ⟨s.tokens.map (Token.rewrite folding), s.diagnostics⟩

theorem push_fold {reading : Reading} {c : Char} (slice : List Char) (start : Position) (rest : Scan)
    (same : reading = .stray → c.toLower = c) :
    push reading.fold c.toLower (slice.map Char.toLower) start rest.fold =
      (push reading c slice start rest).fold := by
  have problems (range : Range) :
      problemsOf reading.fold c.toLower range = problemsOf reading c range := by
    cases reading with
    | stray => rw [same rfl]; rfl
    | token kind value => rfl
    | openString value => rfl
    | blank => rfl
  simp only [push, fold, Position.after_toLower, problems, ← Text.ofList_toLower, tokensOf_fold,
    List.map_append]

theorem run_toLower (last : Option Kind) (start : Position) (text : List Char) :
    run last start (text.map Char.toLower) = (run last start text).fold := by
  induction last, start, text using run_induction with
  | nil last start =>
    rw [List.map_nil, run]
    simp [fold, Token.endOfFile, Token.rewrite, Text.empty_toLower]
  | cons last start c cs lexeme read ih =>
    have kind : lexeme.reading.fold.kind? = lexeme.reading.kind? := by
      cases lexeme.reading <;> rfl
    have slice : lexeme.fold.slice c.toLower (cs.map Char.toLower) =
        (lexeme.slice c cs).map Char.toLower := by
      rw [Lexeme.slice, Lexeme.slice, List.map_cons, List.map_take]
      rfl
    have after : (cs.map Char.toLower).drop lexeme.fold.extra =
        (cs.drop lexeme.extra).map Char.toLower := List.map_drop.symm
    rw [List.map_cons, run_cons, run_cons, Lexeme.read_toLower, read]
    simp only [slice, Position.after_toLower, after]
    rw [show lexeme.fold.reading = lexeme.reading.fold from rfl, kind, ih, push_fold]
    rintro stray
    exact Lexeme.toLower_of_stray cs (a := endsOperand last) (by rw [read, stray])

end Scan

/-- The folded text has the folded tokens, in the same places, and the same reports. -/
theorem scan_toLower (source : String) : scan source.toLower = (scan source).fold := by
  rw [scan, Text.toList_toLower, Scan.run_toLower]
  rfl

end BrightScript
