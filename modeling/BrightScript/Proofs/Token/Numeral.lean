import BrightScript.Proofs.Token.Quoted
import Mathlib.Data.List.TakeWhile
import Mathlib.Data.Nat.Digits.Defs

/-! Whole numerals and the numbers they stand for.
A decimal numeral takes the narrowest type that holds its number. A hexadecimal one wraps into the
type that its suffix chooses. -/
namespace BrightScript

variable {c : Char} {n v : Nat}

def IsDigit (base : Nat) (c : Char) (v : Nat) : Prop :=
  v < base ∧ (c = v.digitChar ∨ c = v.digitChar.toUpper)

/-- A numeral of a number. Any number of zeros may stand before it. -/
def IsNumeral (base : Nat) (text : List Char) (n : Nat) : Prop :=
  ∃ values, List.Forall₂ (IsDigit base) text values ∧ n = Nat.ofDigits base values.reverse

/-- The scan of a text that is one literal. -/
def Scan.single (text : String) (kind : Kind) (value : Value) : Scan :=
  let stop := Position.origin.after text.toList
  ⟨[⟨kind, text, ⟨.origin, stop⟩, some value⟩, .endOfFile stop], []⟩

theorem IsDigit.isDigit (h : IsDigit 10 c v) : c.isDigit = true := by
  obtain ⟨less, rfl | rfl⟩ := h <;> revert v <;> decide

theorem IsDigit.isHexDigit (h : IsDigit 16 c v) : Text.isHexDigit c = true := by
  obtain ⟨less, rfl | rfl⟩ := h <;> revert v <;> decide

theorem IsDigit.digitValue (h : IsDigit 16 c v) : Number.digitValue c = v := by
  obtain ⟨less, rfl | rfl⟩ := h <;> revert v <;> decide

namespace IsNumeral

variable {base : Nat} {text : List Char}

theorem all {p : Char → Bool} (digit : ∀ {c v}, IsDigit base c v → p c = true)
    (h : IsNumeral base text n) : text.all p = true := by
  obtain ⟨values, digits, -⟩ := h
  induction digits with
  | nil => rfl
  | cons first _ ih => rw [List.all_cons, digit first, ih, Bool.and_true]

theorem foldl_digits {values : List Nat} (le : base ≤ 16)
    (digits : List.Forall₂ (IsDigit base) text values) (front : Nat) :
    text.foldl (fun n c => base * n + Number.digitValue c) front =
      front * base ^ values.length + Nat.ofDigits base values.reverse := by
  induction digits generalizing front with
  | nil => simp
  | @cons c v cs vs first _ ih =>
    have value : Number.digitValue c = v := IsDigit.digitValue ⟨first.1.trans_le le, first.2⟩
    rw [List.foldl_cons, ih, value, List.reverse_cons, Nat.ofDigits_append, Nat.ofDigits_singleton,
      List.length_reverse, List.length_cons]
    ring

theorem ofDigits (le : base ≤ 16) (h : IsNumeral base text n) : Number.ofDigits base text = n := by
  obtain ⟨values, digits, rfl⟩ := h
  rw [Number.ofDigits, foldl_digits le digits, Nat.zero_mul, Nat.zero_add]

end IsNumeral

namespace Lexeme

theorem number_digits {cs : List Char} (digits : cs.all Char.isDigit = true) (point : c ≠ '.') :
    number c cs = wholeNumber (c :: cs) cs.length := by
  have all : digitCount cs = cs.length := by
    rw [digitCount, List.takeWhile_eq_self_iff.mpr (List.all_eq_true.mp digits)]
  have pieces : fraction c cs = 0 ∧ exponent c cs = 0 := by
    simp [exponent, fraction, all, fractionLength, exponentLength]
  simp [number, typedNumeral, numeralLength, all, pieces, point]

theorem read_digit (digit : c.isDigit = true) (a : Bool) (cs : List Char) :
    read a c cs = number c cs := by
  have other : ∀ d : Char, d.isDigit = false → c ≠ d := by
    rintro d no rfl
    rw [no] at digit
    cases digit
  have blank : Text.isBlank c = false := by
    simp [Text.isBlank, other ' ' rfl, other '\t' rfl, other '\r' rfl, other '\ufeff' rfl,
      other '\u00a0' rfl]
  simp [read, blank, other '\'' rfl, other '"' rfl, other '.' rfl, other '&' rfl, digit]

theorem wholeNumber_eq {text : List Char} (some : text ≠ []) (h : IsNumeral 10 text n)
    (extra : Nat) :
    wholeNumber text extra =
      if n < 2 ^ 31 then literal .integerLiteral (.integer n) extra
      else if n < 2 ^ 63 then literal .longIntegerLiteral (.longInteger n) extra
      else literal .doubleLiteral (doubleValue text) extra := by
  have natural : Number.natural? text = .some n := by
    rw [Number.natural?, h.all IsDigit.isDigit, h.ofDigits (by decide)]
    simp [some]
  have below : ∀ bound, Number.below? bound text = if n < bound then .some n else none := by
    intro bound
    simp [Number.below?, natural, Option.filter]
  rw [wholeNumber, below, below, Nat.pow_eq, Nat.pow_eq]
  split_ifs <;> rfl

end Lexeme

theorem scan_literal {text : String} (c : Char) (cs : List Char) {k : Kind} {v : Value}
    (spelled : text.toList = c :: cs)
    (read : Lexeme.read false c cs = Lexeme.literal k v cs.length) (code : k ≠ .comment) :
    scan text = .single text k v :=
  Scan.run_genuine (x := ⟨k, text, v⟩) ⟨code, c, cs, spelled, read⟩ .origin

theorem scan_decimal {text : String} (some : text ≠ "") (h : IsNumeral 10 text.toList n) :
    scan text =
      if n < 2 ^ 31 then .single text .integerLiteral (.integer n)
      else if n < 2 ^ 63 then .single text .longIntegerLiteral (.longInteger n)
      else .single text .doubleLiteral (Lexeme.doubleValue text.toList) := by
  have digits := h.all IsDigit.isDigit
  cases spelled : text.toList with
  | nil => exact absurd (String.toList_eq_nil_iff.mp spelled) some
  | cons c cs =>
    rw [spelled] at h digits
    simp only [List.all_cons, Bool.and_eq_true] at digits
    have point : c ≠ '.' := by
      rintro rfl
      cases digits.1
    have read := Lexeme.read_digit digits.1 false cs
    rw [Lexeme.number_digits digits.2 point,
      Lexeme.wholeNumber_eq (List.cons_ne_nil c cs) h] at read
    split_ifs at read ⊢ with narrow long
    · exact scan_literal c cs spelled read Kind.noConfusion
    · exact scan_literal c cs spelled read Kind.noConfusion
    · exact scan_literal c cs spelled read Kind.noConfusion

theorem Lexeme.hexNumber_numeral {digits : List Char} (h : IsNumeral 16 digits n)
    (small : n < 2 ^ 64) (mark : Char) (rest : List Char)
    (ends : Text.startsWith Text.isWordPart rest = false) :
    hexNumber (mark :: (digits ++ rest)) =
      if rest.head? = some '&' then
        literal .longIntegerLiteral (.longInteger (BitVec.ofNat 64 n).toInt) (digits.length + 2)
      else literal .integerLiteral (.integer (BitVec.ofNat 32 n).toInt) (digits.length + 1) := by
  have all := List.takeWhile_eq_self_iff.mpr (List.all_eq_true.mp (h.all IsDigit.isHexDigit))
  have read : hexNumber (mark :: (digits.takeWhile Text.isHexDigit ++ rest)) = _ :=
    hexNumber_append mark ends
  rw [all, typedHex, h.ofDigits (Nat.le_refl 16), Nat.pow_eq, if_pos small] at read
  rw [read, BitVec.toInt_ofNat', BitVec.toInt_ofNat']

theorem scan_hexadecimal {digits mark : String} (h : IsNumeral 16 digits.toList n)
    (small : n < 2 ^ 64) (isMark : mark ∈ ["&h", "&H"]) :
    scan (mark ++ digits) =
        .single (mark ++ digits) .integerLiteral (.integer (BitVec.ofNat 32 n).toInt) ∧
      scan (mark ++ digits ++ "&") =
        .single (mark ++ digits ++ "&") .longIntegerLiteral
          (.longInteger (BitVec.ofNat 64 n).toInt) := by
  obtain ⟨m, spelled, read⟩ : ∃ m, mark.toList = ['&', m] ∧
      ∀ cs, Lexeme.read false '&' (m :: cs) = Lexeme.hexNumber (m :: cs) := by
    simp only [List.mem_cons, List.not_mem_nil, or_false] at isMark
    rcases isMark with rfl | rfl
    · exact ⟨'h', rfl, fun _ => rfl⟩
    · exact ⟨'H', rfl, fun _ => rfl⟩
  have short := Lexeme.hexNumber_numeral h small m [] rfl
  have long := Lexeme.hexNumber_numeral h small m ['&'] rfl
  constructor
  · refine scan_literal '&' (m :: digits.toList) ?_ ?_ Kind.noConfusion
    · simp [spelled]
    · rw [read]
      simpa using short
  · refine scan_literal '&' (m :: (digits.toList ++ ['&'])) ?_ ?_ Kind.noConfusion
    · simp [spelled]
    · rw [read]
      simpa using long

/-- A whole numeral is one literal of the type that its number needs, and hexadecimal digits are
the bits of their literal. -/
theorem scan_whole_numeral :
    (∀ (text : String) (n : Nat), text ≠ "" → IsNumeral 10 text.toList n →
      (n < 2 ^ 31 → scan text = .single text .integerLiteral (.integer n)) ∧
      (2 ^ 31 ≤ n → n < 2 ^ 63 →
        scan text = .single text .longIntegerLiteral (.longInteger n)) ∧
      (2 ^ 63 ≤ n → ∃ bits, scan text = .single text .doubleLiteral (.double bits))) ∧
    ∀ (digits : String) (n : Nat), IsNumeral 16 digits.toList n → n < 2 ^ 64 →
      ∀ mark ∈ ["&h", "&H"],
        scan (mark ++ digits) =
            .single (mark ++ digits) .integerLiteral (.integer (BitVec.ofNat 32 n).toInt) ∧
          scan (mark ++ digits ++ "&") =
            .single (mark ++ digits ++ "&") .longIntegerLiteral
              (.longInteger (BitVec.ofNat 64 n).toInt) := by
  refine ⟨fun text n some h => ?_, fun digits n h small mark isMark =>
    scan_hexadecimal h small isMark⟩
  rw [scan_decimal some h]
  refine ⟨fun narrow => if_pos narrow, fun wide long => ?_, fun huge => ?_⟩
  · rw [if_neg (by omega), if_pos long]
  · rw [if_neg (by omega), if_neg (by omega)]
    exact ⟨_, rfl⟩

/- The first number that is too large for an integer, and one that wraps in it. -/
theorem scan_whole_numeral_wide :
    IsNumeral 10 "02147483648".toList (2 ^ 31) ∧ IsNumeral 16 "0fFfFffFe".toList (2 ^ 32 - 2) ∧
    scan "02147483648" = .single "02147483648" .longIntegerLiteral (.longInteger (2 ^ 31)) ∧
    scan "&H0fFfFffFe" = .single "&H0fFfFffFe" .integerLiteral (.integer (-2)) ∧
    scan "&H0fFfFffFe&" = .single "&H0fFfFffFe&" .longIntegerLiteral (.longInteger 4294967294) := by
  have decimal : IsNumeral 10 "02147483648".toList (2 ^ 31) :=
    ⟨[0, 2, 1, 4, 7, 4, 8, 3, 6, 4, 8], by simp [IsDigit], by decide⟩
  have hex : IsNumeral 16 "0fFfFffFe".toList (2 ^ 32 - 2) :=
    ⟨[0, 15, 15, 15, 15, 15, 15, 15, 14], by simp [IsDigit]; decide, by decide⟩
  have wrapped := scan_whole_numeral.2 _ _ hex (by decide) "&H" (by simp)
  exact ⟨decimal, hex, (scan_whole_numeral.1 _ _ (by decide) decimal).2.1 (by decide) (by decide),
    wrapped⟩

end BrightScript
