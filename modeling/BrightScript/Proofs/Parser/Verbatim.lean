import BrightScript.Proofs.Parser.InOrder
import BrightScript.Proofs.Token.Slices

/-! Messages quote the text as it is.
Arguments are put into a template one after another, so a place that stands in one of them could be
taken for a place of the template. Of two arguments the first is never a piece of the text, and
none of the words that it can be holds the second place. -/
namespace BrightScript

namespace Text

/-- Puts the arguments in all at once: places are looked for in the template only. `skip` characters
belong to a place that has been filled. -/
def fillOnce (args : List String) (skip : Nat) : List Char → List Char
  | [] => []
  | c :: cs =>
    match skip with
    | n + 1 => fillOnce args n cs
    | 0 =>
      match args.zipIdx.find? fun p => (place p.2).isPrefixOf (c :: cs) with
      | some (arg, i) => arg.toList ++ fillOnce args ((place i).length - 1) cs
      | none => c :: fillOnce args 0 cs

def fillAtOnce (template : String) (args : List String) : String :=
  String.ofList (fillOnce args 0 template.toList)

theorem fill_nil (template : String) : fill template [] = fillAtOnce template [] := by
  have same (text : List Char) : fillOnce [] 0 text = text := by
    induction text with
    | nil => rfl
    | cons c cs ih => exact congrArg (c :: ·) ih
  rw [fillAtOnce, same]
  rfl

theorem fill_singleton (template x : String) : fill template [x] = fillAtOnce template [x] := by
  have same (skip : Nat) (text : List Char) :
      fillOnce [x] skip text = replaceFrom (place 0) x.toList skip text := by
    induction text generalizing skip with
    | nil => rfl
    | cons c cs ih =>
      cases skip with
      | succ n => exact ih n
      | zero =>
        simp only [fillOnce, replaceFrom, List.zipIdx_singleton, List.find?_singleton, ← ih]
        cases (place 0).isPrefixOf (c :: cs) <;> rfl
  rw [fillAtOnce, same]
  rfl

theorem place_zero : place 0 = ['{', '0', '}'] := rfl

theorem place_one : place 1 = ['{', '1', '}'] := rfl

/- A place has its digit, so in front of a closing quote it neither stands nor begins in a text that
is free of the digit. -/
theorem replaceFrom_quoted {x : List Char} (free : '1' ∉ x) (new rest : List Char) :
    replaceFrom ['{', '1', '}'] new 0 (x ++ '\'' :: rest) =
      x ++ '\'' :: replaceFrom ['{', '1', '}'] new 0 rest := by
  induction x with
  | nil => rfl
  | cons c x ih =>
    rw [List.mem_cons, not_or] at free
    have begins : ['{', '1', '}'].isPrefixOf (c :: (x ++ '\'' :: rest)) = false := by
      refine Bool.eq_false_iff.mpr fun begins => ?_
      obtain ⟨tail, same⟩ := List.isPrefixOf_iff_prefix.mp begins
      have digit : '1' :: '}' :: tail = x ++ '\'' :: rest := (List.cons.inj same).2
      cases x with
      | nil => cases digit
      | cons d x => exact free.2 ((List.cons.inj digit).1 ▸ List.mem_cons_self)
    rw [List.cons_append, replaceFrom, begins]
    exact congrArg (c :: ·) (ih free.2)

end Text

theorem Kind.one_not_mem_label (k : Kind) : '1' ∉ k.label.toList := by
  cases k <;> decide

theorem Literal.one_not_mem_type (l : Literal) : '1' ∉ l.type.display.toList := by
  unfold type
  split <;> decide

theorem Problem.message_atOnce (p : Problem)
    (plain : ∀ x y, p.arguments = [x, y] → '1' ∉ x.toList) :
    p.message = Text.fillAtOnce p.notice.template p.arguments := by
  cases p with
  | unterminatedString | expectedCall | expectedProperty | expectedLineEnd | tooDeep =>
    exact Text.fill_nil _
  | unexpectedCharacter c => exact Text.fill_singleton _ _
  | unexpectedToken x | expectedExpression x | expectedIdentifier x | unknownType x
  | reservedWord x | unsupportedFeature x | requiredAfterOptional x => exact Text.fill_singleton _ _
  | expectedToken x y | unclosed x y | notConvertible x y =>
    refine congrArg String.ofList ?_
    simp [notice, arguments, Text.fillFrom, Text.fillOnce, Text.replaceAll, Text.replaceFrom,
      Text.place_zero, Text.place_one, Text.replaceFrom_quoted (plain x y rfl)]

/- The words that are wanted have no place in them, whatever has been found. -/
theorem Problem.Quotes.plain {t : Token} {p : Problem} (h : p.Quotes t) :
    ∀ x y, p.arguments = [x, y] → '1' ∉ x.toList := by
  intro x y same
  cases p with
  | expectedToken wanted found =>
    cases same
    obtain ⟨rfl | ⟨k, rfl⟩, -⟩ := h
    · decide
    · exact k.one_not_mem_label
  | unclosed closer construct =>
    cases same
    obtain ⟨k, rfl⟩ := h
    exact k.one_not_mem_label
  | notConvertible source target =>
    cases same
    rw [h.1]
    exact Literal.one_not_mem_type _
  | _ => cases same

def Diagnostic.Words (d : Diagnostic) (p : Problem) : Prop :=
  d.code = p.notice.code ∧ d.severity = p.notice.severity ∧
    d.message = Text.fillAtOnce p.notice.template p.arguments

theorem Diagnostic.Words.of {p : Problem} (plain : ∀ x y, p.arguments = [x, y] → '1' ∉ x.toList)
    (range : Range) : (Diagnostic.of p range).Words p := ⟨rfl, rfl, p.message_atOnce plain⟩

/-- A message is its template with all places filled at once. What it quotes is a character of the
source or a token, at the place of the report. -/
theorem messages_verbatim (mode : Mode) (source : String) :
    let tokens := (scan source).tokens
    (∀ d ∈ (scan source).diagnostics, ∃ p, d.Words p ∧ (p.arguments = [] ∨
      ∃ i c, source.toList[i]? = some c ∧ d.range = Slice.range source.toList ⟨i, i + 1⟩ ∧
        p = .unexpectedCharacter c)) ∧
    ∀ d ∈ (parse mode tokens).diagnostics, ∃ p, d.Words p ∧ (p.arguments = [] ∨
      ∃ t ∈ tokens, t.range = d.range ∧ p.Quotes t) := by
  intro tokens
  refine ⟨fun d mem => ?_, fun d mem => ?_⟩
  · obtain ⟨slices, h⟩ := sliced_scan source
    rcases h.reports d mem with stray | ⟨t, s, -, -, -, rfl⟩
    · obtain ⟨i, stray⟩ := h.strayAt_of_mem mem stray
      obtain ⟨c, found, -, -, rfl⟩ := strayAt_eq_some.mp stray
      exact ⟨_, .of (by simp [Problem.arguments]) _, .inr ⟨i, c, found, rfl, rfl⟩⟩
    · exact ⟨.unterminatedString, .of (by simp [Problem.arguments]) _, .inl rfl⟩
  · obtain ⟨-, -, tells⟩ := Parser.follows_parse mode (ordered_scan source)
    obtain ⟨p, same, quotes⟩ := (tells d mem).resolve_left List.not_mem_nil
    rw [same]
    rcases quotes with none | ⟨t, ahead, range, quotes⟩
    · exact ⟨p, .of (by simp [none]) _, .inl none⟩
    · refine ⟨p, .of quotes.plain _, .inr ⟨t, ?_, range, quotes⟩⟩
      rcases ahead with mem | rfl
      · exact mem
      -- the end behind the last token is the last token itself
      · obtain ⟨front, all, -⟩ := Scan.run_endOfFile none .origin source.toList
        have last : tokens = front ++ [.endOfFile _] := all
        change Token.endOfFile ((tokens.getLast?.map (·.range.stop)).getD .origin) ∈ tokens
        rw [last, List.getLast?_concat]
        exact List.mem_concat_self

theorem messages_verbatim_braces :
    let tokens := (scan "print (1 \"\x7b1\x7d\"").tokens
    ∃ d ∈ (parse .brightScript tokens).diagnostics,
      d.message = "Expected ')' but found '\"\x7b1\x7d\"'" ∧
      ∃ p, d.Words p ∧ (p.arguments = [] ∨ ∃ t ∈ tokens, t.range = d.range ∧ p.Quotes t) := by
  intro tokens
  have ⟨d, mem, message⟩ : ∃ d ∈ (parse .brightScript tokens).diagnostics,
      d.message = "Expected ')' but found '\"\x7b1\x7d\"'" := by decide +kernel
  exact ⟨d, mem, message, (messages_verbatim .brightScript _).2 d mem⟩

end BrightScript
