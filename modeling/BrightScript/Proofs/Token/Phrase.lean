import BrightScript.Emit.Layout
import BrightScript.Proofs.Token.Spells

/-! Texts that are put together from words.
A phrase spells its words wherever a text follows that does not touch the last of them. What
stands between two words of a written program is nothing, blanks or a line break. -/
namespace BrightScript

open Text (startsWith)
open Emit (Layout)

namespace Kind

/- The literals among the keywords carry a value and do not count. -/
def isFixed (k : Kind) : Bool := (k.markText.isSome || k.keywordText.isSome) && !k.isLiteral

/-- Words that may be the second part of a keyword. -/
def isSecond : Kind → Bool
  | if_ | for_ | while_ | function | sub => true
  | _ => false

theorem combine?_eq_none {second : Kind} (h : isSecond second = false) (first : Kind) :
    combine? first second = none := by
  unfold combine?
  split <;> first | rfl | cases h

/- Any word may follow such a kind after a blank. -/
def isLoose (k : Kind) : Bool :=
  !Lexeme.isFirstWord k && !Scan.endsOperand (some k) && k ≠ .comment

theorem combine?_of_not_first {first : Kind} (h : Lexeme.isFirstWord first = false)
    (second : Kind) : combine? first second = none := by
  unfold combine?
  split <;> first | rfl | cases h

end Kind

namespace Word

/-- The kind of the last word, if a word of kind `k` stands before all of them. -/
def last (k : Kind) : List Word → Kind
  | [] => k
  | x :: ws => last x.kind ws

@[simp] theorem last_nil (k : Kind) : last k [] = k := rfl

@[simp] theorem last_cons (k : Kind) (x : Word) (ws : List Word) :
    last k (x :: ws) = last x.kind ws := rfl

@[simp] theorem last_append (k : Kind) (ws ws' : List Word) :
    last k (ws ++ ws') = last (last k ws) ws' := by
  induction ws generalizing k with
  | nil => rfl
  | cons x ws ih => exact ih x.kind

def startsWithPoint (ws : List Word) : Bool := ws.head?.any isPoint

def newline : Word := ⟨.newline, "\n", none⟩

def mark (k : Kind) : Word := ⟨k, k.label, none⟩

@[simp] theorem kind_mark (k : Kind) : (mark k).kind = k := rfl

def readsBack (x : Word) : Bool :=
  match x.text.toList with
  | [] => false
  | c :: cs => Lexeme.read false c cs = ⟨.token x.kind x.value, cs.length⟩

theorem Genuine.of_readsBack {x : Word} (h : x.readsBack = true) (code : x.kind ≠ .comment) :
    x.Genuine := by
  unfold readsBack at h
  split at h
  · cases h
  · rename_i c cs text
    exact ⟨code, c, cs, text, by simpa using h⟩

theorem mark_readsBack : ∀ k ∈ Kind.all, k.isFixed = true →
    (mark k).readsBack = true ∧ (mark k).isPoint = false := by decide +kernel

theorem genuine_mark {k : Kind} (h : k.isFixed = true) : (mark k).Genuine := by
  refine .of_readsBack (mark_readsBack k k.mem_all h).1 ?_
  rintro rfl
  cases h

theorem isPoint_mark {k : Kind} (h : k.isFixed = true) : (mark k).isPoint = false :=
  (mark_readsBack k k.mem_all h).2

theorem genuine_newline : newline.Genuine := .of_readsBack (by decide +kernel) (by decide)

end Word

/- Line breaks are written in one of two ways, and lines are indented with spaces and tabs. -/
structure Emit.Layout.Plain (l : Layout) : Prop where
  indent : l.indent.toList.all Text.isSpace = true
  newline : l.newline = "\n" ∨ l.newline = "\r\n"

/-- The text spells the words and goes on after a word of kind `k` without touching it. -/
structure Meets (l : Layout) (k : Kind) (text : List Char) (ws : List Word) : Prop where
  spells : Spells (some k) text ws
  apart : Apart k text
  single : Kind.combine? k (Word.next ws) = none
  line : k = .comment → text = [] ∨ l.newline.toList <+: text

/-- Wherever the text goes on after its last word, it goes on after a word of kind `k`. -/
def Continues (l : Layout) (k : Kind) (text : List Char) (ws : List Word) : Prop :=
  ∀ rest w, Meets l (Word.last k ws) rest w → Meets l k (text ++ rest) (ws ++ w)

structure Phrase (l : Layout) (text : List Char) (ws : List Word) : Prop where
  nonempty : ws ≠ []
  spells : ∀ k rest w, (Scan.endsOperand (some k) = true → Word.startsWithPoint ws = false) →
    Meets l (Word.last k ws) rest w → Spells (some k) (text ++ rest) (ws ++ w)

namespace Spells

theorem blanks {last : Option Kind} {blanks text : List Char} {ws : List Word}
    (spaces : blanks.all Text.isSpace = true) (h : Spells last text ws) :
    Spells last (blanks ++ text) ws := by
  induction blanks with
  | nil => exact h
  | cons c blanks ih =>
    simp only [List.all_cons, Bool.and_eq_true] at spaces
    refine .of_blank ?_ (ih spaces.2)
    have := spaces.1
    simp only [Text.isSpace, Bool.or_eq_true, decide_eq_true_eq] at this
    rcases this with rfl | rfl <;> rfl

end Spells

variable {l : Layout} {k : Kind} {text more : List Char} {ws ws' : List Word}

theorem Meets.nil (l : Layout) (k : Kind) : Meets l k [] [.endOfFile] :=
  ⟨.nil, .nil k, Kind.combine?_eq_none rfl k, fun _ => .inl rfl⟩

theorem Meets.of_space {text : List Char} {ws : List Word} (code : k ≠ .comment)
    (spells : Spells (some k) text ws) (single : Kind.combine? k (Word.next ws) = none) :
    Meets l k (' ' :: text) ws where
  spells := .of_blank rfl spells
  apart := .of_gap k _ (by decide +kernel)
  single := single
  line comment := absurd comment code

namespace Continues

theorem nil : Continues l k [] [] := fun _ _ meets => meets

theorem append (first : Continues l k text ws) (second : Continues l (Word.last k ws) more ws') :
    Continues l k (text ++ more) (ws ++ ws') := by
  intro rest w meets
  rw [Word.last_append] at meets
  simpa [List.append_assoc] using first _ _ (second rest w meets)

end Continues

namespace Phrase

theorem append (first : Phrase l text ws) (second : ∀ k, Continues l (Word.last k ws) more ws') :
    Phrase l (text ++ more) (ws ++ ws') where
  nonempty := by simp [first.nonempty]
  spells k rest w point meets := by
    rw [Word.last_append] at meets
    have start : Word.startsWithPoint (ws ++ ws') = Word.startsWithPoint ws := by
      cases ws with
      | nil => exact absurd rfl first.nonempty
      | cons x ws => rfl
    rw [start] at point
    simpa [List.append_assoc] using first.spells k _ _ point (second k rest w meets)

theorem next_append (h : Phrase l text ws) (w : List Word) :
    Word.next (ws ++ w) = Word.next ws := Word.next_append h.nonempty w

theorem continues (h : Phrase l text ws) (touches : ∀ rest, Apart k (text ++ rest))
    (single : Kind.combine? k (Word.next ws) = none)
    (point : Scan.endsOperand (some k) = true → Word.startsWithPoint ws = false)
    (code : k ≠ .comment) : Continues l k text ws := fun rest w meets =>
  ⟨h.spells k rest w point meets, touches rest, by rwa [h.next_append],
    fun comment => absurd comment code⟩

theorem after_space (h : Phrase l text ws) (single : Kind.combine? k (Word.next ws) = none)
    (point : Scan.endsOperand (some k) = true → Word.startsWithPoint ws = false)
    (code : k ≠ .comment) : Continues l k (' ' :: text) ws := fun rest w meets =>
  .of_space code (h.spells k rest w point meets) (by rwa [h.next_append])

theorem after_loose (h : Phrase l text ws) (loose : k.isLoose = true) :
    Continues l k (' ' :: text) ws := by
  simp only [Kind.isLoose, Bool.and_eq_true, Bool.not_eq_true', decide_eq_true_eq] at loose
  obtain ⟨⟨single, operand⟩, code⟩ := loose
  refine h.after_space (Kind.combine?_of_not_first single _) (fun isOperand => ?_) code
  rw [operand] at isOperand
  cases isOperand

theorem after_mark (h : Phrase l text ws) (loose : k.isLoose = true) (mark : k.boundary = .none) :
    Continues l k text ws := by
  simp only [Kind.isLoose, Bool.and_eq_true, Bool.not_eq_true', decide_eq_true_eq] at loose
  obtain ⟨⟨single, operand⟩, code⟩ := loose
  refine h.continues (fun rest => ?_) (Kind.combine?_of_not_first single _)
    (fun isOperand => ?_) code
  · rw [Apart, mark]
    trivial
  · rw [operand] at isOperand
    cases isOperand

theorem word {x : Word} (genuine : x.Genuine) : Phrase l x.text.toList [x] where
  nonempty := List.cons_ne_nil _ _
  spells _ _ _ point meets := .word genuine meets.spells meets.apart meets.single point

theorem mark (fixed : k.isFixed = true) : Phrase l k.label.toList [.mark k] :=
  word (Word.genuine_mark fixed)

/-- A comment that keeps its carriage return is not followed by another one. -/
theorem comment (plain : l.Plain) (h : IsComment text)
    (ret : text.getLast? = some '\r' → l.newline = "\n") : Phrase l text [.comment text] where
  nonempty := List.cons_ne_nil _ _
  spells k rest w _ meets := by
    have feed : "\n".toList = ['\n'] := rfl
    have both : "\r\n".toList = ['\r', '\n'] := rfl
    rcases meets.line rfl with rfl | ⟨after, rfl⟩
    · exact .comment h .nil (fun _ => rfl) meets.spells
    · refine .comment h ?_ (fun same => ?_) meets.spells
      · rcases plain.newline with newline | newline
        · rw [newline, feed]
          exact .feed after
        · rw [newline, both]
          exact .return after
      · rw [ret same, feed]
        rfl

end Phrase

namespace Continues

theorem mark (k' : Kind)
    (gap : (k'.isFixed && !k'.isSecond && startsWith Text.isGap k'.label.toList) = true)
    (code : k ≠ .comment) : Continues l k k'.label.toList [.mark k'] := by
  simp only [Bool.and_eq_true, Bool.not_eq_true'] at gap
  obtain ⟨⟨fixed, single⟩, gap⟩ := gap
  refine (Phrase.mark fixed).continues (fun rest => ?_) (Kind.combine?_eq_none single k)
    (fun _ => Word.isPoint_mark fixed) code
  cases label : k'.label.toList with
  | nil => simp [label] at gap
  | cons c cs =>
    rw [label] at gap
    exact .of_gap k _ gap

theorem spaced_mark (k' : Kind) (fixed : (k'.isFixed && !k'.isSecond) = true)
    (code : k ≠ .comment) : Continues l k (' ' :: k'.label.toList) [.mark k'] := by
  simp only [Bool.and_eq_true, Bool.not_eq_true'] at fixed
  exact (Phrase.mark fixed.1).after_space (Kind.combine?_eq_none fixed.2 k)
    (fun _ => Word.isPoint_mark fixed.1) code

end Continues

namespace Emit

def chars (l : Layout) (pieces : List Piece) : List Char := (render l pieces).toList

@[simp] theorem chars_nil (l : Layout) : chars l [] = [] := rfl

@[simp] theorem chars_cons (l : Layout) (p : Piece) (rest : List Piece) :
    chars l (p :: rest) = (p.render l).toList ++ chars l rest := by simp [chars]

@[simp] theorem chars_append (l : Layout) (first second : List Piece) :
    chars l (first ++ second) = chars l first ++ chars l second := by simp [chars]

theorem indentation_spaces (plain : l.Plain) (level : Nat) :
    (indentation l level).toList.all Text.isSpace = true := by
  induction level with
  | zero => rfl
  | succ level ih =>
    rw [indentation, String.toList_append, List.all_append, plain.indent, ih]
    rfl

end Emit

/-- A line break touches nothing and ends every comment. -/
theorem Continues.line (plain : l.Plain) (level : Nat) :
    Continues l k ((Emit.Piece.line level).render l).toList [.newline] := by
  intro rest w meets
  have indented : Spells (some .newline) ((Emit.indentation l level).toList ++ rest) w :=
    .blanks (Emit.indentation_spaces plain level) meets.spells
  have feed : ∀ k, Spells (some k) ('\n' :: ((Emit.indentation l level).toList ++ rest))
      (.newline :: w) := fun k =>
    .word Word.genuine_newline indented trivial rfl fun _ => rfl
  have prefixed : ((Emit.Piece.line level).render l).toList ++ rest =
      l.newline.toList ++ ((Emit.indentation l level).toList ++ rest) := by
    simp [Emit.Piece.render]
  rw [prefixed]
  refine ⟨?_, ?_, Kind.combine?_eq_none rfl k, fun _ => .inr (List.prefix_append _ _)⟩
  · rcases plain.newline with newline | newline <;> rw [newline]
    · exact feed k
    · exact .of_blank rfl (feed k)
  · rcases plain.newline with newline | newline <;> rw [newline]
    · exact .of_gap k _ (by decide +kernel)
    · exact .of_gap k _ (by decide +kernel)

end BrightScript
