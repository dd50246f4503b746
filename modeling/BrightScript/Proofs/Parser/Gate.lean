import BrightScript.Proofs.Parser.Inherited
import BrightScript.Proofs.Tree.Plain

/-! The conditional operator is all in which the two languages differ.
In BrightScript a conditional marks the statement that it stands in, and a marked statement is
dropped, so no conditional is left in a tree. As long as none is met, both modes go through the
same states. -/
namespace BrightScript

def Slot.plain : Slot → Bool
  | value e | operand e => e.plain
  | statement s => s.plain

section Parts

open Slot (plain)

theorem blockPlain_slots (b : Block Stmt) : blockPlain b = b.slots.all plain := by
  obtain ⟨stmts, range⟩ := b
  rw [blockPlain, stmtsPlain_eq, Block.slots, List.all_map]
  rfl

theorem optionPlain_slots (value : Option Expr) :
    optionPlain value = (optionSlots value).all plain := by
  cases value <;> simp [optionPlain, optionSlots, plain]

theorem parameterPlain_slots (p : Parameter Expr) : parameterPlain p = p.slots.all plain := by
  obtain ⟨_, _, fallback, _⟩ := p
  exact optionPlain_slots fallback

theorem functionPlain_slots (f : Function Expr Stmt) : functionPlain f = f.slots.all plain := by
  obtain ⟨isSub, ps, returns, body, range⟩ := f
  rw [functionPlain, parametersPlain_eq, blockPlain_slots, Function.slots, List.all_append,
    List.all_flatMap, funext parameterPlain_slots]

theorem memberPlain_slots (m : Member Expr) : memberPlain m = m.slots.all plain := by
  rcases m with ⟨⟨_, _, _, _⟩⟩ | _ <;> simp [memberPlain, Member.slots, plain]

theorem itemPlain_slots (i : PrintItem Expr) : itemPlain i = i.slots.all plain := by
  cases i <;> simp [itemPlain, PrintItem.slots, plain]

theorem elseIfPlain_slots (e : ElseIf Expr Stmt) : elseIfPlain e = e.slots.all plain := by
  obtain ⟨condition, body, _⟩ := e
  rw [elseIfPlain, blockPlain_slots]
  rfl

theorem Expr.plain_slots {e : Expr} (ordinary : e.ordinary = true) :
    e.plain = e.slots.all Slot.plain := by
  cases e with
  | unary | conditional => cases ordinary
  | function f => exact functionPlain_slots f
  | assoc ms r =>
    rw [Expr.plain, membersPlain_eq, funext memberPlain_slots, Expr.slots, List.all_flatMap]
  | call | array => simp [Expr.plain, exprsPlain_eq, Expr.slots, Slot.plain, Function.comp_def]
  | _ => simp [Expr.plain, Expr.slots, Slot.plain]

theorem Stmt.plain_slots (s : Stmt) : s.plain = s.slots.all Slot.plain := by
  cases s with
  | declare name f => exact functionPlain_slots f
  | returns value r => exact optionPlain_slots value
  | print is r =>
    rw [Stmt.plain, itemsPlain_eq, funext itemPlain_slots, Stmt.slots, List.all_flatMap]
  | ifThen condition body elseIfs elseBody inline r =>
    have clauses : elseIfsPlain elseIfs = (elseIfs.flatMap ElseIf.slots).all Slot.plain := by
      rw [elseIfsPlain_eq, funext elseIfPlain_slots, List.all_flatMap]
    cases elseBody <;>
      simp [Stmt.plain, Stmt.slots, blockPlain_slots, clauses, Slot.plain, Bool.and_assoc]
  | whileLoop | forEach | forLoop =>
    simp [Stmt.plain, Stmt.slots, blockPlain_slots, optionPlain_slots, Slot.plain, Bool.and_assoc]
  | _ => simp [Stmt.plain, Stmt.slots, Slot.plain, Bool.and_assoc]

end Parts

namespace Parser

theorem inherited_plain : Inherited .brightScript fun _ q => q.plain = true where
  node ordinary := by rw [← List.all_eq_true, ← Expr.plain_slots ordinary]; rfl
  conditional other := by cases other
  signed _ plain := plain
  whole _ plain := plain
  listed _ plain := by rwa [← List.all_eq_true, ← Stmt.plain_slots] at plain
  comment _ := rfl

abbrev Gated (g : Grammar) : Prop := Inherits .brightScript (fun _ q => q.plain = true) g

theorem Gated.statements {g : Grammar} (h : Gated g) (closers : List Kind) (s : State) :
    ∀ stmts s', s.mode = .brightScript → (statements g closers).run s = (some stmts, s') →
      (true || !s'.discard) = true → ∀ st ∈ stmts, st.plain = true :=
  fun stmts s' mode run kept => Inherits.statements h closers s stmts s' mode rfl run kept

theorem gated_unroll (n : Nat) : Gated (unroll n) := inherited_plain.unroll n

end Parser

open BrightScript.Parser in
/-- In BrightScript no conditional is left in the tree, whatever the tokens are; and a parse that
reports none is the same, reports included, in both languages. -/
theorem parse_plain_and_eq_of_supported (tokens : List Token) :
    stmtsPlain (parse .brightScript tokens).statements = true ∧
      ((∀ d ∈ (parse .brightScript tokens).diagnostics, d.code ≠ 1061) →
        parse .brightScript tokens = parse .brighterScript tokens) := by
  constructor
  · have plain := (gated_unroll (maxNesting + 1)).statements [] (.start .brightScript tokens)
    unfold parse
    cases run : (statements grammar []).run (.start .brightScript tokens) with
    | mk result s =>
      cases result with
      | none => rfl
      | some stmts => simpa [stmtsPlain_eq] using plain stmts s rfl run rfl
  · intro supported
    obtain ⟨_, same⟩ :=
      (statements grammar []).impartial (.start .brightScript tokens) rfl rfl supported
    have other : (State.start .brightScript tokens).inMode .brighterScript =
        .start .brighterScript tokens := rfl
    unfold parse
    rw [← other, same]
    rfl

/-- A statement that is dropped for another reason does not tell the modes apart. -/
theorem parse_eq_of_supported_dropped :
    let tokens : List Token := [⟨.identifier, "x", .empty .origin, none⟩,
      ⟨.plus, "+", .empty .origin, none⟩, ⟨.integerLiteral, "1", .empty .origin, none⟩]
    (parse .brightScript tokens).diagnostics ≠ [] ∧
      parse .brightScript tokens = parse .brighterScript tokens :=
  ⟨by decide +kernel, (parse_plain_and_eq_of_supported _).2 (by decide +kernel)⟩

end BrightScript
