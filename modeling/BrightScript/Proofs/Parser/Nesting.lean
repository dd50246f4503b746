import BrightScript.Proofs.Parser.Inherited
import BrightScript.Proofs.Parser.Progress

/-! The limit on nesting is a limit on the depth of trees.
At any level of nesting a parser finds nothing that is deeper than the levels that are left. Each
statement, each prefix operator and each whole expression takes one of them. -/
namespace BrightScript
namespace Parser

theorem inherited_within (mode : Mode) :
    Inherited mode fun n => Slot.Within (maxNesting - n) where
  node {_ e} ordinary := Slot.operand_within (by cases e <;> first | rfl | cases ordinary)
  conditional _ _ _ _ _ _ test consequent alternate := by
    refine (Slot.operand_within rfl).mpr ?_
    simp [Expr.slots, test, consequent, alternate]
  signed {n} _ _ _ shallow within := by
    rw [(by omega : maxNesting - n = maxNesting - (n + 1) + 1)]
    exact Slot.unary_within within
  whole {n} _ shallow within := by
    rw [(by omega : maxNesting - n = maxNesting - (n + 1) + 1)]
    exact Slot.value_within within
  listed {n} _ shallow within := by
    rw [(by omega : maxNesting - n = maxNesting - (n + 1) + 1)]
    exact Slot.statement_within within
  comment := Slot.comment_within

end Parser

open BrightScript.Parser in
/-- Whatever the tokens are, no way down from a statement of the tree has more than 200 levels. -/
theorem parse_path_le (mode : Mode) (tokens : List Token) :
    ∀ st ∈ (parse mode tokens).statements, ∀ n node,
      Slot.Path (.statement st) n node → n ≤ 200 := by
  have listed : Finds mode 0 true (statements grammar [])
      (∀ st ∈ ·, (Slot.statement st).Within maxNesting) :=
    ((inherited_within mode).unroll (maxNesting + 1)).statements []
  obtain ⟨stmts, s, _, run, _⟩ := (total_statementRound grammar []).many_ends
    ((consuming_unroll _).statementRound []) (.start mode tokens)
  rw [parse_of_run run]
  exact listed (.start mode tokens) stmts s rfl rfl run rfl

/-- With 198 signs before an assigned number the limit is reached. -/
theorem parse_path_le_signs :
    let tokens : List Token := ⟨.identifier, "x", .empty .origin, none⟩ ::
      ⟨.equal, "=", .empty .origin, none⟩ ::
        (List.replicate 198 ⟨.minus, "-", .empty .origin, none⟩ ++
          [⟨.integerLiteral, "1", .empty .origin, none⟩])
    ∃ st ∈ (parse .brightScript tokens).statements, ∃ n node,
      n = 200 ∧ Slot.Path (.statement st) n node ∧ n ≤ 200 := by
  intro tokens
  have deep : 200 ∈ (parse .brightScript tokens).statements.map
      (Slot.reach 200 <| .statement ·) := by decide +kernel
  obtain ⟨st, mem, reach⟩ := List.mem_map.mp deep
  obtain ⟨node, path⟩ := Slot.exists_path_reach 200 (.statement st)
  exact ⟨st, mem, _, node, reach, path, parse_path_le .brightScript tokens st mem _ node path⟩

end BrightScript
