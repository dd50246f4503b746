import BrightScript.Proofs.Parser.Shelter

/-! The end of the file is a hard stop.
Behind an end-of-file token nothing counts, and a token list without one is read as if it had one
at its end. No state on the way of the parser is beyond the first end-of-file token. -/
namespace BrightScript
namespace Parser

variable {α β σ : Type}

/-- Running `p` from `s` comes by the state `t`. -/
inductive Passes : {α : Type} → Parser α → State → State → Prop where
  | start {α : Type} (p : Parser α) (s : State) : Passes p s s
  | stop {α : Type} (p : Parser α) (s : State) : Passes p s (p.run s).2
  | take {n m : Nat} (s : State) : m ≤ n → Passes (take n) s (s.drop m)
  | skip {skips : Kind → Bool} {m : Nat} (s : State) :
      m ≤ (s.rest.items.takeWhile fun t => skips t.kind).length →
      Passes (skipWhile skips) s (s.drop m)
  | first {α β : Type} {p : Parser α} {f : α → Parser β} {s t : State} :
      Passes p s t → Passes (p >>= f) s t
  | second {α β : Type} {p : Parser α} {f : α → Parser β} {s s' t : State} {a : α} :
      p.run s = (some a, s') → Passes (f a) s' t → Passes (p >>= f) s t
  | attempt {α : Type} {p : Parser α} {s t : State} : Passes p s t → Passes (attemptPast p) s t
  | guarded {α : Type} {p : Parser α} {cleanup : Parser Unit} {s t : State} :
      Passes p s t → Passes (withCleanup p cleanup) s t
  | cleanup {α : Type} {p : Parser α} {cleanup : Parser Unit} {s s' t : State} :
      p.run s = (none, s') → Passes cleanup s' t → Passes (withCleanup p cleanup) s t
  | spanned {α : Type} {range : Range} {p : Parser (Range → α)} {s t : State} :
      Passes p s t → Passes (spanned range p) s t
  | nested {α : Type} {p : Parser α} {s t : State} : s.nesting < maxNesting →
      Passes p (s.atNesting (s.nesting + 1)) t → Passes (nested p) s t
  | inFunction {α : Type} {p : Parser α} {s t : State} :
      Passes p (s.atFunctions (s.functions + 1)) t → Passes (inFunction p) s t
  | droppable {α : Type} {p : Parser α} {s t : State} :
      Passes p (s.withDiscard false) t → Passes (droppable p) s t
  | round {α σ : Type} {round : σ → Parser (Round σ α)} {x : σ} {s t : State} :
      Passes (round x) s t → Passes (loop round x) s t
  | again {α σ : Type} {round : σ → Parser (Round σ α)} {x y : σ} {s s' t : State} :
      (round x).run s = (some (.again y), s') → s'.rest.size < s.rest.size →
      Passes (loop round y) s' t → Passes (loop round x) s t

/- A part of a run leaves no fewer tokens than the whole run. -/
section Parts

variable {p : Parser α} {s : State}

theorem size_bind_le {f : α → Parser β} :
    ((p >>= f).run s).2.rest.size ≤ (p.run s).2.rest.size := by
  rw [run_bind]
  cases p.run s with
  | mk result s' =>
    cases result with
    | some a => exact ((f a).advances s').size_le
    | none => exact Nat.le_refl _

theorem size_attemptPast_le :
    ((attemptPast p).run s).2.rest.size ≤ (p.run s).2.rest.size := by
  simp only [run_attemptPast]
  cases p.run s with
  | mk result s' =>
    cases result with
    | some a => exact Nat.le_refl _
    | none =>
      dsimp only
      split
      · exact (State.Advances.drop 1 s').size_le
      · exact Nat.le_refl _

theorem size_withCleanup_le {cleanup : Parser Unit} :
    ((withCleanup p cleanup).run s).2.rest.size ≤ (p.run s).2.rest.size := by
  simp only [run_withCleanup]
  cases p.run s with
  | mk result s' =>
    cases result with
    | some a => exact Nat.le_refl _
    | none => exact (cleanup.advances s').size_le

theorem size_spanned {range : Range} {p : Parser (Range → α)} :
    ((spanned range p).run s).2.rest.size = (p.run s).2.rest.size := by
  simp only [run_spanned]
  cases p.run s with
  | mk result s' => cases result <;> rfl

theorem size_loop_le {round : σ → Parser (Round σ α)} {x : σ} :
    ((loop round x).run s).2.rest.size ≤ ((round x).run s).2.rest.size := by
  rw [run_loop]
  cases (round x).run s with
  | mk result s' =>
    rcases result with _ | y | a
    · exact Nat.le_refl _
    · dsimp only
      split
      · exact ((loop round y).advances s').size_le
      · exact (tooDeep.advances s').size_le
    · exact Nat.le_refl _

end Parts

theorem Passes.size_le {p : Parser α} {s t : State} (h : Passes p s t) :
    (p.run s).2.rest.size ≤ t.rest.size := by
  induction h with
  | start p s => exact (p.advances s).size_le
  | stop p s => exact Nat.le_refl _
  | take s le => exact Nat.sub_le_sub_left le s.rest.size
  | skip s le => exact Nat.sub_le_sub_left le s.rest.size
  | first _ ih => exact Nat.le_trans size_bind_le ih
  | second eq _ ih =>
    rw [run_bind, eq]
    exact ih
  | attempt _ ih => exact Nat.le_trans size_attemptPast_le ih
  | guarded _ ih => exact Nat.le_trans size_withCleanup_le ih
  | cleanup eq _ ih =>
    simp only [run_withCleanup, eq]
    exact ih
  | spanned _ ih => exact Nat.le_trans (Nat.le_of_eq size_spanned) ih
  | nested shallow _ ih =>
    simp only [run_nested, if_neg (Nat.not_le.mpr shallow)]
    exact ih
  | inFunction _ ih => exact ih
  | droppable _ ih => exact ih
  | round _ ih => exact Nat.le_trans size_loop_le ih
  | @again _ _ round x y s s' t eq less _ ih =>
    rw [run_loop_again eq less]
    exact ih

/-- What is parsed in front of the end of the file, whatever stands behind it. -/
theorem exists_parse (mode : Mode) (tokens : List Token) (range : Range) :
    ∃ (result : Parsed) (left : List Token), ∀ after,
      (Verge.file range).Meets after (State.start mode (tokens ++ after)).finish →
        parse mode (tokens ++ after) = result ∧
        ((statements grammar []).run (.start mode (tokens ++ after))).2.rest.size =
          left.length + after.length := by
  obtain ⟨r, s', left, ⟨-, run⟩, -⟩ := (sheltered_unroll (.file range) _).statements nofun []
    (.start mode []) tokens nofun (.file range tokens) trivial
  refine ⟨⟨r.getD [], s'.diagnostics⟩, left, fun after meets => ?_⟩
  have whole : (statements grammar []).run (.start mode (tokens ++ after)) = _ :=
    run after _ meets
  refine ⟨?_, by rw [whole, State.size_upTo]⟩
  rw [parse, whole]
  rfl

theorem meets_cons {file : Token} (kind : file.kind = .endOfFile) (more : List Token)
    (finish : Position) : (Verge.file file.range).Meets (file :: more) finish :=
  ⟨kind, rfl, nofun, nofun⟩

theorem meets_nil (finish : Position) : (Verge.file (.empty finish)).Meets [] finish :=
  ⟨rfl, rfl, nofun, nofun⟩

theorem exists_meets (mode : Mode) (tokens : List Token) : ∃ before after range,
    tokens = before ++ after ∧ before.length = tokens.findIdx (·.kind = .endOfFile) ∧
      (Verge.file range).Meets after (State.start mode (before ++ after)).finish := by
  obtain ⟨before, after, rfl, inner, first⟩ :=
    exists_skipped (fun k => decide (k ≠ .endOfFile)) tokens
  have none : before.findIdx (·.kind = .endOfFile) = before.length :=
    List.findIdx_eq_length.mpr fun t mem => by simpa using inner t mem
  cases after with
  | nil => exact ⟨before, [], _, rfl, by rw [List.append_nil, none], meets_nil _⟩
  | cons file more =>
    have kind : file.kind = .endOfFile := by simpa using first file rfl
    refine ⟨before, file :: more, _, rfl, ?_, meets_cons kind more _⟩
    rw [List.findIdx_append, none, if_neg (Nat.lt_irrefl _)]
    simp [List.findIdx_cons, kind]

end Parser

open BrightScript.Parser

/-- A token list is read as with an end-of-file token at its end, nothing behind such a token
counts, and on the way no more tokens are taken than stand in front of the first one. -/
theorem parse_halts_at_file (mode : Mode) (tokens : List Token) :
    (∀ file : Token, file.kind = .endOfFile →
      file.range = .empty ((tokens.getLast?.map (·.range.stop)).getD .origin) →
        parse mode (tokens ++ [file]) = parse mode tokens) ∧
    (∀ (file : Token) (more : List Token), file.kind = .endOfFile →
      parse mode (tokens ++ file :: more) = parse mode (tokens ++ [file])) ∧
    ∀ s, Passes (statements grammar []) (.start mode tokens) s →
      tokens.length - s.rest.size ≤ tokens.findIdx (·.kind = .endOfFile) := by
  refine ⟨fun file kind range => ?_, fun file more kind => ?_, fun s passes => ?_⟩
  · obtain ⟨result, left, same⟩ := exists_parse mode tokens file.range
    have ends : (Verge.file file.range).Meets [] (State.start mode (tokens ++ [])).finish := by
      rw [range, List.append_nil]
      exact meets_nil _
    have without := (same [] ends).1
    rw [List.append_nil] at without
    rw [without]
    exact (same [file] (meets_cons kind [] _)).1
  · obtain ⟨result, left, same⟩ := exists_parse mode tokens file.range
    rw [(same _ (meets_cons kind more _)).1, (same _ (meets_cons kind [] _)).1]
  · obtain ⟨before, after, range, eq, length, meets⟩ := exists_meets mode tokens
    obtain ⟨result, left, same⟩ := exists_parse mode before range
    have last := (same after meets).2
    rw [← eq] at last
    have onTheWay := passes.size_le
    rw [last] at onTheWay
    rw [← length, eq, List.length_append]
    omega

/- The member after the point is looked for at the end of the file, not behind it. -/
theorem parse_halts_at_file_member :
    parse .brightScript [⟨.identifier, "a", ⟨⟨0, 0⟩, ⟨0, 1⟩⟩, none⟩,
        ⟨.dot, ".", ⟨⟨0, 1⟩, ⟨0, 2⟩⟩, none⟩, .endOfFile ⟨0, 2⟩] =
      parse .brightScript
        [⟨.identifier, "a", ⟨⟨0, 0⟩, ⟨0, 1⟩⟩, none⟩, ⟨.dot, ".", ⟨⟨0, 1⟩, ⟨0, 2⟩⟩, none⟩] ∧
    parse .brightScript [⟨.identifier, "a", ⟨⟨0, 0⟩, ⟨0, 1⟩⟩, none⟩,
        ⟨.dot, ".", ⟨⟨0, 1⟩, ⟨0, 2⟩⟩, none⟩, .endOfFile ⟨0, 2⟩,
        ⟨.identifier, "b", ⟨⟨0, 2⟩, ⟨0, 3⟩⟩, none⟩] =
      parse .brightScript [⟨.identifier, "a", ⟨⟨0, 0⟩, ⟨0, 1⟩⟩, none⟩,
        ⟨.dot, ".", ⟨⟨0, 1⟩, ⟨0, 2⟩⟩, none⟩, .endOfFile ⟨0, 2⟩] := by
  have all := parse_halts_at_file .brightScript
    [⟨.identifier, "a", ⟨⟨0, 0⟩, ⟨0, 1⟩⟩, none⟩, ⟨.dot, ".", ⟨⟨0, 1⟩, ⟨0, 2⟩⟩, none⟩]
  exact ⟨all.1 (.endOfFile ⟨0, 2⟩) rfl rfl,
    all.2.1 (.endOfFile ⟨0, 2⟩) [⟨.identifier, "b", ⟨⟨0, 2⟩, ⟨0, 3⟩⟩, none⟩] rfl⟩

end BrightScript
