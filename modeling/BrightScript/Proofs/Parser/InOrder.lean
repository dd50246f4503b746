import BrightScript.Proofs.Parser.Order

/-! Every routine reports in order and reads what lies in a row, and so does a whole parse. -/
namespace BrightScript
namespace Parser

variable {α : Type} {s s₀ : State} {e : Expr}

def isLeaf : Expr → Bool
  | .literal _ | .var _ => true
  | _ => false

/- An expression that has been read. One that is only a leaf is its token, or it stops at the end of
a line, where a point has been dropped. -/
structure Taken (s : State) (e : Expr) (s' : State) : Prop where
  laid : Laid s [.node (.expr e)] s'
  alone : isLeaf e = true →
    (s' = s.drop 1 ∧ (∀ l, e = .literal l → l = ⟨s.kind, s.token.text, s.range⟩) ∧
        ((∃ x, e = .var x) → s.kind = .identifier)) ∨
      (s'.kind ≠ .identifier ∧ s'.kind.isAssignment = false)

theorem Taken.of_laid {s' : State} (laid : Laid s [.node (.expr e)] s')
    (compound : isLeaf e = false) : Taken s e s' :=
  ⟨laid, fun leaf => by rw [compound] at leaf; cases leaf⟩

theorem Taken.start_le {s' : State} (h : Taken s e s') : e.range.start ≤ s'.place := by
  obtain ⟨-, solid, high⟩ := h.laid.row.mem e.range List.mem_cons_self
  exact le_trans (le_of_lt solid) (le_trans high (h.laid.sound.reached_le_place h.laid.leads))

/-- The routines one level further in. -/
structure OrderlyGrammar (g : Grammar) : Prop where
  expression : ∀ s, Orderly s g.expression (Taken s)
  operand : ∀ s, Orderly s g.operand (Taken s)
  statement : ∀ s, Orderly s g.statement fun st s' => Laid s [.node (.stmt st)] s'

abbrev LaysAll (s : State) (p : Parser α) (nodes : α → List Node) : Prop :=
  Orderly s p fun a s' => Laid s ((nodes a).map .node) s'

abbrev Lays (s : State) (p : Parser α) (node : α → Node) : Prop :=
  Orderly s p fun a s' => Laid s [.node (node a)] s'

variable {g : Grammar}

theorem open_of_eq {k : Kind} (at_ : s.kind = k) (other : k ≠ .endOfFile) : s.kind ≠ .endOfFile :=
  at_ ▸ other

theorem open_of {p : Kind → Bool} (holds : p s.kind = true) (other : p .endOfFile = false) :
    s.kind ≠ .endOfFile := by
  intro file
  rw [file, other] at holds
  cases holds

theorem orderly_takeIdent (open_ : s.kind ≠ .endOfFile) :
    Orderly s takeIdent fun x s' => Laid s [.word x.range] s' :=
  .start fun acc => .inspecting (acc.advancing open_ fun acc => .pure acc)

theorem orderly_comment :
    Orderly s comment fun c s' => c = ⟨s.token.text, s.range⟩ ∧ s' = s.drop 1 :=
  .inspecting (.advancing (.pure ⟨rfl, rfl⟩))

theorem orderly_comment_laid (open_ : s.kind ≠ .endOfFile) :
    Orderly s comment fun c s' => Laid s [.node (.stmt (.comment c))] s' := by
  refine .start fun acc => orderly_comment.weaken fun c s' taken => ?_
  obtain ⟨rfl, rfl⟩ := taken
  exact (Laid.word acc.sound (State.Advances.drop 1 s).leads open_ rfl).same rfl (Told.free rfl) rfl

theorem orderly_commentRun (open_ : s.kind ≠ .endOfFile) :
    Orderly s commentRun fun c s' => Laid s [.node (.stmt (.comment c))] s' := by
  refine .start fun acc => orderly_comment.bind fun c s' _ taken => .inspecting ?_
  obtain ⟨rfl, rfl⟩ := taken
  refine Orderly.take.bind fun _ s' leads at_ => .pure ?_
  have onward := (State.Advances.drop 1 s).leads
  have word := (Laid.word acc.sound onward open_ rfl).skip leads
  refine word.comments rfl fun t mem => ?_
  obtain ⟨more, found, items, -⟩ := followingComments_items s.range (s.drop 1).rest.items
  have taken : s.rest.items = (s.token :: more.flatMap fun p => [p.1, p.2]) ++ s'.rest.items := by
    rw [State.items_eq open_, at_]
    rw [found, List.length_map]
    exact congrArg (s.token :: ·) items
  rw [found] at mem
  obtain ⟨p, pair, rfl⟩ := List.mem_map.mp mem
  have between := acc.sound.taken_between (onward.trans leads) taken (t := p.2)
    (List.mem_cons_of_mem _ (List.mem_flatMap.mpr ⟨p, pair, by simp⟩))
  exact ⟨between.1, between.2.1⟩

theorem orderly_trailingComment : LaysAll s trailingComment fun cs => cs.map .stmt := by
  refine .start fun acc => .inspecting ?_
  split
  · rename_i at_
    exact acc.bind (orderly_comment_laid (open_of_eq (of_decide_eq_true at_) (by decide)))
      fun _ _ acc => .pure acc
  · exact .pure acc

theorem orderly_finishStatement (st : Stmt) :
    LaysAll s (finishStatement st) fun cs => cs.map .stmt := by
  refine .start fun acc => acc.bind orderly_trailingComment fun comments _ acc => .inspecting ?_
  split
  · exact .pure acc
  · refine acc.then_ (.reportHere (.inl rfl) rfl) fun _ _ acc => acc.then_ .advance fun _ _ acc => ?_
    split <;> exact acc.then_ .skipWhile fun _ _ acc => .pure acc

theorem memberless_takeIdent : Memberless takeIdent :=
  .bind (fun _ _ => id) fun _ => .bind (fun _ _ => id) fun _ _ _ => id

/- The report, if any, is at the name that has been taken. -/
theorem orderly_declaredName :
    Orderly s declaredName fun x s' => Laid s [.name x] s' ∧ x = ⟨s.token.text, s.range⟩ := by
  refine .start fun acc => .inspecting ?_
  split
  · rename_i word
    have open_ := open_of word rfl
    have onward := State.Advances.drop 1 s
    have taken : takeIdent.run s = (some ⟨s.token.text, s.range⟩, s.drop 1) := rfl
    refine .of_one (fun t => ?_) (fun sound => ?_) fun x s' run => ?_
    · refine memberless_takeIdent.bind (fun name => ?_) s t
      split
      · exact .bind (fun _ _ => id) fun _ _ _ => id
      split
      · exact .bind (fun _ _ => id) fun _ _ _ => id
      · exact fun _ _ => id
    · have leads (problem : Problem) := (onward.trans (.report _ problem s.range)).leads
      rw [run_bind, taken]
      dsimp only
      split
      · rename_i reserved
        refine .inr ⟨.reservedWord s.token.text, ⟨.inr (le_refl _),
          sound.place_le (leads _), fun _ => ?_⟩, .inr rfl, rfl⟩
        exact ⟨s.token, State.token_mem open_, rfl, reserved, sound.spans_token open_, id⟩
      split
      · exact .inr ⟨.expectedIdentifier s.token.text, sound.reports_here (leads _) rfl,
          .inr (Token.quoted_of_word word).symm, rfl⟩
      · exact .inl rfl
    · have named {s' : State} (leads : s.Leads s') (rest : s'.rest = (s.drop 1).rest)
          (told : Told s'.diagnostics ⟨s.token.text, s.range⟩) :
          Laid s [.name ⟨s.token.text, s.range⟩] s' :=
        (Laid.word acc.sound leads open_ rest).named rfl told
      rw [run_bind, taken] at run
      dsimp only at run
      split at run
      · cases run
        exact ⟨named (onward.trans (.report _ _ _)).leads rfl fun _ =>
          ⟨_, List.mem_concat_self, rfl, rfl⟩, rfl⟩
      rename_i free
      split at run
      · cases run
        exact ⟨named (onward.trans (.report _ _ _)).leads rfl (absurd · free), rfl⟩
      · cases run
        exact ⟨named onward.leads rfl (absurd · free), rfl⟩
  · exact .refuse (.inr rfl) rfl

theorem orderly_name : Orderly s declaredName fun x s' => Laid s [.name x] s' :=
  orderly_declaredName.weaken fun _ _ => And.left

theorem orderly_typeName : Orderly s typeName fun _ _ => True := by
  refine .inspecting ?_
  split
  · cases known : Ty.ofName? s.token.text with
    | some type => exact .advancing .done
    | none =>
      have plain : Memberless (do
          advance
          report (.unknownType s.token.text) s.range
          pure Ty.dynamic) := .bind (fun _ _ => id) fun _ => .bind (fun _ _ => id) fun _ _ _ => id
      exact .of_here (q := .unknownType s.token.text) (plain s) (.inr rfl) rfl rfl fun _ _ _ => trivial
  · exact .refuse (.inr rfl) rfl

theorem orderly_asType {missing : Ty} : Orderly s (asType missing) fun _ _ => True := by
  refine .inspecting ?_
  split
  · exact .advancing orderly_typeName
  · exact .done

theorem memberless_asType {missing : Ty} : Memberless (asType missing) := by
  have typeName : Memberless typeName := by
    refine .bind (fun _ _ => id) fun t => ?_
    split
    · refine .bind (fun _ _ => id) fun _ => ?_
      split
      · exact fun _ _ => id
      · exact .bind (fun _ _ => id) fun _ _ _ => id
    · exact fun _ _ => id
  refine .bind (fun _ _ => id) fun named => ?_
  split
  · exact .bind (fun _ _ => id) fun _ => typeName
  · exact fun _ _ => id

/- A type that is not known has been reported, and `dynamic` stands for it. -/
theorem asType_reports {s s' : State} {type : Ty} (run : (asType .dynamic).run s = (some type, s')) :
    type = .dynamic ∨ s.kind = .identifier ∧ s'.diagnostics = s.diagnostics := by
  obtain ⟨found, s₁, first, run⟩ := run_bind_eq_some.mp run
  obtain ⟨found_eq, rfl⟩ := Prod.mk.inj first
  obtain rfl := Option.some.inj found_eq
  split at run
  · rename_i named
    have identifier : s.kind = .identifier := by simp_all
    obtain ⟨_, s₁, first, run⟩ := run_bind_eq_some.mp run
    obtain ⟨-, rfl⟩ := Prod.mk.inj first
    obtain ⟨t, s₂, first, run⟩ := run_bind_eq_some.mp run
    obtain ⟨-, rfl⟩ := Prod.mk.inj first
    split at run
    · obtain ⟨_, s₁, first, run⟩ := run_bind_eq_some.mp run
      obtain ⟨-, rfl⟩ := Prod.mk.inj first
      split at run
      · obtain ⟨-, rfl⟩ := Prod.mk.inj run
        exact .inr ⟨identifier, rfl⟩
      · obtain ⟨same, -⟩ := Prod.mk.inj run
        exact .inl (Option.some.inj same).symm
    · cases run
  · obtain ⟨same, -⟩ := Prod.mk.inj run
    exact .inl (Option.some.inj same).symm

theorem convertible_dynamic (type : Ty) : type.convertible .dynamic = true := by
  cases type <;> rfl

/- Only a literal of another type is reported, and not when no type has been given. -/
theorem checkFallback_cases (e : Expr) (type : Ty) :
    checkFallback (some e) type = pure () ∨ ∃ l : Literal,
      e = .literal l ∧ type ≠ .dynamic ∧ checkFallback (some e) type =
        report (.notConvertible l.type.display type.display) l.range := by
  unfold checkFallback
  split
  · rename_i l given
    obtain rfl := Option.some.inj given
    split
    · rename_i differs
      refine .inr ⟨l, rfl, ?_, rfl⟩
      rintro rfl
      simp [convertible_dynamic] at differs
    · exact .inl rfl
  · exact .inl rfl

theorem memberless_checkFallback (e : Expr) (type : Ty) :
    Memberless (checkFallback (some e) type) := by
  rcases checkFallback_cases e type with quiet | ⟨l, -, -, told⟩
  · rw [quiet]
    exact fun _ _ => id
  · rw [told]
    exact fun _ _ => id

theorem orderly_closeFunction (isSub : Bool) : Orderly s (closeFunction isSub) fun _ _ => True := by
  refine .inspecting ?_
  have taken (s' : State) :
      Orderly s' (if closesFunction s.kind then advance else pure ()) fun _ _ => True := by
    split
    · exact .advance
    · exact .done
  dsimp only
  split <;> split
  · exact taken _
  · exact .then_ (.reportHere (.inr ⟨_, rfl⟩) rfl) fun _ s' => taken s'
  · exact taken _
  · exact .then_ (.reportHere (.inr ⟨_, rfl⟩) rfl) fun _ s' => taken s'

theorem orderly_separator (closer : Kind) : Orderly s (separator closer) fun _ _ => True := by
  refine Orderly.accept.then_ fun comma _ => ?_
  cases comma with
  | true => exact .done
  | false =>
    refine .inspecting ?_
    split
    · exact .done
    · exact .refuse (.inr ⟨.inr ⟨closer, rfl⟩, rfl⟩) rfl

theorem orderly_memberName (open_ : s.kind ≠ .endOfFile) :
    Orderly s memberName fun x s' => Laid s [.word x.range] s' :=
  (Orderly.member open_).bind fun _ _ _ taken => .pure (taken.1 ▸ taken.2)

theorem orderly_memberKey : Orderly s memberKey fun _ s' => Laid s [.word s.range] s' := by
  refine .inspecting ?_
  split
  · rename_i at_
    refine (Orderly.member (open_of_eq at_ (by decide))).bind fun _ _ _ taken => ?_
    split <;> exact .pure taken.2
  split
  · rename_i word
    exact (Orderly.member (open_of word rfl)).bind fun _ _ _ taken => .pure taken.2
  · exact .refuse (.inr rfl) rfl

/- A node that ends with a closing mark. -/
theorem orderly_enclosed {closer : Kind} {p : Parser α} {node : α → Range → Expr}
    {f : α → List Node} (open_ : s.kind ≠ .endOfFile) (closes : closer ≠ .endOfFile)
    (range : ∀ a r, (node a r).range = r) (compound : ∀ a r, isLeaf (node a r) = false)
    (kids : ∀ a r, (Node.expr (node a r)).parts = f a)
    (h : ∀ s, LaysAll s p fun a => f a) :
    Orderly s (Parser.ranged do
      advance
      let a ← p
      expect closer
      pure (node a)) (Taken s) := by
  refine .ranged (.start fun acc => acc.advancing open_ fun acc => acc.bind (h _) fun a _ acc =>
    acc.then_ (Orderly.expect closes).any fun _ _ acc => .pure (.of_laid ?_ (compound _ _)))
  refine acc.ranged ?_ (Told.free rfl) rfl (range _ _)
  simp [kids, List.filterMap_cons]

/- The report is at the point that has been taken. -/
theorem orderly_memberAccess (acc : Taken s₀ e s) :
    Orderly s (memberAccess e) (Orderly.afterRound (Taken s₀) (Taken s₀)) := by
  refine .inspecting (.advancing_kind ?_)
  have onward := State.Advances.drop 1 s
  have told (ends : (s.drop 1).kind ≠ .identifier ∧ (s.drop 1).kind.isAssignment = false) :
      Orderly s (do
        advance
        report .expectedProperty s.range
        pure (Round.done e)) (Orderly.afterRound (Taken s₀) (Taken s₀)) := by
    have plain : Memberless (do
        advance
        report .expectedProperty s.range
        pure (Round.done (σ := Expr) e)) :=
      .bind (fun _ _ => id) fun _ => .bind (fun _ _ => id) fun _ _ _ => id
    refine .of_here (plain s) (.inl rfl) rfl rfl fun r s' run => ?_
    cases run
    exact ⟨acc.laid.skip (onward.trans (.report _ _ _)).leads, fun _ => .inr ends⟩
  split
  · rename_i word
    have open_ := open_of word rfl
    refine .advancing ((acc.laid.skip onward.leads).bind (orderly_memberName open_)
      fun name _ acc => .pure (.of_laid (acc.union rfl (Told.free rfl) rfl rfl rfl) rfl))
  split
  iterate 4
    rename_i at_
    exact told (by rw [at_]; decide)
  exact .of_here (q := .expectedProperty) (Memberless.bind (p := advance)
    (fun _ _ => id) (fun _ _ _ => id) s) (.inl rfl) rfl rfl fun _ _ run => by cases run

theorem orderly_binaryRest {operandAt : Nat → Parser Expr}
    (h : ∀ p s, Orderly s (operandAt p) (Taken s)) (level : Nat) {left : Expr}
    (acc : Taken s₀ left s) : Orderly s (binaryRest operandAt level left) (Taken s₀) := by
  refine .loop (fun left s (acc : Taken s₀ left s) => .inspecting ?_) acc
  split
  · split
    · exact acc.laid.then_ .advance fun _ _ laid => laid.bind ((h _ _).weaken fun _ _ acc => acc.laid)
        fun _ _ laid => .pure (.of_laid (laid.union rfl (Told.free rfl) rfl rfl rfl) rfl)
    · exact .pure acc
  · exact .pure acc

theorem orderly_binary {operand : Parser Expr} (h : ∀ s, Orderly s operand (Taken s)) (level : Nat) :
    Orderly s (binary operand level) (Taken s) := by
  have from_ (depth : Nat) : ∀ level s, Orderly s (binaryFrom operand depth level) (Taken s) := by
    induction depth with
    | zero => exact fun _ => h
    | succ depth ih =>
      exact fun level s => (h s).bind fun left _ _ acc => orderly_binaryRest ih level acc
  exact from_ tightestLevel level s

theorem Taken.lift {s' : State} (h : Taken (s.atNesting (s.nesting + 1)) e s') :
    Taken s e (s'.atNesting (s'.nesting - 1)) := by
  refine ⟨h.laid.like rfl rfl, fun leaf => (h.alone leaf).imp_left ?_⟩
  rintro ⟨rfl, rest⟩
  exact ⟨rfl, rest⟩

theorem orderly_markUnsupported : Orderly s markUnsupported fun _ _ => True := by
  refine .of_one (fun _ => id) (fun sound => ?_) fun _ _ _ => trivial
  change s.markUnsupported.diagnostics = _ ∨ ∃ q : Problem,
    State.Reports _ _ s.markUnsupported (.of q s.range) ∧ _ ∧ s.markUnsupported.diagnostics = _
  have leads := s.advances_markUnsupported.leads
  unfold State.markUnsupported at leads ⊢
  split
  · rename_i marks
    rw [if_pos marks] at leads
    exact .inr ⟨.unsupportedFeature _, sound.reports_here leads rfl, .inr rfl, rfl⟩
  · exact .inl rfl

theorem orderly_close (closer : Kind) (construct : String) :
    Orderly s (close closer construct) fun _ _ => True := by
  refine Orderly.accept.then_ fun found _ => ?_
  cases found with
  | true => exact .done
  | false =>
    simp only [Bool.false_eq_true, if_false]
    exact .reportHere (.inr ⟨closer, rfl⟩) rfl

/- The report is at the start of the whole expression, so it may be late. -/
theorem orderly_callStatement (acc : Taken s₀ e s) :
    Orderly s (callStatement e) fun st s' => Laid s₀ [.node (.stmt st)] s' := by
  unfold callStatement
  split
  · exact .pure (acc.laid.same rfl (Told.free rfl) rfl)
  · refine fun sound => ⟨?_, fun _ _ run => by cases run⟩
    change s.Follows (fun _ => False) (s.missCall e.range)
    unfold State.missCall
    split
    · exact .quiet (fun _ => False.elim) rfl
    · exact .one (fun _ => False.elim) rfl ⟨.inl (.inl rfl), acc.start_le, nofun⟩
        ⟨.expectedCall, rfl, .inl rfl⟩

theorem orderly_closeFor : Orderly s closeFor fun _ _ => True := by
  refine Orderly.accept.then_ fun next _ => ?_
  cases next with
  | true => exact Orderly.accept.then_ fun _ _ => .done
  | false => exact orderly_close _ _

section

variable (h : OrderlyGrammar g)
include h

theorem OrderlyGrammar.expr : Lays s g.expression .expr :=
  (h.expression s).weaken fun _ _ taken => taken.laid

theorem orderly_codeRound (closers : List Kind) :
    LaysAll s (codeRound g closers) fun r => (r.getD []).map .stmt := by
  refine .start fun acc => .inspecting ?_
  split
  · exact .pure acc
  · refine acc.bind (.attemptPast (h.statement s)) fun r _ acc => ?_
    cases r with
    | some st =>
      exact acc.bind (orderly_finishStatement st) fun _ _ acc => .pure acc
    | none => exact acc.then_ .skipWhile fun _ _ acc => .pure acc

theorem orderly_statements (closers : List Kind) :
    LaysAll s (statements g closers) fun stmts => stmts.map .stmt := by
  refine .many_map fun s => .start fun acc => .inspecting ?_
  split
  · exact acc.then_ .advance fun _ _ acc => .pure acc
  · exact acc.then_ .advance fun _ _ acc => .pure acc
  · exact .pure acc
  · exact acc.bind (orderly_commentRun (open_of_eq ‹_› (by decide))) fun _ _ acc => .pure acc
  · exact orderly_codeRound h closers

theorem orderly_block (closers : List Kind) : Lays s (block g closers) .block := by
  refine .start fun acc => .inspecting (acc.bind orderly_trailingComment fun header _ acc =>
    acc.bind (orderly_statements h closers) fun stmts _ acc => .pure (Laid.block ?_))
  simpa using acc

/- A report on the default is at the literal. Nothing has been reported since it was read: an
unknown type stands for `dynamic`, which goes with every literal. -/
theorem orderly_default {make : Expr → Ty → α} :
    Orderly s (do
      let e ← g.expression
      let type ← asType .dynamic
      checkFallback (some e) type
      pure (make e type)) fun a s' => ∃ e type, a = make e type ∧ Laid s [.node (.expr e)] s' := by
  intro sound
  have members (t : Token) : Parser.members (do
      let e ← g.expression
      let type ← asType .dynamic
      checkFallback (some e) type
      pure (make e type)) s t → g.expression.members s t :=
    members_of_bind fun e => memberless_asType.bind fun type =>
      (memberless_checkFallback e type).bind fun _ _ _ => id
  obtain ⟨follows, result⟩ := h.expression s sound
  have first := g.expression.advances s
  cases eq : g.expression.run s with
  | mk r s₁ =>
  rw [eq] at first follows
  cases r with
  | none =>
    rw [run_bind, eq]
    exact ⟨follows.mono members, by simp⟩
  | some e =>
  have taken := result e s₁ eq
  have second := (asType .dynamic).advances s₁
  have typed : Orderly s₁ (asType .dynamic) fun _ _ => True := orderly_asType
  obtain ⟨follows', -⟩ := typed (sound.advance first.leads)
  rw [run_bind, eq]
  dsimp only
  rw [run_bind]
  cases eq' : (asType .dynamic).run s₁ with
  | mk r s₂ =>
  rw [eq'] at second follows'
  have both := (follows.trans follows' sound first.leads second.leads).mono fun t member =>
    .inl (members t member)
  have leads := (first.trans second).leads
  cases r with
  | none => exact ⟨both, by simp⟩
  | some type =>
  dsimp only
  rcases checkFallback_cases e type with quiet | ⟨l, rfl, known, told⟩
  · rw [quiet]
    refine ⟨both, fun a s' run => ?_⟩
    cases run
    exact ⟨e, type, rfl, taken.laid.skip second.leads⟩
  · rw [told]
    rcases asType_reports eq' with dynamic | ⟨named, silent⟩
    · exact absurd dynamic known
    rcases taken.alone rfl with ⟨rfl, at_, -⟩ | ⟨unnamed, -⟩
    · obtain rfl := at_ l rfl
      refine ⟨.one both.2.1 ?_ ?_ (State.tells_here (p := .notConvertible _ _)
        (.inr ⟨rfl, type, rfl⟩)), ?_⟩
      · change s₂.diagnostics ++ _ = _
        rw [silent]
        rfl
      · exact sound.reports_here (leads.trans (State.Advances.report _ _ _).leads) rfl
      · intro a s' run
        cases run
        exact ⟨_, type, rfl, taken.laid.skip (second.trans (.report _ _ _)).leads⟩
    · exact absurd named unnamed

theorem orderly_parameter :
    Orderly s (parameter g) fun p s' =>
      Laid s [.node (.parameter p)] s' ∧ p.name.range.start ≤ s'.place ∧
        s.Tells (.of (.requiredAfterOptional p.name.name) p.name.range) := by
  refine .ranged (orderly_declaredName.bind fun name _ _ named =>
    named.1.then_ .accept fun given _ acc => ?_)
  have whole {parts : List Part} {s' : State} {p : Parameter Expr}
      (laid : Laid s (.name name :: parts) s') (kids : (Node.parameter p).parts =
        parts.filterMap Part.node?) (same : p.name = name) (range : p.range = s.spanTo s.range s') :
      Laid s [.node (.parameter p)] s' ∧ p.name.range.start ≤ s'.place ∧
        s.Tells (.of (.requiredAfterOptional p.name.name) p.name.range) := by
    obtain rfl := named.2
    refine ⟨laid.ranged kids (fun x binds => ?_) rfl range, ?_, ?_⟩
    · obtain rfl : p.name = x := Option.some.inj binds
      exact laid.told (by simp [same])
    · obtain ⟨-, solid, high⟩ := laid.row.mem s.range List.mem_cons_self
      rw [same]
      exact le_trans (le_of_lt solid) (le_trans high (laid.sound.reached_le_place laid.leads))
    · rw [same]
      exact State.tells_here (.inr rfl)
  cases given with
  | true =>
    refine .map_bind ((orderly_default h).weaken fun make s' => ?_)
    rintro ⟨e, type, rfl, laid⟩
    exact whole (acc.append laid) rfl rfl rfl
  | false =>
    exact .pure_bind (acc.then_ orderly_asType fun type _ acc => .pure_bind (.pure
      (whole acc rfl rfl rfl)))

theorem orderly_parameters : LaysAll s (parameters g) fun params => params.map .parameter := by
  have rest {params : List (Parameter Expr)} {s' : State}
      (acc : Laid s ((params.map .parameter).map .node) s') :
      Orderly s' (do
        expect .rightParen
        pure params) fun params s' => Laid s ((params.map .parameter).map .node) s' :=
    acc.then_ (Orderly.expect (by decide)).any fun _ _ acc => .pure acc
  refine .start fun acc => .inspecting ?_
  split
  · exact .pure_bind (rest acc)
  · refine .bind (.loop (I := fun seen s' => Laid s ((seen.1.map .parameter).map .node) s')
      (fun seen s' acc => ?_) acc) fun params s' _ acc => rest acc
    refine (orderly_parameter h).bind_late (fun _ => .inr rfl) (fun _ _ read => read.2)
      fun p _ _ read leads => ?_
    refine ((acc.append read.1).skip leads).then_ .accept fun comma _ acc => ?_
    cases comma <;> exact .pure (by simpa [Orderly.afterRound] using acc)

/- The keyword, and perhaps a name, have been taken before. -/
theorem orderly_functionRest {parts : List Part} {first : Range} (isSub : Bool)
    (before : Laid s₀ parts s) (none : parts.filterMap Part.node? = [])
    (head : (parts.flatMap Part.ranges).head? = some first) :
    Orderly s (functionRest g first isSub) fun f s' => Laid s₀ [.node (.expr (.function f))] s' := by
  refine .spanned (.start fun acc => acc.bind (.expect (by decide)) fun _ _ acc =>
    acc.bind (orderly_parameters h) fun params _ acc => acc.then_ orderly_asType fun returns _ acc =>
      acc.bind (.inFunction ((orderly_block h functionClosers).weaken fun _ _ laid => laid.like rfl rfl))
        fun body _ acc => acc.then_ (orderly_closeFunction isSub) fun _ _ acc => .pure ?_)
  refine before.spanned acc ?_ (Told.free rfl) head rfl rfl
  simp [Node.parts, none, List.filterMap_cons]

theorem orderly_arguments : LaysAll s (arguments g) fun args => args.map .expr := by
  have close {args : List Expr} {s' : State} (acc : Laid s ((args.map .expr).map .node) s') :
      Orderly s' (do
        expect .rightParen
        pure args) fun args s' => Laid s ((args.map .expr).map .node) s' :=
    acc.then_ (Orderly.expect (by decide)).any fun _ _ acc => .pure acc
  refine .start fun acc => acc.then_ .skipWhile fun _ _ acc => .inspecting ?_
  split
  · exact .pure_bind (close acc)
  · refine .bind (.loop (I := fun args s' => Laid s ((args.map .expr).map .node) s')
      (fun args s' acc => ?_) acc) fun _ _ _ acc => close acc
    refine acc.bind h.expr fun e _ acc => acc.then_ .skipWhile fun _ _ acc =>
      acc.then_ .accept fun comma _ acc => ?_
    cases comma with
    | true =>
      exact acc.then_ .skipWhile fun _ _ acc => .pure (by simpa [Orderly.afterRound] using acc)
    | false => exact .pure (by simpa [Orderly.afterRound] using acc)

theorem orderly_elementRound : LaysAll s (elementRound g) fun r => (r.getD []).map .expr := by
  refine .start fun acc => acc.then_ .skipWhile fun _ _ acc => .inspecting ?_
  split
  · exact .pure acc
  · exact acc.bind h.expr fun _ _ acc => acc.then_ (orderly_separator _) fun _ _ acc => .pure acc

theorem orderly_memberRound : LaysAll s (memberRound g) fun r => (r.getD []).map .ofMember := by
  refine .start fun acc => acc.then_ .skipWhile fun _ s₁ acc => .inspecting ?_
  split
  · exact .pure acc
  split
  · exact acc.bind (orderly_comment_laid (open_of_eq ‹_› (by decide))) fun _ _ acc => .pure acc
  · refine .start fun key => .inspecting (key.bind orderly_memberKey fun (name, quoted) _ key =>
      key.then_ (Orderly.expect (by decide)).any fun _ _ key => key.bind h.expr fun value _ key => ?_)
    have property := key.union (n := .property ⟨name, quoted, value, s₁.range.union value.range⟩)
      rfl (Told.free rfl) rfl rfl rfl
    exact (acc.append property).then_ (orderly_separator _) fun _ _ acc => .pure acc

theorem orderly_anonymousFunction (open_ : s.kind ≠ .endOfFile) :
    Orderly s (anonymousFunction g) (Taken s) :=
  .start fun acc => .inspecting (acc.advancing open_ fun acc =>
    (orderly_functionRest h _ acc rfl rfl).bind fun _ _ _ laid => .pure (.of_laid laid rfl))

theorem orderly_primary : Orderly s (primary g) (Taken s) := by
  refine .start fun acc => .inspecting ?_
  have leaf {e : Expr} (open_ : s.kind ≠ .endOfFile) (kids : (Node.expr e).parts = [])
      (range : e.range = s.range) : Laid s [.node (.expr e)] (s.drop 1) := by
    have taken := Laid.word acc.sound (State.Advances.drop 1 s).leads open_ rfl
    refine taken.same kids (Told.free rfl) ?_
    exact congrArg ([·]) range.symm
  split
  · rename_i at_
    refine .map (.inspecting (.advancing (.pure ⟨leaf (open_of_eq at_ (by decide)) rfl rfl, ?_⟩)))
    exact fun _ => .inl ⟨rfl, by simp, fun _ => at_⟩
  · exact orderly_enclosed (f := fun e => [.expr e]) (open_of_eq ‹_› (by decide)) (by decide)
      (fun _ _ => rfl) (fun _ _ => rfl) (fun _ _ => rfl) fun _ => h.expr
  · exact orderly_enclosed (open_of_eq ‹_› (by decide)) (by decide) (fun _ _ => rfl)
      (fun _ _ => rfl) (fun _ _ => rfl) fun _ => .many_map fun _ => orderly_elementRound h
  · exact orderly_enclosed (open_of_eq ‹_› (by decide)) (by decide) (fun _ _ => rfl)
      (fun _ _ => rfl) (fun _ _ => rfl) fun _ => .many_map fun _ => orderly_memberRound h
  · exact orderly_anonymousFunction h (open_of_eq ‹_› (by decide))
  · exact orderly_anonymousFunction h (open_of_eq ‹_› (by decide))
  · split
    · rename_i literal
      have open_ : s.kind ≠ .endOfFile := by
        intro file
        rw [show s.token.kind = _ from file] at literal
        cases literal
      refine .advancing (.pure ⟨leaf open_ rfl rfl, fun _ => .inl ⟨rfl, ?_, by simp⟩⟩)
      rintro _ ⟨⟩
      rfl
    · exact .refuse (.inr rfl) rfl

theorem orderly_accessRound (acc : Taken s₀ e s) :
    Orderly s (accessRound g e) (Orderly.afterRound (Taken s₀) (Taken s₀)) := by
  refine .inspecting ?_
  split
  · rename_i at_
    refine .map (.spanned (.start fun inner => inner.advancing (open_of_eq at_ (by decide)) fun inner =>
      inner.bind (orderly_arguments h) fun args _ inner => .pure (.of_laid ?_ rfl)))
    refine acc.laid.spanned inner ?_ (Told.free rfl) rfl rfl rfl
    simp [Node.parts, List.filterMap_cons]
  · exact orderly_memberAccess acc
  · exact .map (.spanned (.start fun inner => inner.advancing (open_of_eq ‹_› (by decide)) fun inner =>
      inner.bind h.expr fun _ _ inner => inner.then_ (Orderly.expect (by decide)).any fun _ _ inner =>
        .pure (.of_laid (acc.laid.spanned inner rfl (Told.free rfl) rfl rfl rfl) rfl)))
  · exact .pure acc

theorem orderly_accessed : Orderly s (accessed g) (Taken s) :=
  (orderly_primary h).bind fun _ _ _ acc => .loop (fun _ _ acc => orderly_accessRound h acc) acc

theorem orderly_prefixed (open_ : s.kind ≠ .endOfFile) : Orderly s (prefixed g) (Taken s) := by
  refine .start fun acc => .inspecting (acc.advancing open_ fun acc => ?_)
  have inner (k : Kind) (s : State) : Orderly s (prefixOperand k g.operand) (Taken s) := by
    unfold prefixOperand
    split
    · exact orderly_binary h.operand notLevel
    · exact h.operand s
  exact acc.bind ((inner _ _).weaken fun _ _ acc => acc.laid) fun _ _ acc =>
    .pure (.of_laid (acc.union rfl (Told.free rfl) rfl rfl rfl) rfl)

theorem orderly_operand : Orderly s (operand g) (Taken s) := by
  refine .inspecting ?_
  split
  · rename_i isPrefix
    have inner := orderly_prefixed (s := s.atNesting (s.nesting + 1)) h (open_of isPrefix rfl)
    exact .nested (inner.weaken fun _ _ acc => acc.lift)
  · exact orderly_accessed h

theorem orderly_conditionalRest {test : Expr} (acc : Taken s₀ test s) :
    Orderly s (conditionalRest g test) (Taken s₀) := by
  refine .inspecting ?_
  split
  · exact acc.laid.then_ orderly_markUnsupported fun _ _ acc => acc.then_ .advance fun _ _ acc =>
      acc.bind h.expr fun _ _ acc => acc.then_ (Orderly.expect (by decide)).any fun _ _ acc =>
        acc.bind h.expr fun _ _ acc =>
          .pure (.of_laid (acc.union rfl (Told.free rfl) rfl rfl rfl) rfl)
  · exact .pure acc

theorem orderly_expression : Orderly s (expression g) (Taken s) := by
  have inner (s : State) : Orderly s (do
      let test ← binary (operand g) conditionalLevel
      conditionalRest g test) (Taken s) :=
    (orderly_binary (fun _ => orderly_operand h) conditionalLevel).bind fun _ _ _ acc =>
      orderly_conditionalRest h acc
  exact .nested ((inner _).weaken fun _ _ acc => acc.lift)

theorem orderly_assignedValue :
    Orderly s (assignedValue g) fun r s' => Laid s [.node (.expr r.2)] s' :=
  .start fun acc => .inspecting (acc.then_ .advance fun _ _ acc => acc.bind h.expr fun _ _ acc =>
    .pure acc)

theorem orderly_setStatement {target : Expr} (acc : Taken s₀ target s)
    (member : ∀ x, target ≠ .var x) :
    Orderly s (setStatement g target) fun st s' => Laid s₀ [.node (.stmt st)] s' := by
  unfold setStatement
  split
  · exact absurd rfl (member _)
  · exact acc.laid.bind (orderly_assignedValue h) fun _ _ acc => .pure (acc.assigned rfl rfl rfl)
  · exact acc.laid.bind (orderly_assignedValue h) fun _ _ acc => .pure (acc.assigned rfl rfl rfl)
  · exact .refusePast (.inr rfl) rfl

/- A lone name before an assignment operator is a target, and has been read as one. -/
theorem orderly_expressionStatement (other : s.atTarget = false) :
    Lays s (expressionStatement g) .stmt := by
  refine (orderly_operand h).bind fun left s' _ acc => .inspecting ?_
  split
  · rename_i assigns
    refine orderly_setStatement h acc ?_
    rintro x rfl
    rcases acc.alone rfl with ⟨rfl, -, named⟩ | ⟨-, never⟩
    · have word := named ⟨x, rfl⟩
      rw [State.atTarget, word, s.kindAt_one, assigns] at other
      cases other
    · rw [assigns] at never
      cases never
  split
  · rename_i steps
    have open_ := open_of (p := fun k => k = .plusPlus || k = .minusMinus) steps rfl
    exact .inspecting (acc.laid.advancing open_ fun acc =>
      .pure (acc.union rfl (Told.free rfl) rfl rfl rfl))
  split
  · have operands (p : Nat) (s : State) : Orderly s (binary (operand g) p) (Taken s) :=
      orderly_binary (fun _ => orderly_operand h) p
    exact (orderly_binaryRest operands _ acc).bind fun _ _ _ acc =>
      (orderly_conditionalRest h acc).bind fun _ _ _ acc => orderly_callStatement acc
  · exact orderly_callStatement acc

theorem orderly_printStatement (open_ : s.kind ≠ .endOfFile) : Lays s (printStatement g) .stmt := by
  have round (s : State) : Orderly s (printRound g) fun r s' =>
      Laid s ((r.getD []).flatMap fun item => (Node.ofItem? item).toList.map .node) s' := by
    refine .start fun acc => .inspecting ?_
    split
    · exact .pure acc
    split
    · exact acc.then_ .advance fun _ _ acc => .pure acc
    · exact acc.bind h.expr fun _ _ acc => .pure acc
  have listed (items : List (PrintItem Expr)) :
      (items.flatMap fun item => (Node.ofItem? item).toList.map Part.node) =
        (items.filterMap Node.ofItem?).map .node := by
    induction items with
    | nil => rfl
    | cons item items ih =>
      rw [List.flatMap_cons, ih, List.filterMap_cons]
      cases Node.ofItem? item <;> rfl
  refine .ranged (.start fun acc => acc.advancing open_ fun acc => acc.bind (.many round)
    fun items _ acc => .pure (acc.ranged ?_ (Told.free rfl) rfl rfl))
  simp [Node.parts, listed, List.filterMap_cons]

theorem orderly_returnStatement (open_ : s.kind ≠ .endOfFile) :
    Lays s (returnStatement g) .stmt := by
  refine .ranged (.start fun acc => acc.advancing open_ fun acc => .inspecting ?_)
  split
  · exact .pure_bind (.pure (acc.ranged rfl (Told.free rfl) rfl rfl))
  · exact .map_bind (acc.bind h.expr fun _ _ acc => .pure (acc.ranged rfl (Told.free rfl) rfl rfl))

theorem orderly_ifBranches {branches : Branches}
    (body : ∀ s, Lays s branches.body .block)
    (lastBody : ∀ s, Lays s branches.lastBody .block) :
    Orderly s (ifBranches g branches) fun r s' => Laid s ((.block r.1 ::
      (r.2.1.map .elseIf ++ r.2.2.toList.map .block)).map .node) s' := by
  have round (s : State) : LaysAll s (elseIfRound g branches) fun r => (r.getD []).map .elseIf := by
    refine .start fun acc => .inspecting ?_
    split
    · rename_i at_
      have open_ := open_of_eq (of_decide_eq_true at_) (by decide)
      have branch : Lays s (elseIf g branches) .elseIf :=
        .ranged (.start fun acc => acc.advancing open_ fun acc => acc.bind h.expr fun _ _ acc =>
          acc.then_ .accept fun _ _ acc => acc.bind (body _) fun _ _ acc =>
            .pure (acc.ranged rfl (Told.free rfl) rfl rfl))
      exact acc.bind branch fun _ _ acc => .pure acc
    · exact .pure acc
  refine .start fun acc => acc.bind (body s) fun _ _ acc => acc.bind (.many_map round)
    fun _ _ acc => acc.then_ .accept fun more _ acc => ?_
  cases more with
  | true => exact .map_bind (acc.bind (lastBody _) fun _ _ acc => .pure (by simpa using acc))
  | false => exact .pure_bind (.pure (by simpa using acc))

theorem orderly_inlineBlock : Lays s (inlineBlock g) .block := by
  refine .start fun acc => .inspecting (.bind (.loop
    (I := fun stmts s' => Laid s ((stmts.map .stmt).map .node) s') (fun stmts s' acc => ?_) acc)
      fun _ _ _ acc => .pure (Laid.block acc))
  refine acc.bind (h.statement _) fun st _ acc => acc.then_ .accept fun more s'' acc => ?_
  have acc : Laid s (((stmts ++ [st]).map .stmt).map .node) s'' := by simpa using acc
  cases more with
  | false => exact .pure acc
  | true =>
    refine .inspecting ?_
    split <;> exact .pure acc

theorem orderly_ifStatement (open_ : s.kind ≠ .endOfFile) : Lays s (ifStatement g) .stmt := by
  refine .ranged (.start fun acc => acc.advancing open_ fun acc => acc.bind h.expr
    fun condition _ acc => acc.then_ .accept fun _ s' acc => .inspecting ?_)
  have blocks : Orderly s' (blockIf g condition) fun make s' =>
      Laid s [.node (.stmt (make (s.spanTo s.range s')))] s' :=
    acc.bind (orderly_ifBranches h (fun _ => orderly_block h _) fun _ => orderly_block h _)
      fun r _ acc => acc.then_ (orderly_close _ _) fun _ _ acc =>
        .pure (acc.ranged (by simp [Node.parts, List.filterMap_cons]) (Told.free rfl) rfl rfl)
  split
  · exact blocks
  · exact acc.bind (.withCleanup (orderly_ifBranches h (fun _ => orderly_inlineBlock h) fun _ =>
      orderly_inlineBlock h) fun _ => .skipWhile) fun r _ acc =>
        .pure (acc.ranged (by simp [Node.parts, List.filterMap_cons]) (Told.free rfl) rfl rfl)

theorem orderly_whileStatement (open_ : s.kind ≠ .endOfFile) : Lays s (whileStatement g) .stmt :=
  .ranged (.start fun acc => acc.advancing open_ fun acc => acc.bind h.expr fun _ _ acc =>
    acc.bind (orderly_block h _) fun _ _ acc => acc.then_ (orderly_close _ _) fun _ _ acc =>
      .pure (acc.ranged rfl (Told.free rfl) rfl rfl))

theorem orderly_forStatement (open_ : s.kind ≠ .endOfFile) : Lays s (forStatement g) .stmt := by
  refine .ranged (.start fun acc => acc.advancing open_ fun acc => acc.then_ .accept
    fun each _ acc => ?_)
  cases each with
  | true =>
    refine acc.bind orderly_name fun item _ acc => .inspecting ?_
    split
    · exact acc.then_ .advance fun _ _ acc => acc.bind h.expr fun _ _ acc =>
        acc.bind (orderly_block h _) fun _ _ acc => acc.then_ orderly_closeFor fun _ _ acc =>
          .pure (acc.ranged rfl (acc.binds (by simp)) rfl rfl)
    · exact .refuse (.inr ⟨.inl rfl, rfl⟩) rfl
  | false =>
    refine acc.bind orderly_name fun counter _ acc => acc.then_ (Orderly.expect (by decide)).any
      fun _ _ acc => acc.bind h.expr fun _ _ acc => acc.then_ (Orderly.expect (by decide)).any
        fun _ _ acc => acc.bind h.expr fun _ _ acc => acc.then_ .accept fun stepped _ acc => ?_
    cases stepped with
    | true =>
      exact .map_bind (acc.bind h.expr fun _ _ acc => acc.bind (orderly_block h _) fun _ _ acc =>
        acc.then_ orderly_closeFor fun _ _ acc => .pure (acc.ranged rfl (acc.binds (by simp)) rfl rfl))
    | false =>
      exact .pure_bind (acc.bind (orderly_block h _) fun _ _ acc =>
        acc.then_ orderly_closeFor fun _ _ acc => .pure (acc.ranged rfl (acc.binds (by simp)) rfl rfl))

theorem orderly_functionDeclaration (open_ : s.kind ≠ .endOfFile) :
    Lays s (functionDeclaration g) .stmt :=
  .start fun acc => .inspecting (acc.advancing open_ fun acc => acc.bind orderly_name fun _ _ acc =>
    (orderly_functionRest h _ acc rfl rfl).bind fun _ _ leads laid =>
      .pure (laid.same rfl ((acc.skip leads).binds (by simp)) rfl))

theorem orderly_statementBody : Lays s (statementBody g) .stmt := by
  refine .start fun acc => .inspecting ?_
  split
  · exact acc.bind orderly_name fun _ _ acc => acc.bind (orderly_assignedValue h) fun _ _ acc =>
      .pure (acc.union rfl (acc.binds (by simp)) rfl rfl rfl)
  rename_i other
  refine .inspecting ?_
  split
  · rename_i label
    have open_ : s.kind ≠ .endOfFile := by
      intro file
      simp [State.atLabel, file] at label
    exact acc.bind (orderly_takeIdent open_) fun _ _ acc => acc.then_ .advance fun _ _ acc =>
      .pure (acc.same rfl (Told.free rfl) rfl)
  refine .inspecting ?_
  have keyword {stmt : Range → Stmt} (open_ : s.kind ≠ .endOfFile)
      (kids : (Node.stmt (stmt s.range)).parts = []) (free : (Node.stmt (stmt s.range)).binds? = none)
      (range : (stmt s.range).range = s.range) :
      Lays s (keywordStatement stmt) .stmt :=
    .inspecting (acc.advancing open_ fun acc => .pure (acc.same kids (by simp [free])
      (congrArg ([·]) range.symm)))
  unfold byKeyword
  split
  · exact orderly_ifStatement h (open_of_eq ‹_› (by decide))
  · exact orderly_whileStatement h (open_of_eq ‹_› (by decide))
  · exact orderly_forStatement h (open_of_eq ‹_› (by decide))
  · exact orderly_functionDeclaration h (open_of_eq ‹_› (by decide))
  · exact orderly_functionDeclaration h (open_of_eq ‹_› (by decide))
  · exact orderly_returnStatement h (open_of_eq ‹_› (by decide))
  · exact orderly_printStatement h (open_of_eq ‹_› (by decide))
  · exact orderly_printStatement h (open_of_eq ‹_› (by decide))
  · exact .inspecting (acc.advancing (open_of_eq ‹_› (by decide)) fun acc =>
      acc.bind orderly_name fun _ _ acc => .pure (acc.union rfl (acc.binds (by simp)) rfl rfl rfl))
  iterate 4
    exact keyword (open_of_eq ‹_› (by decide)) rfl rfl rfl
  split
  · exact .refusePast (.inr rfl) rfl
  · exact orderly_expressionStatement h (by simpa using other)

end

theorem orderlyGrammar_unroll (n : Nat) : OrderlyGrammar (unroll n) := by
  induction n with
  | zero => exact ⟨fun _ => .tooDeep, fun _ => .tooDeep, fun _ => .tooDeep⟩
  | succ n ih =>
    exact ⟨fun _ => orderly_expression ih, fun _ => orderly_operand ih, fun _ => .nested (.droppable
      ((orderly_statementBody ih).weaken fun _ _ laid => laid.like rfl rfl))⟩

theorem State.sound_start (mode : Mode) {tokens : List Token} (h : Ordered tokens) :
    (State.start mode tokens).Sound := by
  refine ⟨h, fun t mem => ?_⟩
  change t.range.stop ≤ (tokens.getLast?.map (·.range.stop)).getD .origin
  rcases List.eq_nil_or_concat tokens with rfl | ⟨front, last, rfl⟩
  · cases mem
  · change t ∈ front.concat last at mem
    simp only [List.concat_eq_append, List.getLast?_concat, Option.map_some, Option.getD_some]
    rw [List.concat_eq_append] at h mem
    rcases List.mem_append.mp mem with before | final
    · refine le_trans ((List.pairwise_append.mp h.sorted).2.2 t before last (by simp)) ?_
      exact h.proper last (by simp)
    · rw [List.mem_singleton.mp final]

/-- The state in which a parse ends. -/
def State.final (mode : Mode) (tokens : List Token) : State :=
  ((statements grammar []).run (.start mode tokens)).2

theorem follows_parse (mode : Mode) {tokens : List Token} (h : Ordered tokens) :
    (State.start mode tokens).Follows ((statements grammar []).members (.start mode tokens))
      (.final mode tokens) :=
  (orderly_statements (orderlyGrammar_unroll _) [] (State.sound_start mode h)).1

theorem laid_parse (mode : Mode) {tokens : List Token} (h : Ordered tokens) :
    Laid (.start mode tokens) (((parse mode tokens).statements.map .stmt).map .node)
      (.final mode tokens) := by
  have sound := State.sound_start mode h
  have result := (orderly_statements (orderlyGrammar_unroll (maxNesting + 1)) [] sound).2
  have leads := ((statements grammar []).advances (.start mode tokens)).leads
  unfold parse State.final
  cases eq : (statements grammar []).run (.start mode tokens) with
  | mk r s =>
    rw [eq] at leads
    cases r with
    | none => exact .nil sound leads
    | some stmts => exact result stmts s eq

end Parser

/-- Reports come in the order of the text, except that a missing call is told at the start of its
expression and a required parameter at its name, once each has been read to its end. -/
theorem parse_reports_inTurn (mode : Mode) (source : String) :
    (parse mode (scan source).tokens).diagnostics.Pairwise fun d d' =>
      d.range.start ≤ d'.range.start ∨ d'.code = 1025 ∨ d'.code = 1063 := by
  obtain ⟨⟨new, added, turn, -⟩, -⟩ := Parser.follows_parse mode (ordered_scan source)
  have all : (parse mode (scan source).tokens).diagnostics = [] ++ new := added
  rw [all]
  exact turn.imp And.left

/- A missing call behind a dropped point, and a required parameter behind an unknown type. -/
theorem parse_reports_late :
    ¬ (parse .brightScript (scan "a.\n").tokens).diagnostics.Pairwise
        (fun d d' => d.range.start ≤ d'.range.start) ∧
      ¬ (parse .brightScript (scan "sub f(a = 1, b as foo)\nend sub").tokens).diagnostics.Pairwise
        (fun d d' => d.range.start ≤ d'.range.start) := by
  decide +kernel

end BrightScript
