import BrightScript.Proofs.Copy.Statement
import BrightScript.Proofs.Token.Faithful

/-! Copies of whole expressions.
An expression is an operator tree or a conditional. In place of a conditional a call is written,
of one of the two helper functions, and what the call is made of besides the operands is not in
the source: an object with the captured variables, and functions that bind them again. -/
namespace BrightScript

open BrightScript.Parser BrightScript.Emit

variable {c : Setting} {g : Grammar} {room : Nat} {e : Expr} {w ws : List Word} {k : Kind}
  {xs : List Ident} {s : State} {P : Expr → Prop} {scope : Scope} {x : Ident}

theorem Kind.not_prolongs_of_stops (h : k.stops = true) : k.prolongs = false := by
  rw [Kind.stops, Bool.and_eq_true, Bool.not_eq_true'] at h
  exact h.1

theorem Follow.not_prolongs (follow : Follow k w) (done : k.prolongs = false) :
    (Word.next w).prolongs = false := by
  rcases follow with same | stops
  · rwa [same]
  · exact Kind.not_prolongs_of_stops stops

theorem Kind.ne_of_not_prolongs (h : k.prolongs = false) (k' : Kind) (other : k'.prolongs = true) :
    k ≠ k' := by
  rintro rfl
  rw [h] at other
  cases other

theorem Parser.Yields.conditionalRest_none {test : Expr} (other : Word.next w ≠ .questionMark) :
    Yields (conditionalRest g test) room w w (· = test) := by
  refine Yields.isAt.bind fun b hb => ?_
  obtain rfl : b = false := by simp [hb, other]
  exact .pure rfl

theorem Parser.Yields.expression (h : Yields (binary (operand g) conditionalLevel) room ws w P)
    (other : Word.next w ≠ .questionMark) : Yields (Parser.expression g) (room + 1) ws w P := by
  refine Yields.nested (h.bind fun test holds => ?_)
  refine (Yields.conditionalRest_none other).mono fun e same => ?_
  rw [same]
  exact holds

theorem not_exact_of_markUnsupported (sound : Sound c s) (mark : Reads markUnsupported s () s) :
    ¬ c.exact := by
  intro exact
  obtain ⟨same, _⟩ := reads_update.mp mark
  have quiet := congrArg State.diagnostics same
  simp only [State.markUnsupported, sound.mode exact, sound.unmarked] at quiet
  exact s.report_ne _ _ quiet

theorem binary_copied (h : Recovers c g) {s' : State}
    (run : Reads (binary (operand g) conditionalLevel) s e s') (sound : Sound c s) :
    e.isConditional = false ∧
      Copied c (fun m => binary (Parser.operand (unroll m)) conditionalLevel) (e.fits c.options) e
        s s' := by
  refine binaryFrom_copied (fun sound read => ?_) _ run sound
  have copy := operand_copied h read sound
  exact ⟨Expr.isConditional_of_isOperand copy.operand, copy.copied⟩

theorem Copied.tree {t : State} (shallow : s.nesting < maxNesting)
    (copy : Copied c (fun m => binary (Parser.operand (unroll m)) conditionalLevel)
      (e.fits c.options) e (s.atNesting (s.nesting + 1)) t) :
    (c.exact → deeper (e.fits c.options) (maxNesting - s.nesting) = true) ∧
      ∀ level room, deeper (e.fits c.options) room = true →
        ∃ ws, Spelled c level e s.token t.token ws ∧
          ∀ m w, room ≤ m → Follow t.kind w → Word.next w ≠ .questionMark →
            Yields (unroll m).expression room (ws ++ w) w (Echo c e) := by
  refine ⟨fun exact => ?_, fun level room fits => ?_⟩
  · have room : maxNesting - s.nesting = maxNesting - (s.nesting + 1) + 1 := by omega
    rw [room]
    exact copy.fits exact
  · obtain ⟨less, rfl, fits⟩ := deeper_eq_true.mp fits
    obtain ⟨ws, spelled, yields⟩ := copy.written level less fits
    refine ⟨ws, spelled, fun m w le follow other => ?_⟩
    obtain ⟨m, rfl⟩ : ∃ n, m = n + 1 := ⟨m - 1, by omega⟩
    exact Yields.expression (yields m w (by omega) follow) other

theorem accessed_ends {s' : State} (run : Reads (accessed g) s e s') :
    s'.kind.accesses = false := by
  obtain ⟨first, t, _, rest⟩ := run.accessed_inv
  refine Reads.loop_induction (motive := fun _ _ => s'.kind.accesses = false) ?_
    (fun _ _ _ _ _ _ _ ih => ih) rest
  intro x u round
  obtain ⟨_, _, _, ⟨⟩, _⟩ | ⟨_, _, _, _, ⟨⟩⟩ | ⟨_, _, _, _, ⟨⟩, _⟩ | ⟨call, dot, index, _, rfl⟩ :=
    round.accessRound_inv
  simp [Kind.accesses, call, dot, index]

theorem binaryFrom_ends {p : Parser Expr}
    (ends : ∀ {s e s'}, Reads p s e s' → s'.kind.accesses = false) (depth : Nat) :
    ∀ {level : Nat} {e : Expr} {s s' : State}, Reads (binaryFrom p depth level) s e s' →
      s'.kind.accesses = false ∧
        (0 < depth → ∀ q, s'.kind.precedence? = some q → ¬ level < q) := by
  induction depth with
  | zero => exact fun run => ⟨ends run, fun pos => by omega⟩
  | succ depth ih =>
    intro level e s s' run
    obtain ⟨first, t, read, rest⟩ := run.binaryFrom_succ_inv
    have all := Reads.loop_induction (motive := fun _ u => u.kind.accesses = false →
      s'.kind.accesses = false ∧ ∀ q, s'.kind.precedence? = some q → ¬ level < q) ?_ ?_ rest
    · exact ⟨(all (ends read)).1, fun _ => (all (ends read)).2⟩
    · intro x u round accesses
      obtain ⟨_, _, _, _, _, _, ⟨⟩⟩ | ⟨done, _, rfl⟩ := round.binaryRound_inv
      exact ⟨accesses, done⟩
    · intro x u next v round _ _ go _
      obtain ⟨_, _, _, _, _, read, _⟩ | ⟨_, ⟨⟩, _⟩ := round.binaryRound_inv
      exact go (ih read).1

theorem operand_ends (h : Recovers c g) {s' : State} (run : Reads (operand g) s e s') :
    s'.kind.accesses = false := by
  rcases run.operand_inv with ⟨_, _, inner, range, t, _, read, rfl⟩ | ⟨_, read⟩
  · rw [State.kind_atNesting]
    unfold prefixOperand at read
    split at read
    · exact (binaryFrom_ends h.operandEnds _ read).1
    · exact h.operandEnds read
  · exact accessed_ends read

theorem expression_ends (h : Recovers c g) {s' : State} (run : Reads (expression g) s e s') :
    s'.kind.prolongs = false := by
  obtain ⟨_, test, t, u, read, rest, rfl⟩ := run.expression_inv
  rw [State.kind_atNesting]
  rcases rest.conditionalRest_inv with ⟨_, _, _, _, _, v, _, _, _, last⟩ | ⟨other, _, rfl⟩
  · exact h.expressionEnds last
  · obtain ⟨accesses, operators⟩ := binaryFrom_ends (operand_ends h) _ read
    have none : u.kind.precedence?.isSome = false := by
      cases binds : u.kind.precedence? with
      | none => rfl
      | some p => exact absurd (Reads.conditionalLevel_lt binds) (operators (by decide) p binds)
    simp [Kind.prolongs, accesses, none, other]

theorem Kind.accesses_of_not_prolongs (h : k.prolongs = false) :
    k.accesses = false ∧ k.precedence? = none ∧ k ≠ .questionMark := by
  simpa [Kind.prolongs, and_assoc] using h

theorem Parser.Yields.accessed_stop (ends : (Word.next w).accesses = false) :
    Yields (accessRound g e) room w w (· = .done e) := by
  simp only [Kind.accesses, Bool.or_eq_false_iff, decide_eq_false_iff_not] at ends
  exact .accessRound_stop (.of_eq rfl) ⟨ends.1.1, ends.2, ends.1.2⟩

/-- An operand without an operator before or after it. -/
theorem Parser.Yields.lone (h : Yields (accessed g) room ws w P)
    (plain : isPrefixOperator (Word.next ws) = false) (ends : (Word.next w).prolongs = false) :
    Yields (Parser.expression g) (room + 1) ws w P := by
  obtain ⟨_, operator, other⟩ := Kind.accesses_of_not_prolongs ends
  refine Yields.expression ?_ other
  have operand : Yields (Parser.operand g) room ws w P := by
    refine Yields.kind.bind fun k hk => ?_
    rw [hk, plain]
    exact h
  refine operand.bind fun e holds => Yields.loop_done ?_
  refine (Yields.binaryRound_stop (.of_eq rfl) fun p binds => ?_).mono fun r done => ⟨e, done, holds⟩
  rw [operator] at binds
  cases binds

theorem Parser.Yields.lonePrimary (h : Yields (Parser.primary g) room ws w P)
    (plain : isPrefixOperator (Word.next ws) = false) (ends : (Word.next w).prolongs = false) :
    Yields (Parser.expression g) (room + 1) ws w P :=
  Yields.lone (h.bind fun e holds => Yields.loop_done
    ((Yields.accessed_stop (Kind.accesses_of_not_prolongs ends).1).mono fun _ done =>
      ⟨e, done, holds⟩)) plain ends

theorem Parser.Yields.primary_name {x : Word} (name : x.kind = .identifier) :
    Yields (Parser.primary g) room (x :: w) w fun e => e = .var ⟨x.text, e.range⟩ := by
  refine Yields.token.bind fun t ht => ?_
  have kind : t.kind = .identifier := by rw [← Token.kind_word, ht, name]
  rw [kind]
  refine Yields.takeIdent.map fun id same => ?_
  rw [← same]
  rfl

theorem name_argument (c : Setting) {name : String} (isName : IsName name) (room : Nat) :
    ∃ v, Argument c name.toList (room + 1) (fun _ => True) [⟨.identifier, name, v⟩] := by
  obtain ⟨v, genuine⟩ := isName
  refine ⟨v, .word genuine, rfl, fun _ => rfl, fun m w le stops => ?_⟩
  obtain ⟨m, rfl⟩ : ∃ n, m = n + 1 := ⟨m - 1, by omega⟩
  rw [List.singleton_append]
  exact (Yields.lonePrimary (Yields.primary_name rfl) rfl (Kind.not_prolongs_of_stops stops)).mono
    fun _ _ => trivial

theorem Parser.Yields.namedCall {x : Word} {Q : List Expr → Prop} (name : x.kind = .identifier)
    (args : Yields (arguments g) room (ws ++ w) w Q) (ends : (Word.next w).prolongs = false) :
    Yields (Parser.expression g) (room + 1) (x :: .mark .leftParen :: (ws ++ w)) w
      (·.outline = .call) := by
  refine Yields.lone ((Yields.primary_name name).bind fun e _ => ?_)
    (by simp [name, isPrefixOperator]) ends
  refine Yields.loop_again (v := w) (Q := fun e => e.outline = .call) ?_ ?_
    fun e' outline => Yields.loop_done ?_
  · refine Yields.kind.bind fun k hk => ?_
    subst hk
    refine Yields.map (P := fun x => x.outline = .call) ?_ fun x hx => ⟨x, rfl, hx⟩
    exact Yields.spanned (Yields.advance.bind fun _ _ => args.bind fun _ _ => .pure fun _ => rfl)
  · simp only [List.length_cons, List.length_append]
    omega
  · exact (Yields.accessed_stop (Kind.accesses_of_not_prolongs ends).1).mono fun r done =>
      ⟨e', done, outline⟩

theorem Spelled.helperCall {level : Nat} {e : Expr} {first next : Token} {name : String}
    {text : List Char} {ws : List Word} (conditional : e.isConditional = true)
    (genuine : (⟨.identifier, name, none⟩ : Word).Genuine)
    (pieces : c.text (exprPieces c.options level e) = name.toList ++ ("(".toList ++ text))
    (tail : Continues c.layout .leftParen text ws) (last : ∀ k, Word.last k ws = .rightParen) :
    Spelled c level e first next (⟨.identifier, name, none⟩ :: .mark .leftParen :: ws) := by
  refine .of_word genuine (.inr rfl) pieces ?_ rfl (fun _ => ⟨rfl, by simp⟩) ?_ ?_ ?_ ?_ ?_
  · exact (Continues.mark .leftParen rfl genuine.code).append tail
  · rw [Word.last_cons, last]
    rfl
  · intro plain
    rw [plain] at conditional
    cases conditional
  · intro _
    rw [Word.last_cons, last]
  · intro point
    rw [genuine.isPoint_eq_false rfl] at point
    cases point
  · cases e <;> first | rfl | cases conditional

namespace Scope

theorem mem_idents_foldl (mem : x ∈ (xs.foldl insert scope).idents) :
    x ∈ scope.idents ∨ x ∈ xs := by
  induction xs generalizing scope with
  | nil => exact .inl mem
  | cons y rest ih =>
    rcases ih mem with mem | mem
    · unfold insert at mem
      split at mem
      · exact .inl mem
      · simp only [idents, List.map_append, List.map_cons, List.map_nil, List.mem_append,
          List.mem_singleton] at mem
        rcases mem with mem | rfl
        · exact .inl mem
        · exact .inr List.mem_cons_self
    · exact .inr (List.mem_cons_of_mem _ mem)

theorem mem_idents_collect {es : List Expr} (mem : x ∈ (collect es).idents) :
    x ∈ exprsOccurrences es := by
  rw [collect, exprsCaptures_eq_foldl] at mem
  exact (mem_idents_foldl mem).resolve_left (by simp [idents])

end Scope

theorem IsName.feed_not_mem {name : String} (h : IsName name) : '\n' ∉ name.toList := by
  obtain ⟨v, genuine⟩ := h
  exact genuine.feed_not_mem rfl

theorem Parser.Yields.memberKey_quote {value text : String} :
    Yields memberKey room (⟨.stringLiteral, text, some (.string value)⟩ :: w) w
      (· = (value, true)) := by
  refine Yields.kind.bind fun k hk => ?_
  have kind : k = .stringLiteral := hk
  rw [if_pos kind]
  refine Yields.member.bind fun t ht => ?_
  have holds : t.value = some (.string value) := by rw [← Token.value_word, ht]
  simp only [holds]
  exact .pure rfl

theorem captured_members (c : Setting) (level room : Nat) (names : ∀ x ∈ xs, IsName x.name) :
    ∃ ws, Members c (c.text (xs.flatMap fun x =>
      [.line level, .text (quote x.name), .text ": ", .text x.name])) (room + 1)
      (fun _ => True) ws := by
  induction xs with
  | nil => exact ⟨[], .nil trivial⟩
  | cons x xs ih =>
    obtain ⟨ws, rest⟩ := ih fun y mem => names y (List.mem_cons_of_mem _ mem)
    have isName := names x List.mem_cons_self
    obtain ⟨v, value⟩ := name_argument c isName room
    have members := Members.property level (Word.genuine_quote isName.feed_not_mem) (.inr rfl)
      (fun _ _ => .memberKey_quote) value rest
    have text : c.text ((x :: xs).flatMap fun x =>
        [.line level, .text (quote x.name), .text ": ", .text x.name]) =
        ((Piece.line level).render c.layout).toList ++ ((quote x.name).toList ++ (":".toList ++
          (' ' :: x.name.toList ++ c.text (xs.flatMap fun x =>
            [.line level, .text (quote x.name), .text ": ", .text x.name])))) := by
      have colon : ": ".toList = ":".toList ++ [' '] := rfl
      simp [Piece.render, colon]
    rw [text]
    exact ⟨_, members.starts, members.continues, fun m w le =>
      (members.yields m w le).mono fun _ _ => trivial⟩

theorem scope_argument (c : Setting) (level room : Nat)
    (names : ∀ x ∈ scope.idents, IsName x.name) :
    ∃ ws, Argument c (c.text (scopePieces level scope)) (room + 2) (fun _ => True) ws := by
  cases empty : scope.isEmpty with
  | true =>
    have text : c.text (scopePieces level scope) = "\x7b".toList ++ "\x7d".toList := by
      simp [scopePieces, empty, Piece.render]
    refine ⟨[.mark .leftCurly, .mark .rightCurly], ?_, rfl, fun _ => rfl, fun m w le stops => ?_⟩
    · rw [text]
      exact (Phrase.mark (k := .leftCurly) rfl).append fun _ =>
        .mark .rightCurly rfl (show Kind.leftCurly ≠ .comment by decide)
    · obtain ⟨m, rfl⟩ : ∃ n, m = n + 1 := ⟨m - 1, by omega⟩
      simp only [List.cons_append, List.nil_append]
      refine Yields.lonePrimary (Yields.primary (q := assocLiteral _) ?_
        (.inr (.inr (.inl ⟨rfl, rfl⟩)))) rfl (Kind.not_prolongs_of_stops stops)
      exact Yields.ranged (Yields.advance.bind fun _ _ => Yields.members_nil.bind fun _ _ =>
        (Yields.expect rfl).bind fun _ _ => .pure fun _ => trivial)
  | false =>
    obtain ⟨ws, members⟩ := captured_members c (level + 1) room names
    have text : c.text (scopePieces level scope) =
        "\x7b".toList ++ (c.text (scope.idents.flatMap fun x =>
          [.line (level + 1), .text (quote x.name), .text ": ", .text x.name]) ++
            (((Piece.line level).render c.layout).toList ++ "\x7d".toList)) := by
      simp [scopePieces, empty, Piece.render]
    refine ⟨.mark .leftCurly :: (ws ++ [.newline, .mark .rightCurly]), ?_, rfl, fun _ => by simp; rfl,
      fun m w le stops => ?_⟩
    · rw [text]
      exact (Phrase.mark (k := .leftCurly) rfl).append fun _ => (members.continues _).append
        ((Continues.line c.plain level).append
          (.mark .rightCurly rfl (show Kind.newline ≠ .comment by decide)))
    · obtain ⟨m, rfl⟩ : ∃ n, m = n + 1 := ⟨m - 1, by omega⟩
      simp only [List.cons_append, List.append_assoc, List.nil_append]
      refine Yields.lonePrimary (Yields.primary (q := assocLiteral _) ?_
        (.inr (.inr (.inl ⟨rfl, rfl⟩)))) rfl (Kind.not_prolongs_of_stops stops)
      exact Yields.ranged (Yields.advance.bind fun _ _ =>
        (members.yields m w (by omega)).bind fun _ _ => (Yields.expect rfl).bind fun _ _ =>
          .pure fun _ => trivial)

def scopeWord : Word := ⟨.identifier, "scope", none⟩

theorem genuine_scopeWord : scopeWord.Genuine := .of_readsBack (by decide +kernel) (by decide)

theorem isReserved_scopeWord : isReserved scopeWord.text = false := by decide +kernel

theorem Parser.Yields.variableMember {x y : Word} (name : x.kind = .identifier)
    (word : y.kind.isWord = true) (ends : (Word.next w).prolongs = false) :
    Yields (Parser.expression g) (room + 1) (x :: .mark .dot :: y :: w) w fun _ => True := by
  refine Yields.lone ((Yields.primary_name name).bind fun e _ => ?_)
    (by simp [name, isPrefixOperator]) ends
  refine Yields.loop_again (v := w) (Q := fun _ => True) ?_ (by simp only [List.length_cons]; omega)
    fun e' _ => Yields.loop_done ?_
  · refine (Yields.accessRound_member word).mono ?_
    rintro _ ⟨_, _, _, rfl⟩
    exact ⟨_, rfl, trivial⟩
  · exact (Yields.accessed_stop (Kind.accesses_of_not_prolongs ends).1).mono fun r done =>
      ⟨e', done, trivial⟩

def Emit.rebindLines (level : Nat) (xs : List Ident) : List Piece :=
  xs.flatMap fun x => [.line level, .text x.name, .text " = scope.", .text x.name]

theorem Emit.chars_rebindLines (l : Layout) (level : Nat) (x : Ident) (xs : List Ident) :
    chars l (rebindLines level (x :: xs)) = ((Piece.line level).render l).toList ++
      (x.name.toList ++ ((' ' :: Kind.equal.label.toList) ++ ((' ' :: scopeWord.text.toList) ++
        ((".".toList ++ x.name.toList) ++ chars l (rebindLines level xs))))) := by
  have middle : " = scope.".toList = ' ' :: Kind.equal.label.toList ++
      ' ' :: scopeWord.text.toList ++ ".".toList := by decide +kernel
  simp [rebindLines, Piece.render, middle]

theorem rebind_written (different : ¬ c.exact) (level : Nat) (names : ∀ x ∈ xs, IsName x.name)
    (free : ∀ x ∈ xs, isReserved x.name = false) :
    ∃ ws, (∀ k, Continues c.layout k (c.text (rebindLines level xs)) ws) ∧
      (∀ v, Word.next v = .newline → Word.next (ws ++ v) = .newline) ∧
      ∀ m room closers w v all, 2 ≤ room → room ≤ m → Word.next v = .newline →
        Entries c (unroll m).statement room closers w v all →
        ∃ all', Entries c (unroll m).statement room closers w (ws ++ v) all' := by
  induction xs with
  | nil =>
    exact ⟨[], fun _ => .nil, fun _ line => line,
      fun _ _ _ _ _ all _ _ _ entries => ⟨all, entries⟩⟩
  | cons x xs ih =>
    obtain ⟨ws, continues, line, entries⟩ := ih (fun y mem => names y (List.mem_cons_of_mem _ mem))
      fun y mem => free y (List.mem_cons_of_mem _ mem)
    obtain ⟨value, genuine⟩ := names x List.mem_cons_self
    refine ⟨.newline :: ([⟨.identifier, x.name, value⟩, .mark .equal, scopeWord, .mark .dot,
      ⟨.identifier, x.name, value⟩] ++ ws), fun k => ?_, fun _ _ => rfl, ?_⟩
    · rw [Setting.text, chars_rebindLines]
      exact (Continues.line c.plain level).append (((Phrase.word genuine).after_mark rfl rfl).append
        ((Continues.spaced_mark .equal rfl genuine.code).append
          (((Phrase.word genuine_scopeWord).after_loose rfl).append
            ((Continues.member rfl genuine rfl).append (continues _)))))
    · intro m room closers w v all two le newline rest
      obtain ⟨all', rest⟩ := entries m room closers w v all two le newline rest
      obtain ⟨m, rfl⟩ : ∃ n, m = n + 2 := ⟨m - 2, by omega⟩
      obtain ⟨room, rfl⟩ : ∃ n, room = n + 2 := ⟨room - 2, by omega⟩
      have next := line v newline
      have assigns : Yields (unroll (m + 2)).statement (room + 2)
          ([⟨.identifier, x.name, value⟩, .mark .equal, scopeWord, .mark .dot,
            ⟨.identifier, x.name, value⟩] ++ (ws ++ v)) (ws ++ v) (StmtEcho c (.stop .nowhere)) := by
        simp only [List.cons_append, List.nil_append]
        refine Yields.nested (Yields.droppable ((Yields.assignment rfl (free x List.mem_cons_self)
          rfl (Yields.variableMember rfl rfl (by rw [next]; rfl))).mono ?_))
        rintro _ ⟨_, _, _, rfl, _⟩
        exact ⟨rfl, fun exact => absurd exact different⟩
      rw [List.cons_append, List.append_assoc]
      exact ⟨_, .newline (.statement (by simp) rfl (by rw [next]; rfl) assigns rest)⟩

theorem Parser.Yields.scopeParameter :
    Yields (parameters g) room (scopeWord :: .mark .rightParen :: w) w fun _ => True := by
  have parameter : Yields (Parser.parameter g) room (scopeWord :: .mark .rightParen :: w)
      (.mark .rightParen :: w)
      fun p => p.isRequired =
        (⟨⟨"scope", .nowhere⟩, .dynamic, none, .nowhere⟩ : Parameter Expr).isRequired ∧ True := by
    refine Yields.ranged ((Yields.declaredName rfl isReserved_scopeWord).bind fun _ _ =>
      (Yields.accept_of_ne (by simp)).bind fun b hb => ?_)
    subst hb
    refine (Yields.pure rfl).bind fun fallback same => (Yields.asType_none (by simp)).bind
      fun _ _ => ?_
    subst same
    exact (Yields.pure (P := fun _ => True) trivial).bind fun _ _ => .pure fun _ => ⟨rfl, trivial⟩
  have round : Yields (Parser.parameterRound g ([], false)) room _ (.mark .rightParen :: w) _ :=
    Yields.parameterRound parameter rfl (Yields.accept_of_ne (by simp))
  refine Yields.isAt.bind fun b hb => ?_
  obtain rfl : b = false := hb
  refine Yields.bind (P := fun _ => True) (Yields.loop_done (round.mono ?_)) fun _ _ =>
    (Yields.expect rfl).bind fun _ _ => .pure trivial
  rintro _ ⟨p, _, rfl⟩
  exact ⟨_, rfl, trivial⟩

theorem Parser.Yields.scopeFunction {m : Nat} {all : List Stmt}
    (body : Entries c (unroll (m + 1)).statement (room + 2) functionClosers
      (.mark .endFunction :: w) ws all) (line : Word.next ws = .newline)
    (stops : (Word.next w).stops = true) :
    Yields (unroll (m + 2)).expression (room + 3)
      (.mark .function :: .mark .leftParen :: scopeWord :: .mark .rightParen :: ws) w
      fun _ => True := by
  refine Yields.lonePrimary (Yields.primary (q := anonymousFunction _) ?_
    (.inr (.inr (.inr ⟨.inl rfl, rfl⟩)))) rfl (Kind.not_prolongs_of_stops stops)
  refine Yields.token.bind fun t ht => Yields.advance.bind fun _ _ => ?_
  have isSub : decide (t.kind = .sub) = false := by
    rw [← Token.kind_word, ht]
    rfl
  rw [isSub]
  refine Yields.bind (P := fun _ => True) (Yields.spanned ((Yields.expect rfl).bind fun _ _ =>
    Yields.scopeParameter.bind fun _ _ => (Yields.asType_none (by rw [line]; decide)).bind
      fun _ _ => ?_)) fun _ _ => .pure trivial
  exact (body.block (by decide) (by rw [line]; rfl)).inFunction.bind fun _ _ =>
    Yields.closeFunction.bind fun _ _ => .pure fun _ => trivial

theorem Emit.chars_branchPieces (l : Layout) (level : Nat) (lines value : List Piece) :
    chars l (branchPieces level lines value) = Kind.function.label.toList ++ ("(".toList ++
      (scopeWord.text.toList ++ (")".toList ++ (chars l lines ++
        ((((Piece.line (level + 1)).render l).toList ++ Kind.return_.label.toList) ++
          ((' ' :: chars l value) ++
            (((Piece.line level).render l).toList ++ Kind.endFunction.label.toList))))))) := by
  have header : "function(scope)".toList = Kind.function.label.toList ++ ("(".toList ++
      (scopeWord.text.toList ++ ")".toList)) := by decide +kernel
  have returns : "return ".toList = Kind.return_.label.toList ++ [' '] := by decide +kernel
  have closer : Kind.endFunction.label = "end function" := rfl
  simp [branchPieces, Piece.render, header, returns, closer]

theorem branch_argument (different : ¬ c.exact) {s' : State}
    (copy : Copied c (fun m => (unroll m).expression) (deeper (e.fits c.options)) e s s')
    (level : Nat) (names : ∀ x ∈ xs, IsName x.name) (free : ∀ x ∈ xs, isReserved x.name = false)
    (fits : deeper (deeper (deeper (e.fits c.options))) room = true) :
    ∃ ws, Argument c (c.text (branchPieces level (rebindLines (level + 1) xs)
      (exprPieces c.options (level + 1) e))) room (fun _ => True) ws := by
  obtain ⟨_, rfl, inFunction⟩ := deeper_eq_true.mp fits
  obtain ⟨_, rfl, inStatement⟩ := deeper_eq_true.mp inFunction
  obtain ⟨room, rfl, _⟩ := deeper_eq_true.mp inStatement
  obtain ⟨ws, value⟩ := copy.argument (level + 1) inStatement
  obtain ⟨ws', continues, line, entries⟩ := rebind_written different (level + 1) names free
  refine ⟨.mark .function :: .mark .leftParen :: scopeWord :: .mark .rightParen ::
    (ws' ++ .newline :: .mark .return_ :: (ws ++ [.newline, .mark .endFunction])), ?_, rfl,
    fun _ => by simp; rfl, fun m w le stops => ?_⟩
  · rw [Setting.text, chars_branchPieces]
    exact (Phrase.mark (k := .function) rfl).append fun _ =>
      (Continues.mark .leftParen rfl (show Kind.function ≠ .comment by decide)).append
        (((Phrase.word genuine_scopeWord).after_mark rfl rfl).append
          ((Continues.mark .rightParen rfl genuine_scopeWord.code).append
            ((continues _).append (((Continues.line c.plain (level + 1)).append
              ((Phrase.mark (k := .return_) rfl).after_mark rfl rfl)).append
                ((value.phrase.after_loose rfl).append ((Continues.line c.plain level).append
                  ((Phrase.mark (k := .endFunction) rfl).after_mark rfl rfl)))))))
  · obtain ⟨m, rfl⟩ : ∃ n, m = n + 2 := ⟨m - 2, by omega⟩
    have plain : (Word.next w).isAssignment = false := by
      rw [Kind.stops, Bool.and_eq_true, Bool.not_eq_true', Bool.not_eq_true'] at stops
      exact stops.2
    have begins : ∀ v, (Word.next (ws ++ v)).begins = true := fun v => by
      rw [value.phrase.next_append, value.begins]
    have closing : Closing functionClosers (.mark .endFunction :: w) :=
      .inr ⟨by simp [functionClosers], plain⟩
    have returns : Yields (unroll (m + 1)).statement (room + 2)
        ((.mark .return_ :: ws) ++ .newline :: .mark .endFunction :: w)
        (.newline :: .mark .endFunction :: w) (StmtEcho c (.stop .nowhere)) := by
      refine Yields.nested (Yields.droppable ((Yields.returnStatement (begins _)
        (value.yields m _ (by omega) rfl)).mono ?_))
      rintro _ ⟨_, _, rfl, _⟩
      exact ⟨rfl, fun exact => absurd exact different⟩
    obtain ⟨all, body⟩ := entries (m + 1) (room + 2) functionClosers (.mark .endFunction :: w)
      (.newline :: ((.mark .return_ :: ws) ++ .newline :: .mark .endFunction :: w)) _ (by omega)
      (by omega) rfl (.newline (.statement (by simp) rfl rfl returns (.newline (.nil closing))))
    have next := line (.newline :: ((.mark .return_ :: ws) ++ .newline :: .mark .endFunction :: w)) rfl
    simp only [List.cons_append, List.append_assoc, List.nil_append] at body next ⊢
    exact Yields.scopeFunction body next stops

theorem isReserved_of_captured (h : e.rebindable = true)
    (mem : x ∈ scope.idents.filter fun x => (Scope.collect [e]).contains x.name) :
    isReserved x.name = false := by
  have read := (List.mem_filter.mp mem).2
  rw [Scope.contains_iff, Scope.mem_keys_collect] at read
  obtain ⟨y, occurs, same⟩ := read
  rw [exprsOccurrences, exprsOccurrences, List.append_nil] at occurs
  have free := List.all_eq_true.mp h y occurs
  rw [Bool.not_eq_true', isReserved, same] at free
  exact free

theorem helperCall_written {level : Nat} {first next : Token} {text : List Char}
    {Q : List Expr → Prop} (name : String) (different : ¬ c.exact)
    (conditional : e.isConditional = true) (helper : name ∈ ["simpleTernary", "scopeSafeTernary"])
    (pieces : c.text (exprPieces c.options level e) =
      (c.options.stem ++ name).toList ++ ("(".toList ++ (text ++ ")".toList)))
    (args : Arguments c text room Q ws) (ends : k.prolongs = false) :
    ∃ ws, Spelled c level e first next ws ∧ ∀ m w, room + 1 ≤ m → Follow k w →
      Yields (unroll m).expression (room + 1) (ws ++ w) w (Echo c e) := by
  obtain ⟨tail, yields⟩ := args.enclosed
  refine ⟨_, .helperCall conditional (c.helpers different name helper) pieces tail (by simp),
    fun m w le follow => ?_⟩
  obtain ⟨m, rfl⟩ : ∃ n, m = n + 1 := ⟨m - 1, by omega⟩
  have outline : e.outline = .call := by cases e <;> first | rfl | cases conditional
  refine (Yields.namedCall rfl (yields m w (by omega)) (follow.not_prolongs ends)).mono ?_
  exact fun e' call => ⟨call.trans outline.symm, fun exact => absurd exact different⟩

section

variable {test consequent alternate : Expr} {range : Range} {t u v u' : State} {level : Nat}
  {wsTest : List Word} (different : ¬ c.exact)
  (argument : Argument c (c.text (exprPieces c.options level test)) room (Echo c test) wsTest)
  (first : Copied c (fun m => (unroll m).expression) (deeper (consequent.fits c.options))
    consequent t u)
  (second : Copied c (fun m => (unroll m).expression) (deeper (alternate.fits c.options))
    alternate u' v) (ends : v.kind.prolongs = false)
include different argument first second ends

theorem plainCall_written (isPlain : Emit.isPlain c.options test consequent alternate = true)
    (fits : deeper (consequent.fits c.options) room = true)
    (fits' : deeper (alternate.fits c.options) room = true) :
    ∃ ws, Spelled c level (.conditional test consequent alternate range) s.token v.token ws ∧
      ∀ m w, room + 1 ≤ m → Follow v.kind w → Yields (unroll m).expression (room + 1) (ws ++ w) w
        (Echo c (.conditional test consequent alternate range)) := by
  obtain ⟨_, argument₁⟩ := first.argument level fits
  obtain ⟨_, argument₂⟩ := second.argument level fits'
  refine helperCall_written "simpleTernary" different rfl (by simp) ?_
    (.cons argument (.cons argument₁ (.single argument₂))) ends
  have comma : ", ".toList = ",".toList ++ [' '] := rfl
  have name : "simpleTernary(".toList = "simpleTernary".toList ++ "(".toList := rfl
  simp [exprPieces, isPlain, Piece.render, comma, name]

theorem safeCall_written (isPlain : Emit.isPlain c.options test consequent alternate = false)
    (names : ∀ x ∈ test.occurrences ++ consequent.occurrences ++ alternate.occurrences,
      IsName x.name)
    (fits : deeper (deeper (deeper (consequent.fits c.options))) room = true)
    (fits' : deeper (deeper (deeper (alternate.fits c.options))) room = true)
    (free : consequent.rebindable = true) (free' : alternate.rebindable = true) :
    ∃ ws, Spelled c level (.conditional test consequent alternate range) s.token v.token ws ∧
      ∀ m w, room + 1 ≤ m → Follow v.kind w → Yields (unroll m).expression (room + 1) (ws ++ w) w
        (Echo c (.conditional test consequent alternate range)) := by
  have captured : ∀ x ∈ (Scope.collect [test, consequent, alternate]).idents, IsName x.name := by
    intro x mem
    refine names x ?_
    simpa [exprsOccurrences, or_assoc] using Scope.mem_idents_collect mem
  have read : ∀ (e : Expr) (x : Ident), x ∈ (Scope.collect [test, consequent, alternate]).idents.filter
      (fun x => (Scope.collect [e]).contains x.name) → IsName x.name :=
    fun e x mem => captured x (List.mem_filter.mp mem).1
  obtain ⟨_, rfl, deep⟩ := deeper_eq_true.mp fits
  obtain ⟨_, rfl, _⟩ := deeper_eq_true.mp deep
  obtain ⟨_, scope⟩ := scope_argument c level _ captured
  obtain ⟨_, argument₁⟩ := branch_argument different first level (read consequent)
    (fun x mem => isReserved_of_captured free mem) fits
  obtain ⟨_, argument₂⟩ := branch_argument different second level (read alternate)
    (fun x mem => isReserved_of_captured free' mem) fits'
  refine helperCall_written "scopeSafeTernary" different rfl (by simp) ?_
    (.cons argument (.cons scope (.cons argument₁ (.single argument₂)))) ends
  have comma : ", ".toList = ",".toList ++ [' '] := rfl
  have name : "scopeSafeTernary(".toList = "scopeSafeTernary".toList ++ "(".toList := rfl
  simp [exprPieces, isPlain, rebindPieces, rebindLines, Piece.render, comma, name]

end

theorem Copied.test_argument {t : State} (shallow : s.nesting < maxNesting)
    (copy : Copied c (fun m => binary (Parser.operand (unroll m)) conditionalLevel)
      (e.fits c.options) e (s.atNesting (s.nesting + 1)) t) (level : Nat)
    (fits : deeper (e.fits c.options) room = true) :
    ∃ ws, Argument c (c.text (exprPieces c.options level e)) room (Echo c e) ws := by
  obtain ⟨ws, spelled, yields⟩ := (copy.tree shallow).2 level room fits
  refine ⟨ws, spelled.phrase, spelled.begins, spelled.final, fun m w le stops =>
    yields m w le (.inr stops) ?_⟩
  exact Kind.ne_of_not_prolongs (Kind.not_prolongs_of_stops stops) _ rfl

theorem expression_copied (h : Recovers c g) {s' : State} (run : Reads (expression g) s e s')
    (sound : Sound c s) :
    Copied c (fun m => (unroll m).expression) (deeper (e.fits c.options)) e s s' := by
  have ends := expression_ends h run
  obtain ⟨shallow, test, t, u, read, rest, rfl⟩ := run.expression_inv
  obtain ⟨_, copy⟩ := binary_copied h read (sound.atNesting _)
  have sound' := (sound.atNesting _).reads read
  rcases rest.conditionalRest_inv with
    ⟨_, mark, consequent, alternate, range, v, rfl, readFirst, _, readSecond⟩ | ⟨other, rfl, rfl⟩
  · have different := not_exact_of_markUnsupported sound' mark
    have first := h.expression (sound'.drop 1) readFirst
    have second := h.expression (((sound'.drop 1).reads readFirst).drop 1) readSecond
    have names : ∀ x ∈ test.occurrences ++ consequent.occurrences ++ alternate.occurrences,
        IsName x.name := by
      intro x mem
      simp only [List.mem_append] at mem
      rcases mem with (mem | mem) | mem
      · exact copy.names x mem
      · exact first.names x mem
      · exact second.names x mem
    refine ⟨names, fun exact => absurd exact different, fun level room fits => ?_⟩
    obtain ⟨room, rfl, inside⟩ := deeper_eq_true.mp fits
    cases isPlain : Emit.isPlain c.options test consequent alternate with
    | true =>
      rw [Expr.fits, if_pos isPlain] at inside
      simp only [Bool.and_eq_true] at inside
      obtain ⟨⟨fits, fits₁⟩, fits₂⟩ := inside
      obtain ⟨_, argument⟩ := copy.test_argument shallow level fits
      exact plainCall_written (v := u) different argument first second ends isPlain fits₁ fits₂
    | false =>
      rw [Expr.fits, if_neg (by simp [isPlain])] at inside
      simp only [Bool.and_eq_true] at inside
      obtain ⟨⟨⟨⟨fits, fits₁⟩, fits₂⟩, free⟩, free'⟩ := inside
      obtain ⟨_, argument⟩ := copy.test_argument shallow level fits
      exact safeCall_written (v := u) different argument first second ends isPlain names fits₁ fits₂
        free free'
  · obtain ⟨fits, written⟩ := copy.tree shallow
    refine ⟨copy.names, fits, fun level room need => ?_⟩
    obtain ⟨ws, spelled, yields⟩ := written level room need
    refine ⟨ws, spelled, fun m w le follow => yields m w le follow ?_⟩
    exact Kind.ne_of_not_prolongs (follow.not_prolongs ends) _ rfl

theorem expression_plain (h : Recovers c g) (exact : c.exact) {s' : State}
    (run : Reads (expression g) s e s') (sound : Sound c s) : e.isConditional = false := by
  obtain ⟨_, test, t, u, read, rest, rfl⟩ := run.expression_inv
  have sound' := (sound.atNesting _).reads read
  rcases rest.conditionalRest_inv with ⟨_, mark, _⟩ | ⟨_, rfl, _⟩
  · exact absurd exact (not_exact_of_markUnsupported sound' mark)
  · exact (binary_copied h read (sound.atNesting _)).1

end BrightScript
