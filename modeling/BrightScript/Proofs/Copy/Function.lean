import BrightScript.Proofs.Copy.Body

/-! Copies of names, types, parameters and functions. -/
namespace BrightScript

open BrightScript.Parser BrightScript.Emit

variable {c : Setting} {g : Grammar} {type missing : Ty} {room : Nat} {w : List Word} {s : State}
  {x : Ident}

/-- The name that is declared by the token of a state. -/
structure NameCopied (x : Ident) (s : State) : Prop where
  kind : s.kind = .identifier
  name : x.name = s.token.text
  genuine : s.token.word.Genuine
  free : isReserved x.name = false

theorem reads_declaredName {s' : State} (run : Reads declaredName s x s') (sound : Sound c s) :
    NameCopied x s ∧ s.drop 1 = s' := by
  obtain ⟨kind, free, rfl, rfl⟩ := run.declaredName_inv
  exact ⟨⟨kind, rfl, sound.genuine_word (by rw [kind]; rfl), free⟩, rfl⟩

theorem Parser.Yields.declaredName {x : Word} (kind : x.kind = .identifier)
    (free : isReserved x.text = false) : Yields declaredName room (x :: w) w (·.name = x.text) := by
  refine Yields.kind.bind fun k hk => ?_
  obtain rfl : k = .identifier := hk.trans kind
  have word : Kind.identifier.isWord = true := rfl
  simp only [word, if_true]
  refine Yields.takeIdent.bind fun name hname => ?_
  simp only [hname, free, Bool.false_eq_true, if_false, ne_eq, not_true]
  exact .pure hname

theorem NameCopied.yields (h : NameCopied x s) :
    Yields declaredName room (s.token.word :: w) w (·.name = x.name) := by
  have free : isReserved s.token.word.text = false := by
    rw [Token.text_word, ← h.name]
    exact h.free
  refine (Yields.declaredName (x := s.token.word) h.kind free).mono fun name same => ?_
  rw [same, h.name]
  rfl

theorem NameCopied.phrase (h : NameCopied x s) (l : Layout) :
    Phrase l x.name.toList [s.token.word] := by
  rw [h.name]
  exact .word h.genuine

namespace Ty

def isNamed : Ty → Prop
  | .invalid => False
  | .function f => f = { returns := .dynamic }
  | _ => True

theorem isNamed_of_ofName? {name : String} (h : ofName? name = some type) : type.isNamed := by
  unfold ofName? at h
  simp only [List.lookup_cons, List.lookup_nil] at h
  repeat' split at h
  all_goals first | cases h; exact trivial | cases h; rfl | cases h

def nameKind : Ty → Kind
  | .function _ => .function
  | _ => .identifier

/-- The word that a type is written with. -/
def word (type : Ty) : Word := ⟨type.nameKind, Emit.typeName type, none⟩

theorem word_readsBack (h : type.isNamed) :
    type.word.readsBack = true ∧ type.word.isPoint = false ∧
      ofName? (Emit.typeName type) = some type := by
  have lower : ∀ name ∈ ["dynamic", "boolean", "integer", "longinteger", "float", "double", "string",
      "object", "void", "function"], name.toLower = name := by decide +kernel
  cases type with
  | invalid => exact absurd h id
  | function f =>
    cases h
    refine ⟨by decide +kernel, by decide +kernel, ?_⟩
    rw [ofName?, lower _ (by simp [Emit.typeName])]
    rfl
  | _ =>
    refine ⟨by decide +kernel, by decide +kernel, ?_⟩
    rw [ofName?, lower _ (by simp [Emit.typeName, display])]
    rfl

theorem eq_of_same_dynamic (h : type.same .dynamic = true) : type = .dynamic := by
  cases type <;> first | rfl | cases h

theorem eq_of_same_void (h : type.same .void = true) : type = .void := by
  cases type <;> first | rfl | cases h

end Ty

theorem isNamed_of_asType {s' : State} (run : Reads (asType missing) s type s') :
    type = missing ∨ type.isNamed := by
  rcases run.asType_inv with ⟨_, read⟩ | ⟨_, same, _⟩
  · exact .inr (Ty.isNamed_of_ofName? read.typeName_inv.2.1)
  · exact .inl same

theorem Parser.Yields.asType_none (next : Word.next w ≠ .identifier) :
    Yields (asType missing) room w w (· = missing) := by
  refine Yields.atName.bind fun b hb => ?_
  have : b = false := by
    cases w with
    | nil => exact hb
    | cons x w =>
      have other : x.kind ≠ .identifier := next
      simp [hb, other]
  subst this
  exact .pure rfl

theorem Parser.Yields.asType_some (named : type.isNamed) :
    Yields (asType missing) room (⟨.identifier, "as", none⟩ :: type.word :: w) w (· = type) := by
  refine Yields.atName.bind fun b hb => ?_
  have same : Text.sameWord "as" "as" = true := by decide +kernel
  obtain rfl : b = true := by simp [hb, same]
  refine Yields.advance.bind fun _ _ => Yields.token.bind fun t ht => ?_
  have word : t.kind.isWord = true := by
    rw [← Token.kind_word, ht]
    cases type <;> rfl
  have text : t.text = Emit.typeName type := by rw [← Token.text_word, ht]; rfl
  simp only [word, if_true]
  refine Yields.advance.bind fun _ _ => ?_
  rw [text, (Ty.word_readsBack named).2.2]
  exact .pure rfl

theorem asType_copied (c : Setting) (plain : missing = .dynamic ∨ missing = .void)
    (known : type = missing ∨ type.isNamed) :
    ∃ ws, (∀ k, k ≠ .comment → Continues c.layout k (c.text (asPieces missing type)) ws ∧
        Word.last k ws ≠ .comment) ∧
      (ws = [] ∨ Word.next ws = .identifier) ∧
      ∀ room w, Word.next w ≠ .identifier →
        Yields (asType missing) room (ws ++ w) w (· = type) := by
  cases implied : type.same missing with
  | true =>
    have same : type = missing := by
      rcases plain with rfl | rfl
      · exact Ty.eq_of_same_dynamic implied
      · exact Ty.eq_of_same_void implied
    refine ⟨[], fun k code => ⟨?_, code⟩, .inl rfl, fun room w next => ?_⟩
    · rw [asPieces, implied]
      exact .nil
    · rw [same]
      exact .asType_none next
  | false =>
    have named : type.isNamed := by
      rcases known with rfl | named
      · rcases plain with rfl | rfl <;> cases implied
      · exact named
    obtain ⟨back, point, _⟩ := Ty.word_readsBack named
    have code : type.word.kind ≠ .comment := by cases type <;> intro same <;> cases same
    have as : (⟨.identifier, "as", none⟩ : Word).Genuine :=
      .of_readsBack (by decide +kernel) (by decide)
    refine ⟨[⟨.identifier, "as", none⟩, type.word], fun k code' => ⟨?_, code⟩, .inr rfl,
      fun room w _ => .asType_some named⟩
    have text : c.text (asPieces missing type) =
        ' ' :: "as".toList ++ ' ' :: (Emit.typeName type).toList := by
      have spaced : " as ".toList = ' ' :: "as".toList ++ [' '] := rfl
      simp [asPieces, implied, Piece.render, spaced]
    rw [text]
    refine ((Phrase.word as).after_space (Kind.combine?_eq_none rfl k) (fun _ => ?_) code').append
      ((Phrase.word (.of_readsBack back code)).after_space (Kind.combine?_of_not_first rfl _)
        (fun _ => point) (by simp))
    decide +kernel

/- Whether a fallback goes with a type depends on its kind only. -/
theorem Parser.Yields.checkFallback {fallback fallback' : Option Expr} {s' : State}
    (run : Reads (checkFallback fallback type) s () s')
    (same : fallback'.map Expr.outline = fallback.map Expr.outline) :
    Yields (checkFallback fallback' type) room w w fun _ => True := by
  cases fallback' with
  | none => exact .pure trivial
  | some e' =>
    cases e' with
    | literal l' =>
      obtain ⟨l, rfl, kind⟩ : ∃ l, fallback = some (.literal l) ∧ l'.kind = l.kind := by
        cases fallback with
        | none => cases same
        | some e =>
          cases e <;> simp [Expr.outline] at same
          exact ⟨_, rfl, same⟩
      have type_eq : l'.type = l.type := by rw [Literal.type, kind, Literal.type]
      unfold Parser.checkFallback at run ⊢
      dsimp only at run ⊢
      rw [kind, type_eq]
      cases clash : l.kind ≠ .invalid && !l.type.convertible type with
      | true =>
        rw [if_pos clash] at run
        exact absurd run not_reads_report
      | false =>
        simp only [Bool.false_eq_true, if_false]
        exact .pure trivial
    | _ => exact .pure trivial

/-- A value that may follow a word, with that word in front of it. -/
structure OptionCopied (c : Setting) (opener : Kind) (value : Option Expr) (depth : Nat) : Prop where
  fits : c.exact → optionFits c.options value (maxNesting - depth) = true
  written : ∀ level room, optionFits c.options value room = true → ∃ ws,
    (∀ k, k ≠ .comment → Continues c.layout k
        (value.elim [] fun e => ' ' :: opener.label.toList ++ ' ' ::
          c.text (exprPieces c.options level e)) ws ∧
      Word.last k ws ≠ .comment) ∧
    (ws = [] ∨ Word.next ws = opener) ∧
    ∀ {α : Type} (m w v) (f : Option Expr → Parser α) (P : α → Prop), room ≤ m →
      Word.next w ≠ opener → (Word.next w).stops = true →
      (∀ value', value'.map Expr.outline = value.map Expr.outline →
        (c.exact → optionBare value' = optionBare value) → Yields (f value') room w v P) →
      Yields (accept opener >>= fun found =>
        if found then some <$> (unroll m).expression >>= f else pure none >>= f) room (ws ++ w) v P

theorem option_copied (h : Recovers c g) {opener : Kind}
    (loose : (opener.isFixed && !opener.isSecond && opener.isLoose) = true) {value : Option Expr}
    {t : State} (sound : Sound c s)
    (run : (s.kind = opener ∧ ∃ e, value = some e ∧ Reads g.expression (s.drop 1) e t) ∨
      (s.kind ≠ opener ∧ value = none ∧ t = s)) : OptionCopied c opener value s.nesting := by
  rw [Bool.and_eq_true] at loose
  rcases run with ⟨_, e, rfl, read⟩ | ⟨_, rfl, _⟩
  · have copy := h.expression (sound.drop 1) read
    refine ⟨copy.fits, fun level room fits => ?_⟩
    obtain ⟨ws, spelled, yields⟩ := copy.written level room fits
    refine ⟨.mark opener :: ws, fun k code => ⟨?_, ?_⟩, .inr rfl, ?_⟩
    · exact (Continues.spaced_mark opener loose.1 code).append (spelled.phrase.after_loose loose.2)
    · exact Kind.ne_comment_of_isFinal (spelled.final _)
    · intro α m w v f P le _ stops rest
      refine (Yields.accept_of_eq rfl).bind fun b hb => ?_
      subst hb
      have read := (yields m w le (.inr stops)).map (R := fun value' =>
        value'.map Expr.outline = (some e).map Expr.outline ∧
          (c.exact → optionBare value' = optionBare (some e))) (f := some) fun e' echo =>
        ⟨congrArg some echo.outline, fun exact => congrArg some (echo.bare exact)⟩
      exact read.bind fun value' same => rest value' same.1 same.2
  · refine ⟨fun _ => rfl, fun level room _ => ⟨[], fun k code => ⟨.nil, code⟩, .inl rfl, ?_⟩⟩
    intro α m w v f P _ other _ rest
    refine (Yields.accept_of_ne other).bind fun b hb => ?_
    subst hb
    exact (Yields.pure rfl).bind fun value' hv => rest value' (by rw [hv]) fun _ => by rw [hv]

/-- A parameter in front of a comma or the end of the list. -/
structure ParameterCopied (c : Setting) (p : Parameter Expr) (depth : Nat) : Prop where
  fits : c.exact → optionFits c.options p.fallback (maxNesting - depth) = true
  written : ∀ level room, optionFits c.options p.fallback room = true →
    ∃ ws, Phrase c.layout (c.text (parameterPieces c.options level p)) ws ∧
      Word.next ws = .identifier ∧ (∀ k, Word.last k ws ≠ .comment) ∧
      ∀ m w, room ≤ m → (Word.next w = .comma ∨ Word.next w = .rightParen) →
        Yields (parameter (unroll m)) room (ws ++ w) w fun p' => p'.isRequired = p.isRequired ∧
          (c.exact → parametersBare [p'] = parametersBare [p])

theorem parameter_copied (h : Recovers c g) {p : Parameter Expr} {s' : State}
    (run : Reads (parameter g) s p s') (sound : Sound c s) : ParameterCopied c p s.nesting := by
  obtain ⟨x, fallback, type, range, t, u, rfl, declared, value, typed, checked⟩ := run.parameter_inv
  have name := (reads_declaredName declared sound).1
  rw [show s.drop 2 = (s.drop 1).drop 1 from (s.drop_drop 1 1).symm] at value
  have copy := option_copied h (by decide +kernel) (sound.drop 1) value
  refine ⟨copy.fits, fun level room fits => ?_⟩
  obtain ⟨ws, spelled, starts, yields⟩ := copy.written level room fits
  obtain ⟨ws', typed, starts', yields'⟩ := asType_copied c (.inl rfl) (isNamed_of_asType typed)
  have code : s.token.word.kind ≠ .comment := name.genuine.code
  refine ⟨s.token.word :: (ws ++ ws'), ?_, name.kind, fun k => ?_, fun m w le close => ?_⟩
  · have text : c.text (parameterPieces c.options level ⟨x, type, fallback, range⟩) =
        x.name.toList ++ ((fallback.elim [] fun e => ' ' :: Kind.equal.label.toList ++ ' ' ::
          c.text (exprPieces c.options level e)) ++ c.text (asPieces .dynamic type)) := by
      have spaced : " = ".toList = ' ' :: Kind.equal.label.toList ++ [' '] := by decide +kernel
      cases fallback with
      | none => simp [parameterPieces_none, Piece.render]
      | some e => simp [parameterPieces_some, Piece.render, spaced]
    rw [text]
    exact (name.phrase c.layout).append fun _ =>
      (spelled _ code).1.append (typed _ (spelled _ code).2).1
  · rw [Word.last_cons, Word.last_append]
    exact (typed _ (spelled _ code).2).2
  · have stops : (Word.next (ws' ++ w)).stops = true ∧ Word.next (ws' ++ w) ≠ .equal := by
      rcases Word.next_optional starts' (by decide) w with same | same
      · rcases close with close | close <;> rw [same, close] <;> decide
      · rw [same]
        decide
    have other : Word.next w ≠ .identifier := by
      rcases close with close | close <;> rw [close] <;> decide
    rw [List.cons_append, List.append_assoc]
    refine Yields.ranged (name.yields.bind fun name' same => ?_)
    refine yields m (ws' ++ w) w _ _ le stops.2 stops.1 fun value' outline bare => ?_
    refine (yields' room w other).bind fun type htype => ?_
    subst htype
    refine (Yields.checkFallback checked outline).bind fun _ _ =>
      .pure fun range => ⟨?_, fun exact => ?_⟩
    · have := congrArg Option.isNone outline
      simpa [Parameter.isRequired] using this
    · simp only [parametersBare, Ident.bare, same, bare exact]

theorem Parser.Yields.parameterRound {P : Parameter Expr → Prop} {p : Parameter Expr}
    {ws v : List Word} {done : List (Parameter Expr)} {seen more : Bool}
    (h : Yields (parameter g) room ws v fun p' => p'.isRequired = p.isRequired ∧ P p')
    (early : (p.isRequired && seen) = false) (next : Yields (accept .comma) room v w (· = more)) :
    Yields (parameterRound g (done, seen)) room ws w fun r => ∃ p', P p' ∧
      r = if more then .again (done ++ [p'], seen || !p.isRequired) else .done (done ++ [p']) := by
  refine h.bind fun p' hp => ?_
  simp only [hp.1, early, Bool.false_eq_true, if_false]
  refine next.bind fun comma hc => ?_
  subst hc
  cases comma with
  | true => exact .pure ⟨p', hp.2, rfl⟩
  | false => exact .pure ⟨p', hp.2, rfl⟩

/-- The parameters from here on. The flag tells whether there was an optional one before. -/
structure ParametersCopied (c : Setting) (ps : List (Parameter Expr)) (seen : Bool) (depth : Nat) :
    Prop where
  nonempty : ps ≠ []
  fits : c.exact → parametersFit c.options ps (maxNesting - depth) = true
  written : ∀ level room, parametersFit c.options ps room = true →
    ∃ ws, Phrase c.layout (c.text (parametersPieces c.options level ps)) ws ∧
      Word.next ws = .identifier ∧ (∀ k, Word.last k ws ≠ .comment) ∧
      ∀ m w done, room ≤ m → Word.next w = .rightParen →
        Yields (loop (parameterRound (unroll m)) (done, seen)) room (ws ++ w) w fun all =>
          ∃ ps', all = done ++ ps' ∧ (c.exact → parametersBare ps' = parametersBare ps)

theorem parametersBare_cons (p : Parameter Expr) (ps : List (Parameter Expr)) :
    parametersBare (p :: ps) = parametersBare [p] ++ parametersBare ps := rfl

theorem parametersFit_cons (o : Options) (p : Parameter Expr) (ps : List (Parameter Expr))
    (room : Nat) :
    parametersFit o (p :: ps) room = (optionFits o p.fallback room && parametersFit o ps room) := rfl

theorem Emit.parametersPieces_cons (o : Options) (level : Nat) (p p' : Parameter Expr)
    (ps : List (Parameter Expr)) :
    parametersPieces o level (p :: p' :: ps) =
      parameterPieces o level p ++ [.text ", "] ++ parametersPieces o level (p' :: ps) := rfl

namespace ParametersCopied

variable {p : Parameter Expr} {ps : List (Parameter Expr)} {seen : Bool} {depth : Nat}

theorem single (h : ParameterCopied c p depth) (early : (p.isRequired && seen) = false) :
    ParametersCopied c [p] seen depth := by
  refine ⟨by simp, fun exact => ?_, fun level room fits => ?_⟩
  · rw [parametersFit_cons, h.fits exact]
    rfl
  · rw [parametersFit_cons, Bool.and_eq_true] at fits
    obtain ⟨ws, phrase, next, code, yields⟩ := h.written level room fits.1
    refine ⟨ws, phrase, next, code, fun m w done le close => ?_⟩
    have read := yields m w le (.inr close)
    have stop : Yields (accept .comma) room w w (· = false) := .accept_of_ne (by rw [close]; decide)
    refine ((Yields.parameterRound read early stop).mono ?_).loop_done
    rintro _ ⟨p', bare, rfl⟩
    exact ⟨_, rfl, [p'], rfl, bare⟩

theorem cons (h : ParameterCopied c p depth) (early : (p.isRequired && seen) = false)
    (rest : ParametersCopied c ps (seen || !p.isRequired) depth) :
    ParametersCopied c (p :: ps) seen depth := by
  refine ⟨by simp, fun exact => ?_, fun level room fits => ?_⟩
  · rw [parametersFit_cons, h.fits exact, rest.fits exact]
    rfl
  · rw [parametersFit_cons, Bool.and_eq_true] at fits
    obtain ⟨p₂, ps, rfl⟩ := List.exists_cons_of_ne_nil rest.nonempty
    obtain ⟨ws, phrase, next, code, yields⟩ := h.written level room fits.1
    obtain ⟨ws', phrase', _, code', yields'⟩ := rest.written level room fits.2
    refine ⟨ws ++ .mark .comma :: ws', ?_, ?_, ?_, fun m w done le close => ?_⟩
    · have text : c.text (parametersPieces c.options level (p :: p₂ :: ps)) =
          c.text (parameterPieces c.options level p) ++
            (",".toList ++ ' ' :: c.text (parametersPieces c.options level (p₂ :: ps))) := by
        have comma : ", ".toList = ",".toList ++ [' '] := rfl
        rw [parametersPieces_cons]
        simp [Piece.render, comma]
      rw [text]
      exact phrase.append fun k => (Continues.mark .comma rfl (code k)).append
        (phrase'.after_loose rfl)
    · rw [phrase.next_append, next]
    · intro k
      rw [Word.last_append]
      exact code' _
    · rw [List.append_assoc, List.cons_append]
      have read := yields m (.mark .comma :: (ws' ++ w)) le (.inl rfl)
      refine Yields.loop_again ((Yields.parameterRound read early (.accept_of_eq rfl)).mono ?_) ?_ ?_
        (Q := fun y => ∃ p', (c.exact → parametersBare [p'] = parametersBare [p]) ∧
          y = (done ++ [p'], seen || !p.isRequired))
      · rintro _ ⟨p', bare, rfl⟩
        exact ⟨_, rfl, p', bare, rfl⟩
      · simp only [List.length_append, List.length_cons]
        omega
      · rintro _ ⟨p', bare, rfl⟩
        refine (yields' m w _ le close).mono ?_
        rintro _ ⟨ps', rfl, bare'⟩
        refine ⟨p' :: ps', by simp, fun exact => ?_⟩
        rw [parametersBare_cons, bare exact, bare' exact, ← parametersBare_cons]

end ParametersCopied

theorem parameterRound_copied (h : Recovers c g) {done all : List (Parameter Expr)} {seen : Bool}
    {s' : State} (run : Reads (loop (parameterRound g) (done, seen)) s all s') (sound : Sound c s) :
    ∃ ps, all = done ++ ps ∧ ParametersCopied c ps seen s.nesting := by
  revert sound
  generalize start : (done, seen) = state at run
  have all_rounds := Reads.loop_induction (motive := fun state s => Sound c s →
    ∃ ps, all = state.1 ++ ps ∧ ParametersCopied c ps state.2 s.nesting) ?_ ?_ run
  · subst start
    exact all_rounds
  · rintro ⟨done, seen⟩ s round sound
    obtain ⟨p, t, read, early, ⟨_, again, _⟩ | ⟨_, last, _⟩⟩ := round.parameterRound_inv
    · cases again
    · cases last
      exact ⟨[p], rfl, .single (parameter_copied h read sound) early⟩
  · rintro ⟨done, seen⟩ s next t round _ _ ih sound
    obtain ⟨p, u, read, early, ⟨_, again, _⟩ | ⟨_, last, _⟩⟩ := round.parameterRound_inv
    · cases again
      obtain ⟨ps, rfl, rest⟩ := ih (sound.reads round)
      rw [round.advances.nesting] at rest
      exact ⟨p :: ps, by simp, .cons (parameter_copied h read sound) early rest⟩
    · cases last

theorem parameters_copied (h : Recovers c g) {ps : List (Parameter Expr)} {s' : State}
    (run : Reads (parameters g) s ps s') (sound : Sound c s) :
    Enclosed c .leftParen .rightParen
      (fun level => parametersPieces c.options level ps ++ [.text ")"])
      (parametersFit c.options ps) (fun m => parameters (unroll m))
      (fun ps' => c.exact → parametersBare ps' = parametersBare ps) s s' := by
  have mark : ∀ k : Kind, k ≠ .comment → Continues c.layout k ")".toList [.mark .rightParen] :=
    fun k code => Continues.mark .rightParen rfl code
  obtain ⟨t, ⟨_, rfl, rfl⟩ | ⟨_, list⟩, close, rfl⟩ := run.parameters_inv
  · refine ⟨fun _ => rfl, ?_, fun level room _ => ?_⟩
    · exact sound.joins_at close (by decide)
    · refine ⟨[.mark .rightParen], ?_, by simp, fun _ => rfl, fun m w _ => ?_⟩
      · have none : parametersPieces c.options level [] = [] := rfl
        simpa [none, Piece.render] using mark .leftParen (by decide)
      · refine Yields.isAt.bind fun b hb => ?_
        subst hb
        exact (Yields.pure rfl).bind fun ps' hps => (Yields.expect rfl).bind fun _ _ =>
          .pure fun _ => by rw [hps]
  · obtain ⟨_, rfl, copy⟩ := parameterRound_copied h list sound
    refine ⟨copy.fits, ?_, fun level room fits => ?_⟩
    · exact (sound.reads list).joins_at close (by decide)
    · obtain ⟨ws, phrase, next, code, yields⟩ := copy.written level room fits
      refine ⟨ws ++ [.mark .rightParen], ?_, by simp, by simp, fun m w le => ?_⟩
      · have text : c.text (parametersPieces c.options level ps ++ [.text ")"]) =
            c.text (parametersPieces c.options level ps) ++ ")".toList := by simp [Piece.render]
        rw [text]
        exact (phrase.after_mark rfl rfl).append (mark _ (code _))
      · rw [List.append_assoc]
        refine Yields.isAt.bind fun b hb => ?_
        obtain rfl : b = false := by
          rw [hb, phrase.next_append, next]
          rfl
        refine (yields m (.mark .rightParen :: w) [] le rfl).bind fun all hall => ?_
        obtain ⟨ps', rfl, bare⟩ := hall
        exact (Yields.expect rfl).bind fun _ _ => .pure (by simpa using bare)

def Kind.ofFunction (isSub : Bool) : Kind := if isSub then .sub else .function

def Kind.endOfFunction (isSub : Bool) : Kind := if isSub then .endSub else .endFunction

def Emit.restPieces (o : Options) (level : Nat) (f : Function Expr Stmt) : List Piece :=
  [.text "("] ++ (parametersPieces o level f.parameters ++ [.text ")"]) ++
    asPieces (if f.isSub then .void else .dynamic) f.returns ++
    bodyPieces o (level + 1) f.body.range.start.line f.body.statements ++
    [.line level, .text (Kind.endOfFunction f.isSub).label]

theorem Emit.functionPieces_none (o : Options) (level : Nat) (f : Function Expr Stmt) :
    functionPieces o level none f = .text (Kind.ofFunction f.isSub).label :: restPieces o level f := by
  obtain ⟨isSub, ps, returns, ⟨stmts, range⟩, _⟩ := f
  cases isSub <;>
    simp [functionPieces, restPieces, Kind.ofFunction, Kind.endOfFunction] <;> decide

theorem Emit.functionPieces_some (o : Options) (level : Nat) (name : String)
    (f : Function Expr Stmt) :
    functionPieces o level (some name) f =
      .text (Kind.ofFunction f.isSub).label :: .text " " :: .text name :: restPieces o level f := by
  obtain ⟨isSub, ps, returns, ⟨stmts, range⟩, _⟩ := f
  cases isSub <;>
    simp [functionPieces, restPieces, Kind.ofFunction, Kind.endOfFunction] <;> decide

theorem Parser.Yields.closeFunction {isSub : Bool} :
    Yields (closeFunction isSub) room (.mark (.endOfFunction isSub) :: w) w fun _ => True := by
  refine Yields.kind.bind fun k hk => ?_
  rw [Word.next_cons, Word.kind_mark] at hk
  have same : k = if isSub then Kind.endSub else Kind.endFunction := hk
  have closes : closesFunction k = true := by rw [hk]; cases isSub <;> rfl
  simp only [← same, if_true, closes]
  exact .advance

/-- A function that is read from `s`, right after its keyword and its name, up to `s'`. -/
structure FunctionCopied (c : Setting) (f : Function Expr Stmt) (s s' : State) : Prop where
  fits : c.exact → functionFits c.options f (maxNesting - s.nesting) = true
  joins : Joins (.endOfFunction f.isSub) s'.token
  plain : s'.kind.isAssignment = false
  written : ∀ level room, functionFits c.options f room = true → ∃ ws,
    (∀ k, k ≠ .comment → Continues c.layout k (c.text (restPieces c.options level f)) ws) ∧
    Word.next ws = .leftParen ∧ (∀ k, Word.last k ws = .endOfFunction f.isSub) ∧
    ∀ m w first, room ≤ m → (Word.next w).isAssignment = false →
      Yields (functionRest (unroll m) first f.isSub) room (ws ++ w) w
        fun f' => c.exact → functionBare f' = functionBare f

theorem functionRest_copied (h : Recovers c g) {first : Range} {isSub : Bool}
    {f : Function Expr Stmt} {s' : State} (run : Reads (functionRest g first isSub) s f s')
    (sound : Sound c s) : f.isSub = isSub ∧ FunctionCopied c f s s' := by
  obtain ⟨ps, returns, body, range, t, u, v, rfl, _, listed, typed, read, kind', rfl⟩ :=
    run.functionRest_inv
  have params := parameters_copied h listed (sound.drop 1)
  have sound' := (sound.drop 1).reads listed
  have depth : u.nesting = s.nesting := typed.advances.nesting.trans listed.advances.nesting
  obtain ⟨copy, ends⟩ := block_copied h (by decide) read ((sound'.reads typed).atFunctions _)
  have kind' : v.kind = .endOfFunction isSub := kind'
  have sound'' := ((sound'.reads typed).atFunctions _).reads read
  refine ⟨rfl, ⟨fun exact => ?_, ?_, ?_, fun level room fits => ?_⟩⟩
  · have fits := copy.fits exact
    rw [State.nesting_atFunctions, depth] at fits
    exact Bool.and_eq_true_iff.mpr ⟨params.fits exact, fits⟩
  · exact sound''.joins_at kind' (by cases isSub <;> exact Kind.noConfusion)
  · have closes : v.closes functionClosers = true := by
      refine ends.resolve_left ?_
      rw [kind']
      cases isSub <;> decide
    rw [State.closes, Bool.and_eq_true, State.kindAt_one] at closes
    exact (Bool.not_eq_true' _).mp closes.2
  · rw [functionFits, Bool.and_eq_true] at fits
    obtain ⟨ws, continues, nonempty, last, yields⟩ := params.written level room fits.1
    obtain ⟨ws', typed', starts', yields'⟩ :=
      asType_copied c (by cases isSub <;> simp) (isNamed_of_asType typed)
    obtain ⟨mark, typeCode⟩ := typed' .rightParen (by decide)
    obtain ⟨ws'', continues'', starts'', yields''⟩ := copy.written (level + 1) _ room typeCode fits.2
    refine ⟨.mark .leftParen :: (ws ++ (ws' ++ (ws'' ++ [.newline, .mark (.endOfFunction isSub)]))),
      fun k code => ?_, rfl, by simp, fun m w first le plain => ?_⟩
    · have text : c.text (restPieces c.options level ⟨isSub, ps, returns, body, range⟩) =
          "(".toList ++ (c.text (parametersPieces c.options level ps ++ [.text ")"]) ++
            (c.text (asPieces (if isSub then .void else .dynamic) returns) ++
              (c.text (bodyPieces c.options (level + 1) body.range.start.line body.statements) ++
                (((Piece.line level).render c.layout).toList ++
                  (Kind.endOfFunction isSub).label.toList)))) := by
        simp [restPieces, Piece.render]
      rw [text]
      have fixed : (Kind.endOfFunction isSub).isFixed = true := by cases isSub <;> rfl
      refine (Continues.mark .leftParen rfl code).append (continues.append ?_)
      rw [last]
      exact mark.append (continues''.append
        ((Continues.line c.plain level).append ((Phrase.mark fixed).after_mark rfl rfl)))
    · have close : Closing functionClosers (.mark (.endOfFunction isSub) :: w) :=
        .inr ⟨by cases isSub <;> simp [Kind.endOfFunction, functionClosers], plain⟩
      have line : Word.next (ws'' ++ .newline :: .mark (.endOfFunction isSub) :: w) ≠ .identifier := by
        intro same
        have ends := starts'' (.mark (.endOfFunction isSub) :: w)
        rw [same] at ends
        cases ends
      simp only [List.cons_append, List.append_assoc]
      refine Yields.spanned ((Yields.expect rfl).bind fun _ _ =>
        (yields m _ le).bind fun ps' hps => (yields' room _ line).bind fun ty hty => ?_)
      refine (yields'' m _ le close).inFunction.bind fun body' hbody =>
        Yields.closeFunction.bind fun _ _ => .pure fun range exact => ?_
      rw [functionBare, functionBare, hps exact, hbody exact, hty]

end BrightScript
