import BrightScript.Proofs.Copy.Grammar
import BrightScript.Proofs.Parser.Gate

/-! Reading back what is written for a program.
In BrightScript the emitted text is read as the same tree, and what is emitted for BrighterScript
is legal BrightScript, provided that its conditionals fit into the calls that stand for them. -/
namespace BrightScript

open BrightScript.Parser BrightScript.Emit

namespace Spells

variable {last : Option Kind} {text : List Char} {ws : List Word}

theorem of_last {last' : Option Kind} (h : Spells last text ws)
    (same : Scan.endsOperand last = Scan.endsOperand last') : Spells last' text ws := by
  induction h with
  | nil => exact .nil
  | blank read _ ih => exact .blank (same ▸ read) (ih same)
  | token read rest _ => exact .token (same ▸ read) rest

theorem of_line {l : Layout} (plain : l.Plain)
    (h : Spells last (l.newline.toList ++ text) ws) :
    ∃ ws', ws = .newline :: ws' ∧ Spells none text ws' := by
  have feed : Spells last ('\n' :: text) ws := by
    rcases plain.newline with newline | newline <;> rw [newline] at h
    · exact h
    · exact .of_cons_blank rfl h
  cases feed with
  | blank read _ => cases read
  | token read rest =>
    cases read
    exact ⟨_, rfl, rest.of_last rfl⟩

theorem mem_of_mem (h : Spells last text ws) {x : Word} (mem : x ∈ ws) {d : Char}
    (inside : d ∈ x.text.toList) : d ∈ text := by
  induction h with
  | nil =>
    obtain rfl := List.mem_singleton.mp mem
    cases inside
  | blank _ _ ih => exact List.mem_cons_of_mem _ (List.mem_of_mem_drop (ih mem))
  | token _ _ ih =>
    rcases List.mem_cons.mp mem with rfl | mem
    · rw [String.toList_ofList] at inside
      rcases List.mem_cons.mp inside with rfl | inside
      · exact List.mem_cons_self
      · exact List.mem_cons_of_mem _ (List.mem_of_mem_take inside)
    · exact List.mem_cons_of_mem _ (List.mem_of_mem_drop (ih mem))

end Spells

theorem Emit.toList_emit (o : Options) (stmts : List Stmt) :
    (emit o stmts).toList = chars o.layout (programPieces o stmts) ∨
      (emit o stmts).toList = chars o.layout (programPieces o stmts) ++ o.layout.newline.toList := by
  unfold emit
  simp only
  split
  · exact .inr (String.toList_append ..)
  · exact .inl rfl

theorem Emit.chars_bodyPieces (o : Options) (st : Stmt) (rest : List Stmt) :
    chars o.layout (bodyPieces o 0 (st.range.start.line + 1) (st :: rest)) =
      o.layout.newline.toList ++ chars o.layout (programPieces o (st :: rest)) := by
  have first : lead 0 (st.range.start.line + 1) st = [.line 0] := by
    cases st with
    | comment cm =>
      have other : cm.range.start.line ≠ cm.range.start.line + 1 := by omega
      exact if_neg other
    | _ => rfl
  rw [bodyPieces, first, programPieces]
  simp [Piece.render, indentation]

variable {c : Setting}

theorem program_written {stmts : List Stmt} {s : State} (copy : BodyCopied c stmts s)
    (fits : stmtsFit c.options stmts maxNesting = true) :
    ∃ ws, Spells none (emit c.options stmts).toList ws ∧
      Yields (statements grammar []) maxNesting ws [.endOfFile]
        fun stmts' => c.exact → stmtsBare stmts' = stmtsBare stmts := by
  cases stmts with
  | nil =>
    refine ⟨[.endOfFile], ?_, ?_⟩
    · have empty : emit c.options [] = "" := by
        unfold emit programPieces
        simp
      rw [empty]
      exact .nil
    · have entries : Entries c grammar.statement maxNesting [] [.endOfFile] [.endOfFile] [] :=
        .nil (.inl rfl)
      exact entries.yields (by simp)
  | cons st rest =>
    obtain ⟨ws, continues, starts, entries⟩ := copy.written 0 (st.range.start.line + 1) .newline
      maxNesting (fun comment => by cases comment) fits
    -- the text may end with a line break
    obtain ⟨tail, w, text, meets, next, ends⟩ : ∃ tail w,
        (emit c.options (st :: rest)).toList =
          c.text (programPieces c.options (st :: rest)) ++ tail ∧
        (∀ k, Meets c.layout k tail w) ∧ (Word.next w = .newline ∨ Word.next w = .endOfFile) ∧
        Entries c grammar.statement maxNesting [] [.endOfFile] w [] := by
      rcases toList_emit c.options (st :: rest) with text | text
      · exact ⟨[], [.endOfFile], by rw [text, List.append_nil], fun k => .nil _ k, .inr rfl,
          .nil (.inl rfl)⟩
      · refine ⟨c.layout.newline.toList, [.newline, .endOfFile], text, fun k => ?_, .inl rfl,
          .newline (.nil (.inl rfl))⟩
        have meets := Continues.line (k := k) c.plain 0 [] [.endOfFile] (.nil _ _)
        simpa [Piece.render, indentation] using meets
    have spells := (continues tail w (meets _)).spells
    rw [Setting.text, chars_bodyPieces, List.append_assoc] at spells
    obtain ⟨ws', same, spells⟩ := spells.of_line c.plain
    have all := entries (maxNesting + 1) [] [.endOfFile] w [] (by omega) next ends
    rw [same, List.append_nil] at all
    refine ⟨ws', ?_, (all.of_newline rfl (by simp)).yields (by simp)⟩
    rw [text]
    exact spells

theorem parse_of_yields (mode : Mode) {text : String} {ws : List Word} {P : List Stmt → Prop}
    (spells : Spells none text.toList ws)
    (yields : Yields (statements grammar []) maxNesting ws [.endOfFile] P) :
    (scan text).diagnostics = [] ∧ (parse mode (scan text).tokens).diagnostics = [] ∧
      P (parse mode (scan text).tokens).statements := by
  obtain ⟨quiet, words⟩ := spells.run .origin
  obtain ⟨stmts, s, run, _, holds⟩ :=
    yields (.start mode (scan text).tokens) (Nat.zero_add maxNesting).le words
  rw [parse_of_run run.1]
  exact ⟨quiet, run.2, holds⟩

/-- The tokens of a source that is scanned without a report. -/
theorem sound_start {source : String} {mode : Mode} (quiet : (scan source).diagnostics = [])
    (separate : Separate (scan source).tokens) (same : c.exact → mode = .brightScript)
    (returns : '\r' ∉ source.toList ∨ ¬ c.exact ∧ c.layout.newline = "\n") :
    Sound c (.start mode (scan source).tokens) where
  scanned := scanned_of_run quiet
  separate := separate
  unmarked := rfl
  mode := same
  returns t mem _ last := by
    refine returns.resolve_left fun none => none ?_
    exact (spells_of_run quiet).mem_of_mem (List.mem_map_of_mem mem) (List.mem_of_getLast? last)

theorem parse_copied {source : String} {mode : Mode}
    (sound : Sound c (.start mode (scan source).tokens))
    (quiet : (parse mode (scan source).tokens).diagnostics = []) :
    BodyCopied c (parse mode (scan source).tokens).statements (.start mode (scan source).tokens) := by
  obtain ⟨s, read⟩ := reads_of_quiet quiet
  exact (statements_copied (recovers_unroll c (maxNesting + 1)) read sound).1

instance (text : List Char) : Decidable (PlainBlanks text) :=
  decidable_of_iff (text.all fun c => !Text.isBlank c || Text.isSpace c) (by
    simp only [List.all_eq_true, Bool.or_eq_true, Bool.not_eq_true', PlainBlanks]
    exact forall₂_congr fun c _ => by cases Text.isBlank c <;> simp)

theorem PlainBlanks.return_not_mem {text : List Char} (h : PlainBlanks text) : '\r' ∉ text :=
  fun mem => absurd (h '\r' mem rfl) (by decide)

/-- A source that is scanned and parsed without a report in BrightScript is written as a text that
is read without a report, and as the same tree. -/
theorem stmtsBare_parse_emit (source : String) (o : Options) (plain : o.layout.Plain)
    (blanks : PlainBlanks source.toList) (scanned : (scan source).diagnostics = [])
    (parsed : (parse .brightScript (scan source).tokens).diagnostics = []) :
    let stmts := (parse .brightScript (scan source).tokens).statements
    let copy := scan (emit o stmts)
    copy.diagnostics = [] ∧ (parse .brightScript copy.tokens).diagnostics = [] ∧
      stmtsBare (parse .brightScript copy.tokens).statements = stmtsBare stmts := by
  let c : Setting := ⟨o, True, plain, fun different => absurd trivial different⟩
  have sound : Sound c (.start .brightScript (scan source).tokens) :=
    sound_start scanned (separate_of_run scanned blanks) (fun _ => rfl) (.inl blanks.return_not_mem)
  have copy := parse_copied sound parsed
  obtain ⟨ws, spells, yields⟩ := program_written copy (copy.fits trivial)
  obtain ⟨quiet, quiet', same⟩ := parse_of_yields .brightScript spells yields
  exact ⟨quiet, quiet', same trivial⟩

/-- Names that are keywords elsewhere, signs in a row and comments, written with tabs and with two
characters at the end of a line. -/
theorem stmtsBare_parse_emit_keywords :
    let source := "sub a(b = -1 as integer)\n' c\nif m.end[b] then print b - -.5 else stop 'd\nend sub"
    let stmts := (parse .brightScript (scan source).tokens).statements
    let copy := scan (emit { layout := { indent := "\t", newline := "\r\n" } } stmts)
    stmtsBare (parse .brightScript copy.tokens).statements = stmtsBare stmts :=
  (stmtsBare_parse_emit _ { layout := { indent := "\t", newline := "\r\n" } }
    ⟨by decide +kernel, .inr rfl⟩ (by decide +kernel) (by decide +kernel) (by decide +kernel)).2.2

theorem Emit.plain_default : ({} : Layout).Plain := ⟨by decide +kernel, .inl rfl⟩

theorem genuine_helper : ∀ name ∈ ["simpleTernary", "scopeSafeTernary"],
    (⟨.identifier, "bslib_" ++ name, none⟩ : Word).Genuine := by
  simp only [List.mem_cons, List.not_mem_nil, or_false, forall_eq_or_imp, forall_eq]
  exact ⟨.of_readsBack (by decide +kernel) (by decide),
    .of_readsBack (by decide +kernel) (by decide)⟩

/-- What is written for BrighterScript is legal BrightScript, without a conditional, if the tree
fits and no two tokens would make one keyword. -/
theorem parse_emit_of_fits (source : String) (p : Protection)
    (scanned : (scan source).diagnostics = [])
    (parsed : (parse .brighterScript (scan source).tokens).diagnostics = [])
    (separate : Separate (scan source).tokens)
    (fits : stmtsFit { protection := p } (parse .brighterScript (scan source).tokens).statements
      maxNesting = true) :
    let copy := scan (emit { protection := p } (parse .brighterScript (scan source).tokens).statements)
    copy.diagnostics = [] ∧ (parse .brightScript copy.tokens).diagnostics = [] ∧
      stmtsPlain (parse .brightScript copy.tokens).statements = true := by
  let c : Setting := ⟨{ protection := p }, False, plain_default, fun _ => genuine_helper⟩
  have sound : Sound c (.start .brighterScript (scan source).tokens) :=
    sound_start scanned separate False.elim (.inr ⟨id, rfl⟩)
  obtain ⟨ws, spells, yields⟩ := program_written (parse_copied sound parsed) fits
  obtain ⟨quiet, quiet', _⟩ := parse_of_yields .brightScript spells yields
  obtain ⟨s, read⟩ := reads_of_quiet quiet'
  have plain := (gated_unroll (maxNesting + 1)).statements [] _ _ s rfl read.1 rfl
  exact ⟨quiet, quiet', by simpa [stmtsPlain_eq] using plain⟩

/-- Conditionals in a condition, in an argument and in a branch of another one. -/
theorem parse_emit_of_fits_nested :
    let source := "if a ? b : c() then print d.e ? f ? g : 1 : [2] else h(i ? \"\" : k)"
    let stmts := (parse .brighterScript (scan source).tokens).statements
    stmtsPlain stmts = false ∧
      (parse .brightScript (scan (emit {} stmts)).tokens).diagnostics = [] := by
  intro source stmts
  have scanned : (scan source).diagnostics = [] := by decide +kernel
  have facts : (parse .brighterScript (scan source).tokens).diagnostics = [] ∧
      stmtsFit {} stmts maxNesting = true ∧ stmtsPlain stmts = false := by decide +kernel
  have separate := separate_of_run scanned (show PlainBlanks source.toList by decide +kernel)
  exact ⟨facts.2.2, (parse_emit_of_fits source .safe scanned facts.1 separate facts.2.1).2.1⟩

/-- A branch function assigns to a variable with a reserved name, a point goes on with the call that
stands before it, and two words that a no-break space kept apart are read as one keyword. -/
theorem parse_emit_illegal :
    let sources := ["x = m.ok ? type : 1", "print a ? b : 1 .5",
      "if a then b() else\u00a0if c then\nd()\nend if"]
    let parsed := sources.map fun source => parse .brighterScript (scan source).tokens
    sources.all (fun source => (scan source).diagnostics.isEmpty) = true ∧
      parsed.all (fun tree => tree.diagnostics.isEmpty) = true ∧
      parsed.map (fun tree =>
        (parse .brightScript (scan (emit {} tree.statements)).tokens).diagnostics.map (·.code)) =
        [[1060], [1026], [1023, 1020]] := by
  decide +kernel

end BrightScript
