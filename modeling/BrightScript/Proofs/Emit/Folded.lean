import BrightScript.Proofs.Emit.Respelled
import BrightScript.Proofs.Parser.Shift
import BrightScript.Proofs.Token.Folded

/-! Programs that differ in the case of their letters.
The scanner gives them the same tokens but for the spelling, the parser trees of the same form and
the printer texts that again differ in the case of letters only. The names that a conditional
captures are compared folded, so it captures the same ones. -/
namespace BrightScript

open Text (toList_toLower ofList_toLower append_toLower)

theorem respells_folding : folding.Respells := ⟨Text.toLower_idem, fun _ _ _ _ _ _ _ => rfl⟩

namespace Emit

section Pieces

variable (o : Options)

theorem quote_fold (s : String) : (quote s.toLower).toLower = (quote s).toLower := by
  have doubled (cs : List Char) :
      doubleQuotes (cs.map Char.toLower) = (doubleQuotes cs).map Char.toLower := by
    induction cs with
    | nil => rfl
    | cons c cs ih =>
      rw [List.map_cons, doubleQuotes, doubleQuotes]
      simp only [Text.quote_toLower, ih]
      split
      · rfl
      · rfl
  apply String.toList_inj.mp
  simp only [quote, toList_toLower, String.toList_ofList, doubled, List.cons_append, List.map_cons,
    List.map_append, List.map_map, Function.comp_def, Text.toLower_toLower]

theorem splitLines_fold (cs : List Char) :
    splitLines (cs.map Char.toLower) = (splitLines cs).map (List.map Char.toLower) := by
  induction cs with
  | nil => rfl
  | cons c cs ih =>
    rw [List.map_cons, splitLines, splitLines]
    simp only [Text.feed_toLower, ih]
    split
    · rfl
    · cases splitLines cs <;> rfl

theorem folded_text (s : String) :
    SeenAlike String.toLower o (fun _ => [.text s.toLower]) fun _ => [.text s] :=
  .text (Text.toLower_idem s)

theorem folded_comment (c : Comment) :
    SeenAlike String.toLower o (commentPieces · (c.rewrite folding)) (commentPieces · c) := by
  have pieces : Congruent (SeenAlike String.toLower o) := Piecewise.congruent append_toLower
  have lines : (splitLines (c.rewrite folding).text.toList).map String.ofList =
      ((splitLines c.text.toList).map String.ofList).map String.toLower := by
    change (splitLines c.text.toLower.toList).map String.ofList = _
    rw [toList_toLower, splitLines_fold, List.map_map, List.map_map]
    congr 1
    funext line
    exact (ofList_toLower line).symm
  unfold commentPieces
  rw [lines]
  generalize (splitLines c.text.toList).map String.ofList = ls
  cases ls with
  | nil => exact pieces.nil
  | cons l rest =>
    have later := pieces.flatMap (fun l => pieces.append pieces.line (folded_text o l)) rest
    simp only [List.map_cons, List.drop_succ_cons, List.drop_zero, List.flatMap_map]
    exact pieces.append (folded_text o l) later

/-- Nothing of the folding shows in the folded text. -/
theorem hidden_folding : Hidden (SeenAlike String.toLower o) o folding 0 :=
  Unseen.hidden ⟨Piecewise.congruent append_toLower, folded_text o, fun s => .text (quote_fold s),
    folded_comment o, fun _ => rfl, fun _ => rfl⟩ respells_folding

end Pieces

theorem isEmpty_toLower (s : String) : s.toLower.isEmpty = s.isEmpty := by
  have empty : s.toLower = "" ↔ s = "" := by
    rw [← String.toList_inj, ← String.toList_inj, toList_toLower]
    simp
  rw [Bool.eq_iff_iff, String.isEmpty_iff, String.isEmpty_iff, empty]

theorem emit_folding (o : Options) (stmts : List Stmt) :
    (emit o (stmts.map (Stmt.rewrite folding))).toLower = (emit o stmts).toLower := by
  have text : (render o.layout (programPieces o (stmts.map (Stmt.rewrite folding)))).toLower =
      (render o.layout (programPieces o stmts)).toLower := (hidden_folding o).program stmts
  have empty := congrArg String.isEmpty text
  rw [isEmpty_toLower, isEmpty_toLower] at empty
  simp only [emit, empty]
  split
  · rw [append_toLower, append_toLower, text]
  · exact text

end Emit

theorem Parser.trimQuotes_toLower (s : String) :
    (trimQuotes s).toLower = trimQuotes s.toLower := by
  have quote (c : Char) : decide (c.toLower = '"') = decide (c = '"') := by
    simp only [Text.quote_toLower]
  simp only [trimQuotes, toList_toLower, Text.dropWhile_toLower (p := (· = '"')) quote, ofList_toLower,
    ← List.map_reverse]

/-- What is left of a program and its reports when the case of letters is not seen. -/
def Likeness.letters : Likeness (Nat × Severity × Range) where
  text := String.toLower
  range := id
  range' := id
  report d := (d.code, d.severity, d.range)
  report' d := (d.code, d.severity, d.range)
  folded same := same
  joined same same' := by simp only [append_toLower, same, same']
  trimmed same := by rw [Parser.trimQuotes_toLower, same, Parser.trimQuotes_toLower]
  union := @union_id
  empty := @empty_id
  reported notice _ range := by
    simp only [id] at range
    simp only [Diagnostic.of, Diagnostic.ofNotice, notice, range]

theorem Parser.commentRuns_fold (ts : List Token) :
    commentRuns (ts.map (Token.rewrite folding)) = commentRuns ts := by
  have range (t : Token) : (t.rewrite folding).range = t.range.shift 0 := rfl
  exact commentRuns_map (f := Token.rewrite folding) (fun _ => rfl) range ts

/-- Of two texts that differ only in the case of ASCII letters the tokens are of the same kinds, in
the same places and with the same numbers, and they are spelled the same but for the case. So are
the trees in either mode and the texts that are printed from them. The reports of the scanner are
the same, and those of the parser are in code, severity and place. -/
theorem letter_case_ignored {a b : String} (same : a.toLower = b.toLower) :
    (scan a).tokens.map (Token.rewrite folding) = (scan b).tokens.map (Token.rewrite folding) ∧
      (scan a).diagnostics = (scan b).diagnostics ∧
      ∀ mode, let program (text : String) := parse mode (scan text).tokens
        (program a).statements.map (Stmt.rewrite folding) =
            (program b).statements.map (Stmt.rewrite folding) ∧
          (program a).diagnostics.map (fun d => (d.code, d.severity, d.range)) =
            (program b).diagnostics.map (fun d => (d.code, d.severity, d.range)) ∧
          ∀ o, (emit o (program a).statements).toLower = (emit o (program b).statements).toLower := by
  have scans : (scan a).fold = (scan b).fold := by rw [← scan_toLower, same, scan_toLower]
  have tokens : (scan a).tokens.map (Token.rewrite folding) =
      (scan b).tokens.map (Token.rewrite folding) := congrArg Scan.tokens scans
  have problems : (scan a).fold.diagnostics = (scan b).fold.diagnostics := by rw [scans]
  refine ⟨tokens, problems, fun mode => ?_⟩
  have runs : Parser.commentRuns (scan a).tokens = Parser.commentRuns (scan b).tokens := by
    rw [← Parser.commentRuns_fold, tokens, Parser.commentRuns_fold]
  obtain ⟨trees, reports⟩ := parse_alike .letters mode tokens runs rfl
    (fun same => by cases same; rfl)
  refine ⟨trees, reports, fun o => ?_⟩
  rw [← Emit.emit_folding, ← Emit.emit_folding o (parse mode (scan b).tokens).statements]
  exact congrArg (fun stmts => (emit o stmts).toLower) trees

theorem letter_case_ignored_captures :
    "x = IsOk ? M.Load(Name, name) : &hFf".toLower =
        "X = isOk ? m.load(NAME, Name) : &HFF".toLower ∧
      ∀ o, (emit o (parse .brighterScript
            (scan "x = IsOk ? M.Load(Name, name) : &hFf").tokens).statements).toLower =
          (emit o (parse .brighterScript
            (scan "X = isOk ? m.load(NAME, Name) : &HFF").tokens).statements).toLower := by
  have same : "x = IsOk ? M.Load(Name, name) : &hFf".toLower =
      "X = isOk ? m.load(NAME, Name) : &HFF".toLower := by
    apply String.toList_inj.mp
    rw [toList_toLower, toList_toLower]
    decide +kernel
  exact ⟨same, ((letter_case_ignored same).2.2 .brighterScript).2.2⟩

end BrightScript
