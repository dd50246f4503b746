import BrightScript.Proofs.Parser.Counted
import BrightScript.Proofs.Parser.Progress
import BrightScript.Proofs.Token.Faithful

/-! Nothing that a text says is lost in its tree. -/
namespace BrightScript

namespace Parser

theorem Reads.kind_of_statements {g : Grammar} {s s' : State} {stmts : List Stmt}
    (run : Reads (statements g []) s stmts s') (outside : s.functions = 0) :
    s'.kind = .endOfFile := by
  refine Reads.many_induction (motive := fun _ s => s.functions = 0 → s'.kind = .endOfFile)
    (fun s read outside => ?_) (fun s first t more read _ _ ih outside => ?_) run outside
  · exact kind_of_statementRound_none outside read.1
  · exact ih (read.advances.functions.trans outside)

end Parser

theorem contentsFrom_endOfFile {source : String} (quiet : (scan source).diagnostics = [])
    {s : Parser.State} (suffix : s.rest.items <:+ (scan source).tokens)
    (file : s.kind = .endOfFile) (p : Context) : contentsFrom p s.rest.items = [] := by
  cases items : s.rest.items with
  | nil => rfl
  | cons t rest =>
    have kind : t.kind = .endOfFile := by
      simpa [Parser.State.kind, Parser.State.token, Input.head?, items] using file
    obtain ⟨before, split⟩ := suffix
    have words : (scan source).tokens.map Token.word =
        before.map Token.word ++ t.word :: rest.map Token.word := by
      rw [← split, items]
      simp
    obtain rfl : rest = [] := List.map_eq_nil_iff.mp ((spells_of_run quiet).endOfFile words kind)
    simp [contentsFrom, Context.contents, kind, Kind.isValue]

/-- A text that is read without a report keeps all its literals, comments and names in its tree,
each of them once and in the order of the text. -/
theorem parse_contents (mode : Mode) (source : String) (scans : (scan source).diagnostics = [])
    (parses : (parse mode (scan source).tokens).diagnostics = []) :
    stmtsContents (parse mode (scan source).tokens).statements = contents (scan source).tokens ∧
      (stmtsContents (parse mode (scan source).tokens).statements).filter (·.isLiteral) =
        ((scan source).tokens.filter (·.kind.isValue)).map fun t => .literal t.kind t.text := by
  obtain ⟨s, run⟩ := reads_of_quiet parses
  obtain ⟨n, whole, _⟩ := (Parser.counted_unroll _).statements (.inl rfl) (.plain [] _) run
  obtain ⟨_, all⟩ := whole ⟨rfl, faithful_of_scan scans⟩
  have rest := contentsFrom_endOfFile scans run.advances.suffix (run.kind_of_statements rfl) ⟨[], n⟩
  rw [rest, List.append_nil] at all
  have same : stmtsContents (parse mode (scan source).tokens).statements =
      contents (scan source).tokens := all.symm
  exact ⟨same, by rw [same, filter_contents]⟩

/-- `as` and the types, `in`, the name after `next` and the comment among the elements are not
kept; the keyword that names a member is no name. -/
theorem parse_contents_sub :
    let source := "sub f(a as object) 'kept\nfor each x in a\nr = [1 'skipped\n]\nnext x\n" ++
      "m.next = \x7b\"k\": r\x7d\nend sub"
    stmtsContents (parse .brightScript (scan source).tokens).statements =
      [.name "f", .name "a", .comment "'kept", .name "x", .name "a", .name "r",
        .literal .integerLiteral "1", .name "m", .literal .stringLiteral "\"k\"", .name "r"] := by
  intro source
  rw [(parse_contents .brightScript source (by decide +kernel) (by decide +kernel)).1]
  decide +kernel

end BrightScript
