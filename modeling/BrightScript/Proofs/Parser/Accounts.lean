import BrightScript.Proofs.Parser.Inversion
import BrightScript.Proofs.Token.Contents

/-! What the tokens between two states of a run keep.
`Accounts p s cs p' s'` says that the tokens from `s` to `s'`, read in the context `p`, keep exactly
`cs` and lead to the context `p'`. -/
namespace BrightScript

variable {k : Kind} {fs : List Enclosure}

namespace Mark

/- A keyword that follows is itself, and a name is one unless the context skips it. -/
def isLoose : Mark → Bool
  | plain | operand | headerEnd | next => true
  | _ => false

theorem takesWord_of_isLoose {m : Mark} (h : m.isLoose = true) : m.takesWord = false := by
  cases m <;> first | rfl | cases h

end Mark

/-- Where an expression or a statement may begin with this token. -/
structure Starts (p : Context) (t : Token) : Prop where
  loose : p.mark.isLoose = true
  kept : t.kind = .identifier → p.skips t = false

namespace Starts

variable {p : Context} {t : Token}

theorem plain (fs : List Enclosure) (t : Token) : Starts ⟨fs, .plain⟩ t :=
  ⟨rfl, fun _ => by simp [Context.skips, Context.opensType]⟩

theorem operand (other : fs.head? ≠ some .header) (t : Token) : Starts ⟨fs, .operand⟩ t :=
  ⟨rfl, fun _ => by simp [Context.skips, Context.opensType, other]⟩

theorem either {m : Mark} (other : fs.head? ≠ some .header) (mark : m = .plain ∨ m = .operand)
    (t : Token) : Starts ⟨fs, m⟩ t := by
  rcases mark with rfl | rfl
  · exact plain fs t
  · exact operand other t

theorem of_ne (loose : p.mark.isLoose = true) (other : t.kind ≠ .identifier) : Starts p t :=
  ⟨loose, fun same => absurd same other⟩

theorem takesWord (h : Starts p t) : p.mark.takesWord = false :=
  Mark.takesWord_of_isLoose h.loose

theorem afterName (h : Starts p t) (name : t.kind = .identifier) : p.afterName t = .operand := by
  have loose := h.loose
  have kept := h.kept name
  unfold Context.afterName
  cases mark : p.mark <;> simp_all [Context.skips, Mark.isLoose]

end Starts

def Kind.isKept : Kind → Bool
  | identifier | comment | endOfFile => true
  | k => k.isValue

theorem Kind.ne_endOfFile_of_isWord (h : k.isWord = true) : k ≠ .endOfFile := by
  rintro rfl
  cases h

namespace Parser

variable {g : Grammar} {p p' p'' : Context} {s s' s'' : State} {cs cs' : List Content} {m n : Mark}

def State.Faithful (s : State) : Prop := s.discard = false ∧ ∀ t ∈ s.rest.items, t.Faithful

def Accounts (p : Context) (s : State) (cs : List Content) (p' : Context) (s' : State) : Prop :=
  s.Faithful → s'.Faithful ∧ contentsFrom p s.rest.items = cs ++ contentsFrom p' s'.rest.items

namespace Accounts

theorem refl (p : Context) (s : State) : Accounts p s [] p s := fun h => ⟨h, rfl⟩

theorem trans (first : Accounts p s cs p' s') (second : Accounts p' s' cs' p'' s'') :
    Accounts p s (cs ++ cs') p'' s'' := by
  intro faithful
  obtain ⟨faithful', here⟩ := first faithful
  obtain ⟨faithful'', later⟩ := second faithful'
  exact ⟨faithful'', by rw [here, later, List.append_assoc]⟩

theorem skip (first : Accounts p s [] p' s') (second : Accounts p' s' cs p'' s'') :
    Accounts p s cs p'' s'' := first.trans second

theorem before (first : Accounts p s cs p' s') (second : Accounts p' s' [] p'' s'') :
    Accounts p s cs p'' s'' := by
  have whole := first.trans second
  rwa [List.append_nil] at whole

theorem cast (h : Accounts p s cs p' s') (same : cs = cs') : Accounts p s cs' p' s' := same ▸ h

theorem at_ (h : Accounts p s cs p' s') (same : p' = p'') : Accounts p s cs p'' s' := same ▸ h

theorem token (more : s.kind ≠ .endOfFile) (kept : s.token.Faithful → p.contents s.token = cs) :
    Accounts p s cs (p.step s.token) (s.drop 1) := by
  rintro ⟨unmarked, tokens⟩
  have items := State.items_eq more
  refine ⟨⟨unmarked, fun t mem => tokens t (items ▸ List.mem_cons_of_mem _ mem)⟩, ?_⟩
  rw [items, contentsFrom, kept (tokens _ (State.token_mem more))]

theorem pass (here : s.kind = k) (plain : k.isKept = false)
    (free : (k.isWord && p.mark.takesWord) = false) : Accounts p s [] (p.pass k) (s.drop 1) := by
  have kind : s.token.kind = k := here
  have other : k ≠ .identifier ∧ k ≠ .comment ∧ k ≠ .endOfFile ∧ k.isValue = false := by
    revert plain
    cases k <;> decide
  refine (token (here ▸ other.2.2.1) fun _ => ?_).at_ ?_
  · rw [Context.contents, kind]
    split
    · exact absurd rfl other.2.1
    · exact absurd rfl other.1
    · rw [other.2.2.2]
      rfl
  · rw [Context.step, kind, free, if_neg Bool.false_ne_true, if_neg other.1]

theorem punctuation (here : s.kind = k) (plain : (k.isKept || k.isWord) = false) :
    Accounts p s [] (p.pass k) (s.drop 1) := by
  obtain ⟨plain, mark⟩ := Bool.or_eq_false_iff.mp plain
  exact pass here plain (by rw [mark, Bool.false_and])

theorem keyword (here : s.kind = k) (plain : k.isKept = false) (loose : p.mark.isLoose = true) :
    Accounts p s [] (p.pass k) (s.drop 1) :=
  pass here plain (by rw [Mark.takesWord_of_isLoose loose, Bool.and_false])

theorem name (here : s.kind = .identifier) (free : p.mark.takesWord = false)
    (kept : p.skips s.token = false) :
    Accounts p s (nameContents s.token.text) ⟨p.around, p.afterName s.token⟩ (s.drop 1) := by
  have kind : s.token.kind = .identifier := here
  have word : s.token.kind.isWord = true := by rw [kind]; rfl
  refine (token (by rw [here]; decide) fun faithful => ?_).at_ ?_
  · rw [faithful.nameContents_eq word, Context.contents_of_isWord word, if_pos ⟨kind, kept⟩,
      if_pos kind]
  · rw [Context.step, free, Bool.and_false, if_neg Bool.false_ne_true, if_pos kind]

theorem operandName (here : s.kind = .identifier) (starts : Starts p s.token) :
    Accounts p s (nameContents s.token.text) ⟨p.around, .operand⟩ (s.drop 1) := by
  rw [← starts.afterName here]
  exact name here starts.takesWord (starts.kept here)

theorem skipped (here : s.kind = .identifier) (free : p.mark.takesWord = false)
    (skips : p.skips s.token = true) :
    Accounts p s [] ⟨p.around, p.afterName s.token⟩ (s.drop 1) := by
  have kind : s.token.kind = .identifier := here
  refine (token (by rw [here]; decide) fun _ => ?_).at_ ?_
  · rw [Context.contents_of_isWord (by rw [kind]; rfl), if_neg (by simp [skips])]
  · rw [Context.step, free, Bool.and_false, if_neg Bool.false_ne_true, if_pos kind]

theorem word (word : s.token.kind.isWord = true) (mark : p.mark = .dot ∨ p.mark = .entry) :
    Accounts p s (nameContents s.token.text) ⟨p.around, .operand⟩ (s.drop 1) := by
  have takes : p.mark.takesWord = true ∧ p.mark ≠ .as_ ∧ p.skips s.token = false := by
    rcases mark with mark | mark <;> simp [Context.skips, Context.opensType, mark, Mark.takesWord]
  refine (token (Kind.ne_endOfFile_of_isWord word) fun faithful => ?_).at_ ?_
  · rw [faithful.nameContents_eq word, Context.contents_of_isWord word]
    simp [takes.2.2]
  · rw [Context.step, word, takes.1, if_neg takes.2.1]
    rfl

theorem type (word : s.token.kind.isWord = true) (mark : p.mark = .as_) :
    Accounts p s [] ⟨p.around, .plain⟩ (s.drop 1) := by
  refine (token (Kind.ne_endOfFile_of_isWord word) fun _ => ?_).at_ ?_
  · rw [Context.contents_of_isWord word, if_neg (by simp [Context.skips, mark])]
  · rw [Context.step, word, mark]
    rfl

theorem literal (literal : s.token.kind.isLiteral = true) (loose : p.mark.isLoose = true) :
    Accounts p s (Literal.contents ⟨s.token.kind, s.token.text, s.token.range⟩)
      ⟨p.around, .operand⟩ (s.drop 1) := by
  have other : s.token.kind ≠ .comment ∧ s.token.kind ≠ .endOfFile ∧
      s.token.kind ≠ .identifier ∧ p.pass s.token.kind = ⟨p.around, .operand⟩ := by
    unfold Kind.isLiteral at literal
    split at literal
    all_goals first | cases literal; done | (simp only [*]; exact ⟨by decide, by decide, by decide, rfl⟩)
  refine (token other.2.1 fun _ => ?_).at_ ?_
  · rw [Context.contents]
    split
    · exact absurd ‹_› other.1
    · exact absurd ‹_› other.2.2.1
    · rfl
  · rw [Context.step, Mark.takesWord_of_isLoose loose, Bool.and_false, if_neg Bool.false_ne_true,
      if_neg other.2.2.1, other.2.2.2]

theorem remark (here : s.token.kind = .comment) :
    Accounts p s (if p.around.head? = some .square then []
      else Comment.contents ⟨s.token.text, s.token.range⟩) (p.pass .comment) (s.drop 1) := by
  refine (token (by rw [State.kind, here]; decide) fun faithful => ?_).at_ ?_
  · rw [Context.contents, here, Comment.contents, Emit.splitLines_line (faithful.line here)]
    simp
  · rw [Context.step, here]
    rfl

theorem key {key : String} {quoted : Bool} (run : Reads memberKey s (key, quoted) s')
    (mark : p.mark = .entry) :
    Accounts p s (keyContents key quoted) ⟨p.around, .operand⟩ (s.drop 1) := by
  obtain ⟨_, ⟨string, rfl, value⟩ | ⟨_, isWord, rfl, rfl⟩⟩ := run.memberKey_inv
  · have kind : s.token.kind = .stringLiteral := string
    refine (token (by rw [string]; decide) fun faithful => ?_).at_ ?_
    · obtain ⟨text, found, spelled⟩ := faithful.string kind
      obtain rfl : text = key := by
        rcases value with value | ⟨none, _⟩
        · simpa [found] using value
        · exact absurd found (none text)
      rw [Context.contents, kind, spelled]
      rfl
    · rw [Context.step, kind]
      rfl
  · exact word isWord (.inr mark)

theorem skipWhile (skips : Kind → Bool) (file : skips .endOfFile = false)
    (each : ∀ m t, skips t.kind = true → Context.contents ⟨fs, m⟩ t = [] ∧
      Context.step ⟨fs, m⟩ t = ⟨fs, n⟩) :
    Accounts ⟨fs, m⟩ s [] ⟨fs, if skips s.kind then n else m⟩ (s.skipWhile skips) := by
  rintro ⟨unmarked, tokens⟩
  have rest : (s.skipWhile skips).rest.items = s.rest.items.dropWhile (skips ·.kind) :=
    Input.items_skipWhile (fun t : Token => skips t.kind) s.rest
  have head : s.rest.items.head?.any (skips ·.kind) = skips s.kind := by
    unfold State.kind State.token Input.head?
    cases s.rest.items with
    | nil => exact file.symm
    | cons t items => rfl
  refine ⟨⟨unmarked, fun t mem => tokens t ?_⟩, ?_⟩
  · rw [rest] at mem
    exact (List.dropWhile_suffix _).subset mem
  · rw [rest, contentsFrom_dropWhile each, head, List.nil_append]

theorem newlines (fs : List Enclosure) (m : Mark) (s : State) :
    Accounts ⟨fs, m⟩ s []
      ⟨fs, if s.kind = .newline then (if fs.head? = some .curly then .entry else .plain) else m⟩
      (s.skipWhile (· = .newline)) := by
  have whole := skipWhile (m := m) (n := if fs.head? = some .curly then .entry else .plain) (s := s)
    (fun k => k = .newline) rfl fun m t skip => by
      have kind : t.kind = .newline := of_decide_eq_true skip
      exact ⟨by rw [Context.contents, kind]; rfl, by rw [Context.step, kind]; rfl⟩
  simpa only [decide_eq_true_eq] using whole

theorem newlines_plain (other : fs.head? ≠ some .curly) (s : State) :
    Accounts ⟨fs, .plain⟩ s [] ⟨fs, .plain⟩ (s.skipWhile (· = .newline)) := by
  have whole := newlines fs .plain s
  rwa [if_neg other, ite_self] at whole

theorem gap (fs : List Enclosure) (m : Mark) (s : State) :
    Accounts ⟨.square :: fs, m⟩ s []
      ⟨.square :: fs, if s.kind = .newline ∨ s.kind = .comment then .plain else m⟩
      (s.skipWhile fun k => k = .newline || k = .comment) := by
  have whole := skipWhile (m := m) (n := .plain) (s := s) (fun k => k = .newline || k = .comment) rfl
    fun m t skip => by
      have kind : t.kind = .newline ∨ t.kind = .comment := by simpa using skip
      have both : Context.contents ⟨.square :: fs, m⟩ t = [] ∧
          Context.step ⟨.square :: fs, m⟩ t = ⟨.square :: fs, .plain⟩ := by
        rcases kind with kind | kind <;>
          exact ⟨by rw [Context.contents, kind]; rfl, by rw [Context.step, kind]; rfl⟩
      exact both
  simpa only [Bool.or_eq_true, decide_eq_true_eq] using whole

end Accounts
end Parser
end BrightScript
