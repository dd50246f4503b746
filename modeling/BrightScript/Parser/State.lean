import BrightScript.Diagnostic
import BrightScript.Input
import BrightScript.Token
import BrightScript.Tree

/-! Parsers and how they run on a state.
A parser ends with a result or without one, and with a state either way, so that what it has
reported and consumed stays visible when it fails. -/
namespace BrightScript

/-- Which language a text is written in. -/
inductive Mode where
  | brightScript
  | brighterScript
  deriving DecidableEq, Repr

namespace Parser

structure State where
  mode : Mode
  /- Where the token list ends; an end-of-file token is taken to stand there. -/
  finish : Position
  rest : Input Token
  diagnostics : List Diagnostic
  /- Open levels of statements, expressions and prefix operators. -/
  nesting : Nat
  /- Open function bodies. -/
  functions : Nat
  /- Set when the statement being read uses syntax that its mode does not allow. -/
  discard : Bool

namespace State

def start (mode : Mode) (tokens : List Token) : State where
  mode
  finish := (tokens.getLast?.map (·.range.stop)).getD .origin
  rest := .ofList tokens
  diagnostics := []
  nesting := 0
  functions := 0
  discard := false

def token (s : State) : Token := s.rest.head?.getD (.endOfFile s.finish)

def kind (s : State) : Kind := s.token.kind

def range (s : State) : Range := s.token.range

/-- The kind `n` tokens ahead. -/
def kindAt (s : State) (n : Nat) : Kind :=
  match s.rest.items[n]? with
  | some t => t.kind
  | none => .endOfFile

/-- The current token as a message quotes it. -/
def found (s : State) : String :=
  match s.kind with
  | .newline | .endOfFile => s.kind.label
  | _ => s.token.text

/-- Consumes this many tokens. -/
def drop (n : Nat) (s : State) : State := { s with rest := s.rest.drop n }

def advance (s : State) : State := s.drop 1

/-- Consumes tokens as long as their kind is one to skip. -/
def skipWhile (skips : Kind → Bool) (s : State) : State :=
  s.drop (s.rest.items.takeWhile fun t => skips t.kind).length

def report (s : State) (p : Problem) (range : Range) : State :=
  { s with diagnostics := s.diagnostics ++ [.of p range] }

def atNesting (s : State) (n : Nat) : State := { s with nesting := n }

def atFunctions (s : State) (n : Nat) : State := { s with functions := n }

def withDiscard (s : State) (b : Bool) : State := { s with discard := b }

/-- The same state with reports made before it. -/
def behind (earlier : List Diagnostic) (s : State) : State :=
  { s with diagnostics := earlier ++ s.diagnostics }

/-- The last token taken on the way from `s` to `s'`. -/
def lastTaken (s s' : State) : Option Token :=
  (s.rest.items.take (s.rest.size - s'.rest.size)).getLast?

def inMode (s : State) (mode : Mode) : State := { s with mode }

def Supported (s : State) : Prop := ∀ d ∈ s.diagnostics, d.code ≠ 1061

def ErrorSince (s s' : State) : Prop :=
  ∃ new, s'.diagnostics = s.diagnostics ++ new ∧ ∃ d ∈ new, d.isError = true

/-- What reading on from `s` may change: tokens are taken from the front, reports are added at
the end, the levels are again what they were, and the mark is only set along with an error and
never taken back. -/
structure Advances (s s' : State) : Prop where
  mode : s'.mode = s.mode
  finish : s'.finish = s.finish
  nesting : s'.nesting = s.nesting
  functions : s'.functions = s.functions
  diagnostics : s.diagnostics <+: s'.diagnostics
  discard : s'.discard = s.discard ∨ s.ErrorSince s'
  marked : s.discard = true → s'.discard = true
  taken : ∃ n, s'.rest = s.rest.drop n

@[simp] theorem drop_zero (s : State) : s.drop 0 = s := by
  have same : s.rest.drop 0 = s.rest := Input.eq_of_items rfl
  simp [drop, same]

theorem drop_drop (n m : Nat) (s : State) : (s.drop n).drop m = s.drop (n + m) := by
  have rest : (s.rest.drop n).drop m = s.rest.drop (n + m) :=
    Input.eq_of_items (by simp [List.drop_drop])
  simp [drop, rest]

namespace ErrorSince

theorem append {a b c : State} (h : a.ErrorSince b) (more : b.diagnostics <+: c.diagnostics) :
    a.ErrorSince c := by
  obtain ⟨new, same, d, mem, error⟩ := h
  obtain ⟨later, rest⟩ := more
  refine ⟨new ++ later, ?_, d, List.mem_append_left _ mem, error⟩
  rw [← rest, same, List.append_assoc]

theorem prepend {a b c : State} (first : a.diagnostics <+: b.diagnostics) (h : b.ErrorSince c) :
    a.ErrorSince c := by
  obtain ⟨earlier, same⟩ := first
  obtain ⟨new, rest, d, mem, error⟩ := h
  refine ⟨earlier ++ new, ?_, d, List.mem_append_right _ mem, error⟩
  rw [rest, ← same, List.append_assoc]

theorem ne {s s' : State} (h : s.ErrorSince s') : s'.diagnostics ≠ s.diagnostics := by
  obtain ⟨new, same, d, mem, _⟩ := h
  intro quiet
  rw [List.append_right_eq_self.mp (same.symm.trans quiet)] at mem
  cases mem

theorem report (s : State) {p : Problem} (range : Range) (error : p.notice.severity = .error) :
    s.ErrorSince (s.report p range) :=
  ⟨_, rfl, _, List.mem_singleton_self _, decide_eq_true error⟩

end ErrorSince

namespace Advances

theorem of_rest {s s' : State} (mode : s'.mode = s.mode) (finish : s'.finish = s.finish)
    (nesting : s'.nesting = s.nesting) (functions : s'.functions = s.functions)
    (diagnostics : s.diagnostics <+: s'.diagnostics)
    (discard : s'.discard = s.discard ∨ s.ErrorSince s')
    (marked : s.discard = true → s'.discard = true) (rest : s'.rest = s.rest) : Advances s s' :=
  ⟨mode, finish, nesting, functions, diagnostics, discard, marked, 0,
    rest.trans (Input.eq_of_items rfl)⟩

theorem refl (s : State) : Advances s s :=
  of_rest rfl rfl rfl rfl (List.prefix_refl _) (.inl rfl) id rfl

theorem trans {a b c : State} (first : Advances a b) (second : Advances b c) : Advances a c := by
  obtain ⟨n, restN⟩ := first.taken
  obtain ⟨m, restM⟩ := second.taken
  refine ⟨second.mode.trans first.mode, second.finish.trans first.finish,
    second.nesting.trans first.nesting, second.functions.trans first.functions,
    first.diagnostics.trans second.diagnostics, ?_, second.marked ∘ first.marked, n + m, ?_⟩
  · rcases first.discard, second.discard with ⟨kept | error, kept' | error'⟩
    · exact .inl (kept'.trans kept)
    · exact .inr (error'.prepend first.diagnostics)
    · exact .inr (error.append second.diagnostics)
    · exact .inr (error.append second.diagnostics)
  · rw [restM, restN]
    exact Input.eq_of_items (by simp [List.drop_drop])

theorem drop (n : Nat) (s : State) : Advances s (s.drop n) :=
  ⟨rfl, rfl, rfl, rfl, List.prefix_refl _, .inl rfl, id, n, rfl⟩

theorem report (s : State) (p : Problem) (range : Range) : Advances s (s.report p range) :=
  of_rest rfl rfl rfl rfl (List.prefix_append _ _) (.inl rfl) id rfl

theorem discard_eq {s s' : State} (h : Advances s s') (quiet : s'.diagnostics = s.diagnostics) :
    s'.discard = s.discard :=
  h.discard.resolve_right fun error => error.ne quiet

theorem supported {s s' : State} (h : Advances s s') (supported : s'.Supported) : s.Supported :=
  fun d mem => supported d (h.diagnostics.subset mem)

end Advances
end State
/-- What one round of a loop comes to. -/
inductive Round (σ α : Type) where
  | again (next : σ)
  | done (result : α)

/- A change to the state that does not depend on the mode, or else reports what is amiss. -/
def State.Impartial (f : State → State) : Prop :=
  ∀ s : State, s.mode = .brightScript → s.discard = false → (f s).Supported →
    (f s).discard = false ∧ f (s.inMode .brighterScript) = (f s).inMode .brighterScript

end Parser

/- A parser is put together from steps that look at the state, change it or fail. Each keeps the
bookkeeping of the state and does not look at what has been reported before. None fails without an
error, unless the statement is to be discarded anyway, and the mode only shows where syntax is
reported that it does not allow. -/
inductive Parser : Type → Type 1 where
  /-- Looks at the state, though not at its reports or its mode. -/
  | inspect {α : Type} (f : Parser.State → α)
      (framed : ∀ earlier (s : Parser.State), f (s.behind earlier) = f s := by intros; rfl)
      (impartial : ∀ mode (s : Parser.State), f (s.inMode mode) = f s := by intros; rfl) : Parser α
  | update (f : Parser.State → Parser.State) (advances : ∀ s : Parser.State, s.Advances (f s))
      (framed : ∀ earlier (s : Parser.State), f (s.behind earlier) = (f s).behind earlier)
      (impartial : Parser.State.Impartial f) : Parser Unit
  | giveUp {α : Type} (f : Parser.State → Parser.State)
      (advances : ∀ s : Parser.State, s.Advances (f s))
      (framed : ∀ earlier (s : Parser.State), f (s.behind earlier) = (f s).behind earlier)
      (loud : ∀ s : Parser.State, s.discard = true ∨ s.ErrorSince (f s))
      (impartial : Parser.State.Impartial f) : Parser α
  /-- Takes the current token as the name of a member or as a key. -/
  | member : Parser Token
  | andThen {α β : Type} (p : Parser α) (f : α → Parser β) : Parser β
  /-- Runs a parser and goes on either way; `none` tells that it failed. One that fails where it
  began has the current token taken. -/
  | attemptPast {α : Type} (p : Parser α) : Parser (Option α)
  /-- Where the first parser fails, runs the second one before it fails as well. -/
  | withCleanup {α : Type} (p : Parser α) (cleanup : Parser Unit) : Parser α
  /-- Reads a node that waits for its range, which goes from the start of `first` to the end of the
  last token that the node takes. -/
  | spanned {α : Type} (first : Range) (p : Parser (Range → α)) : Parser α
  | loop {σ α : Type} (round : σ → Parser (Parser.Round σ α)) (x : σ) : Parser α
  /-- Runs a parser one level deeper, or reports that it would be too deep. -/
  | nested {α : Type} (p : Parser α) : Parser α
  | inFunction {α : Type} (p : Parser α) : Parser α
  /-- Runs a parser with a discard mark of its own, and drops the result if it was set. -/
  | droppable {α : Type} (p : Parser α) : Parser α

namespace Parser

variable {α σ : Type}

instance : Monad Parser where
  pure a := inspect fun _ => a
  bind := andThen

/-- How deep statements, expressions and prefix operators may be nested in each other. -/
def maxNesting : Nat := 200

/- Every round that asks for another one consumes a token. A round that does not would go on for
ever and is refused, as nesting without end is. -/
def loopRun (round : σ → State → Option (Round σ α) × State) (x : σ) (s : State) :
    Option α × State :=
  match round x s with
  | (some (.again y), s') =>
    if s'.rest.size < s.rest.size then loopRun round y s'
    else (none, s'.report .tooDeep s'.range)
  | (some (.done a), s') => (some a, s')
  | (none, s') => (none, s')
termination_by s.rest.size

def run : {α : Type} → Parser α → State → Option α × State
  | _, .inspect f _ _, s => (some (f s), s)
  | _, .update f _ _ _, s => (some (), f s)
  | _, .giveUp f _ _ _ _, s => (none, f s)
  | _, .member, s => (some s.token, s.advance)
  | _, .andThen p f, s =>
    match p.run s with
    | (some a, s') => (f a).run s'
    | (none, s') => (none, s')
  | _, .attemptPast p, s =>
    match p.run s with
    | (some a, s') => (some (some a), s')
    | (none, s') => (some none, if s'.rest.size = s.rest.size then s'.advance else s')
  | _, .withCleanup p cleanup, s =>
    match p.run s with
    | (some a, s') => (some a, s')
    | (none, s') => (none, (cleanup.run s').2)
  | _, .spanned first p, s =>
    match p.run s with
    | (some node, s') =>
      (some (node ((s.lastTaken s').elim first fun last => first.union last.range)), s')
    | (none, s') => (none, s')
  | _, .loop round x, s => loopRun (fun y => (round y).run) x s
  | _, .nested p, s =>
    if maxNesting ≤ s.nesting then (none, s.report .tooDeep s.range)
    else
      let (result, s') := p.run (s.atNesting (s.nesting + 1))
      (result, s'.atNesting (s'.nesting - 1))
  | _, .inFunction p, s =>
    let (result, s') := p.run (s.atFunctions (s.functions + 1))
    (result, s'.atFunctions (s'.functions - 1))
  | _, .droppable p, s =>
    let (result, s') := p.run (s.withDiscard false)
    (if s'.discard then none else result, s'.withDiscard s.discard)

attribute [grind =] run

theorem run_bind {β : Type} (p : Parser α) (f : α → Parser β) (s : State) :
    (p >>= f).run s =
      match p.run s with
      | (some a, s') => (f a).run s'
      | (none, s') => (none, s') := by
  change (p.andThen f).run s = _
  rw [run]

theorem run_attemptPast (p : Parser α) (s : State) :
    (attemptPast p).run s =
      match p.run s with
      | (some a, s') => (some (some a), s')
      | (none, s') => (some none, if s'.rest.size = s.rest.size then s'.advance else s') := by
  rw [run]

theorem run_withCleanup (p : Parser α) (cleanup : Parser Unit) (s : State) :
    (withCleanup p cleanup).run s =
      match p.run s with
      | (some a, s') => (some a, s')
      | (none, s') => (none, (cleanup.run s').2) := by
  rw [run]

theorem run_spanned (first : Range) (p : Parser (Range → α)) (s : State) :
    (spanned first p).run s =
      match p.run s with
      | (some node, s') =>
        (some (node ((s.lastTaken s').elim first fun last => first.union last.range)), s')
      | (none, s') => (none, s') := by
  rw [run]

theorem run_loop (round : σ → Parser (Round σ α)) (x : σ) (s : State) :
    (loop round x).run s =
      match (round x).run s with
      | (some (.again y), s') =>
        if s'.rest.size < s.rest.size then (loop round y).run s'
        else (none, s'.report .tooDeep s'.range)
      | (some (.done a), s') => (some a, s')
      | (none, s') => (none, s') := by
  rw [run, loopRun]
  simp only [run]

def token : Parser Token := inspect State.token

def kind : Parser Kind := inspect State.kind

def here : Parser Range := inspect State.range

def take (n : Nat) : Parser Unit :=
  update (State.drop n) (State.Advances.drop n) (fun _ _ => rfl) fun _ _ unmarked _ =>
    ⟨unmarked, rfl⟩

def advance : Parser Unit := take 1

def skipWhile (skips : Kind → Bool) : Parser Unit :=
  update (State.skipWhile skips) (fun s => State.Advances.drop _ s) (fun _ _ => rfl)
    fun _ _ unmarked _ => ⟨unmarked, rfl⟩

def skipNewlines : Parser Unit := skipWhile (· = .newline)

theorem State.report_behind (earlier : List Diagnostic) (s : State) (p : Problem) (range : Range) :
    (s.behind earlier).report p range = (s.report p range).behind earlier := by
  simp [State.report, State.behind]

def report (p : Problem) (range : Range) : Parser Unit :=
  update (State.report · p range) (State.Advances.report · p range)
    (fun earlier s => s.report_behind earlier p range) fun _ _ unmarked _ => ⟨unmarked, rfl⟩

/-- Reports at the current token, which the message may quote. -/
def reportHere (problem : String → Problem) : Parser Unit :=
  update (fun s => s.report (problem s.found) s.range) (fun _ => State.Advances.report _ _ _)
    (fun earlier s => s.report_behind earlier _ _) fun _ _ unmarked _ => ⟨unmarked, rfl⟩

/-- Reports an error at the current token and fails. -/
def refuse (problem : String → Problem)
    (error : ∀ found, (problem found).notice.severity = .error := by
      intro; exact Severity.eq_error rfl) : Parser α :=
  giveUp (fun s => s.report (problem s.found) s.range) (fun _ => State.Advances.report _ _ _)
    (fun earlier s => s.report_behind earlier _ _) (fun s => .inr (.report s _ (error _)))
    fun _ _ unmarked _ => ⟨unmarked, rfl⟩

def refuseAt (p : Problem) (range : Range)
    (error : p.notice.severity = .error := by exact Severity.eq_error rfl) : Parser α :=
  giveUp (State.report · p range) (State.Advances.report · p range)
    (fun earlier s => s.report_behind earlier p range) (fun s => .inr (.report s _ error))
    fun _ _ unmarked _ => ⟨unmarked, rfl⟩

/-- Reports an error at the current token, takes it and fails. -/
def refusePast (problem : String → Problem)
    (error : ∀ found, (problem found).notice.severity = .error := by
      intro; exact Severity.eq_error rfl) : Parser α :=
  giveUp (fun s => (s.report (problem s.found) s.range).advance)
    (fun s => (State.Advances.report s _ _).trans (State.Advances.drop 1 _))
    (fun earlier s => congrArg State.advance (s.report_behind earlier _ _))
    (fun s => .inr (.report s _ (error _))) fun _ _ unmarked _ => ⟨unmarked, rfl⟩

def tooDeep : Parser α := refuse fun _ => .tooDeep

def isAt (k : Kind) : Parser Bool := inspect fun s => s.kind = k

/-- Consumes a token of this kind if one is next. -/
def accept (k : Kind) : Parser Bool := do
  if ← isAt k then
    advance
    pure true
  else pure false

theorem expectedKind_isError (k : Kind) (found : String) :
    (Problem.expectedToken k.label found).notice.severity = .error := rfl

def expect (k : Kind) : Parser Unit := do
  unless ← accept k do
    refuse (.expectedToken k.label) (expectedKind_isError k)

/-- Reads a node that starts at the current token. -/
def ranged (p : Parser (Range → α)) : Parser α := do
  let first ← here
  spanned first p

/-- Consumes the current token as a name. -/
def takeIdent : Parser Ident := do
  let t ← token
  advance
  pure ⟨t.text, t.range⟩

/-- Whether the next token is a name with this spelling, such as `as` or `in`. -/
def atName (word : String) : Parser Bool :=
  inspect fun s => s.kind = .identifier && Text.sameWord s.token.text word

/- What has been found so far stands in reverse. -/
def manyRound (round : Parser (Option (List α))) (found : List α) :
    Parser (Round (List α) (List α)) := do
  match ← round with
  | some more => pure (.again (more.reverse ++ found))
  | none => pure (.done found.reverse)

/-- Collects what the rounds give, up to the first that gives `none`. -/
def many (round : Parser (Option (List α))) : Parser (List α) := loop (manyRound round) []

end Parser
end BrightScript
