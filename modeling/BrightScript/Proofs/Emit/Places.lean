import BrightScript.Proofs.Emit.Fits
import BrightScript.Proofs.Emit.Rebinding
import BrightScript.Proofs.Emit.Rewrite
import BrightScript.Proofs.Tree.Nodes

/-! Conditionals in their places.
What is printed around a conditional does not depend on it: if conditionals are exchanged for others,
a text changes only where the outermost of them stand, and there it has them once each and in order.
In the same way the text of a conditional has the texts of its operands in it. Around them stand
names only. -/
namespace BrightScript.Emit

variable {o : Options}

/-- New operands for the conditionals of a tree. -/
abbrev Exchange := (test consequent alternate test' consequent' alternate' : Expr) → Range →
  Expr × Expr × Expr

def exchanging (x : Exchange) : Rewriting where
  conditional test consequent alternate test' consequent' alternate' range :=
    let (first, second, third) := x test consequent alternate test' consequent' alternate' range
    .conditional first second third range

def Exchange.keep : Exchange :=
  fun _ _ _ test' consequent' alternate' _ => (test', consequent', alternate')

def exprText (o : Options) (level : Nat) (e : Expr) : String :=
  render o.layout (exprPieces o level e)

/-- A text that has these conditionals in it once each and in order, for each exchange. What stands
between them is the same for all. -/
inductive Woven (o : Options) : List Expr → (Exchange → String) → Prop where
  | none (text : String) : Woven o [] fun _ => text
  | cons (gap : String) (level : Nat) {e : Expr} (conditional : e.isConditional = true)
      {later : List Expr} {after : Exchange → String} (behind : Woven o later after) :
      Woven o (e :: later)
        fun x => gap ++ (exprText o level (e.rewrite (exchanging x)) ++ after x)

namespace Woven

variable {es fs : List Expr} {f g : Exchange → String}

theorem behind (h : Woven o es f) (before : String) : Woven o es fun x => before ++ f x := by
  cases h with
  | none text => exact .none _
  | cons gap level conditional later =>
    have longer := Woven.cons (before ++ gap) level conditional later
    simpa only [String.append_assoc] using longer

theorem append (first : Woven o es f) (last : Woven o fs g) :
    Woven o (es ++ fs) fun x => f x ++ g x := by
  induction first with
  | none text => exact last.behind text
  | cons gap level conditional _ ih =>
    simpa only [String.append_assoc, List.cons_append] using Woven.cons gap level conditional ih

theorem isConditional_of_mem (h : Woven o es f) {e : Expr} (mem : e ∈ es) :
    e.isConditional = true := by
  induction h with
  | none => cases mem
  | cons _ _ conditional _ ih =>
    rcases List.mem_cons.mp mem with rfl | mem
    · exact conditional
    · exact ih mem

theorem exists_place (h : Woven o es f) {e : Expr} (mem : e ∈ es) (x : Exchange) :
    ∃ before level after,
      f x = before ++ exprText o level (e.rewrite (exchanging x)) ++ after := by
  induction h with
  | none => cases mem
  | @cons gap level e' _ _ after _ ih =>
    rcases List.mem_cons.mp mem with rfl | mem
    · exact ⟨gap, level, after x, (String.append_assoc ..).symm⟩
    · obtain ⟨before, level', rest, same⟩ := ih mem
      refine ⟨gap ++ exprText o level (e'.rewrite (exchanging x)) ++ before, level', rest, ?_⟩
      simp only [same, String.append_assoc]

end Woven

/-- The outermost of the conditionals among these nodes. -/
def Outermost (nodes conditionals : List Expr) : Prop :=
  nodes.filter Expr.isConditional = conditionals.flatMap fun e => e.nodes.filter Expr.isConditional

/-- At every level the same conditionals are woven in, and they are those of the nodes. -/
def WovenIn (o : Options) (nodes : List Expr) (print : Exchange → Printing) : Prop :=
  ∃ conditionals, Outermost nodes conditionals ∧
    ∀ level, Woven o conditionals fun x => render o.layout (print x level)

namespace WovenIn

variable {es fs : List Expr} {f g : Exchange → Printing}

theorem words (print : Printing) : WovenIn o [] fun _ => print :=
  ⟨[], rfl, fun _ => .none _⟩

theorem append (first : WovenIn o es f) (last : WovenIn o fs g) :
    WovenIn o (es ++ fs) fun x level => f x level ++ g x level := by
  obtain ⟨as, outermost, woven⟩ := first
  obtain ⟨bs, outermost', woven'⟩ := last
  refine ⟨as ++ bs, ?_, fun level => ?_⟩
  · rw [Outermost, List.filter_append, List.flatMap_append, outermost, outermost']
  · simpa only [render_append] using (woven level).append (woven' level)

theorem behind (h : WovenIn o es g) (print : Printing) :
    WovenIn o es fun x level => print level ++ g x level := (words print).append h

theorem before (h : WovenIn o es f) (print : Printing) :
    WovenIn o es fun x level => f x level ++ print level := by
  have whole := h.append (words print)
  rwa [List.append_nil] at whole

theorem indented (h : WovenIn o es f) : WovenIn o es fun x level => f x (level + 1) := by
  obtain ⟨conditionals, outermost, woven⟩ := h
  exact ⟨conditionals, outermost, fun level => woven (level + 1)⟩

theorem node (h : WovenIn o es f) {e : Expr} (other : e.isConditional = false) :
    WovenIn o (e :: es) f := by
  obtain ⟨conditionals, outermost, woven⟩ := h
  refine ⟨conditionals, ?_, woven⟩
  rwa [Outermost, List.filter_cons_of_neg (by simp [other])]

end WovenIn

def ExprWoven (o : Options) (e : Expr) : Prop :=
  WovenIn o e.nodes fun x level => exprPieces o level (e.rewrite (exchanging x))

def StmtWoven (o : Options) (s : Stmt) : Prop :=
  WovenIn o s.nodes fun x level => stmtPieces o level (s.rewrite (exchanging x))

theorem exprWoven_conditional (test consequent alternate : Expr) (r : Range) :
    ExprWoven o (.conditional test consequent alternate r) := by
  refine ⟨[.conditional test consequent alternate r], (List.flatMap_singleton ..).symm,
    fun level => ?_⟩
  have one := Woven.cons (o := o) "" level (e := .conditional test consequent alternate r) rfl
    (.none "")
  simpa only [exprText, String.append_empty, String.empty_append] using one

theorem woven_exprs {es : List Expr} (each : ∀ e ∈ es, ExprWoven o e) :
    WovenIn o (exprsNodes es) fun x level => exprsPieces o level (exprsRewrite (exchanging x) es) := by
  induction es with
  | nil => exact .words fun _ => []
  | cons e rest ih =>
    obtain ⟨first, later⟩ := List.forall_mem_cons.mp each
    cases rest with
    | nil =>
      rw [exprsNodes, exprsNodes, List.append_nil]
      exact first
    | cons e' rest => exact (first.before fun _ => [.text ", "]).append (ih later)

theorem woven_members {ms : List (Member Expr)}
    (each : ∀ p, Member.property p ∈ ms → ExprWoven o p.value) :
    WovenIn o (membersNodes ms)
      fun x level => membersPieces o level (membersRewrite (exchanging x) ms) := by
  induction ms with
  | nil => exact .words fun _ => []
  | cons m rest ih =>
    have later := ih fun p mem => each p (List.mem_cons_of_mem _ mem)
    cases m with
    | property p =>
      have value := each p List.mem_cons_self
      obtain ⟨key, quoted, _, _⟩ := p
      exact (value.behind fun level =>
        [.line level, .text (if quoted then quote key else key), .text ": "]).append later
    | comment c => exact later.behind fun level => [.line level] ++ commentPieces level c

theorem woven_parameter {p : Parameter Expr} (each : ∀ e ∈ p.fallback, ExprWoven o e) :
    WovenIn o (optionNodes p.fallback)
      fun x level => parameterPieces o level (parameterRewrite (exchanging x) p) := by
  obtain ⟨name, type, _ | e, _⟩ := p
  · exact .words fun _ => [.text name.name] ++ [] ++ asPieces .dynamic type
  · exact (((each e rfl).behind fun _ => [.text " = "]).behind fun _ => [.text name.name]).before
      fun _ => asPieces .dynamic type

theorem woven_parameters {ps : List (Parameter Expr)}
    (each : ∀ p ∈ ps, ∀ e ∈ p.fallback, ExprWoven o e) :
    WovenIn o (parametersNodes ps)
      fun x level => parametersPieces o level (parametersRewrite (exchanging x) ps) := by
  induction ps with
  | nil => exact .words fun _ => []
  | cons p rest ih =>
    obtain ⟨first, later⟩ := List.forall_mem_cons.mp each
    have first := woven_parameter first
    obtain ⟨_, _, _, _⟩ := p
    cases rest with
    | nil =>
      rw [parametersNodes, parametersNodes, List.append_nil]
      exact first
    | cons p' rest => exact (first.before fun _ => [.text ", "]).append (ih later)

theorem woven_items {is : List (PrintItem Expr)}
    (each : ∀ e, PrintItem.expression e ∈ is → ExprWoven o e) :
    WovenIn o (itemsNodes is)
      fun x level => itemsPieces o level (itemsRewrite (exchanging x) is) := by
  induction is with
  | nil => exact .words fun _ => []
  | cons i rest ih =>
    have later := ih fun e mem => each e (List.mem_cons_of_mem _ mem)
    cases i with
    | expression e => exact ((each e List.mem_cons_self).behind fun _ => [.text " "]).append later
    | separator kind => exact later.behind fun _ => [.text kind.label]

theorem lead_exchanging (x : Exchange) (level line : Nat) (s : Stmt) :
    lead level line (s.rewrite (exchanging x)) = lead level line s := by
  cases s <;> rfl

theorem stop_exchanging (x : Exchange) (s : Stmt) :
    (s.rewrite (exchanging x)).range.stop.line = s.range.stop.line := by
  rw [Stmt.range_rewrite fun _ _ _ _ _ _ _ => rfl]
  rfl

theorem woven_body {ss : List Stmt} (each : ∀ s ∈ ss, StmtWoven o s) (line : Nat) :
    WovenIn o (stmtsNodes ss)
      fun x level => bodyPieces o level line (stmtsRewrite (exchanging x) ss) := by
  induction ss generalizing line with
  | nil => exact .words fun _ => []
  | cons s rest ih =>
    obtain ⟨first, later⟩ := List.forall_mem_cons.mp each
    simp only [stmtsRewrite, bodyPieces, lead_exchanging, stop_exchanging]
    exact (first.behind (lead · line s)).append (ih later _)

theorem woven_block {b : Block Stmt} (each : b.All (StmtWoven o)) :
    WovenIn o (blockNodes b) fun x level =>
      bodyPieces o (level + 1) b.range.start.line (stmtsRewrite (exchanging x) b.statements) := by
  obtain ⟨_, range⟩ := b
  exact (woven_body each range.start.line).indented

theorem woven_inline {ss : List Stmt} (each : ∀ s ∈ ss, StmtWoven o s) :
    WovenIn o (stmtsNodes ss)
      fun x level => inlinePieces o level (stmtsRewrite (exchanging x) ss) := by
  induction ss with
  | nil => exact .words fun _ => []
  | cons s rest ih =>
    obtain ⟨first, later⟩ := List.forall_mem_cons.mp each
    cases rest with
    | nil =>
      rw [stmtsNodes, stmtsNodes, List.append_nil]
      exact first
    | cons s' rest => exact (first.before fun _ => [.text " : "]).append (ih later)

theorem woven_elseIfs {es : List (ElseIf Expr Stmt)}
    (each : ∀ e ∈ es, ExprWoven o e.condition ∧ e.body.All (StmtWoven o)) :
    WovenIn o (elseIfsNodes es)
        (fun x level => elseIfsPieces o level (elseIfsRewrite (exchanging x) es)) ∧
      WovenIn o (elseIfsNodes es)
        fun x level => inlineElseIfsPieces o level (elseIfsRewrite (exchanging x) es) := by
  induction es with
  | nil => exact ⟨.words fun _ => [], .words fun _ => []⟩
  | cons e rest ih =>
    obtain ⟨⟨test, stmts⟩, later⟩ := List.forall_mem_cons.mp each
    obtain ⟨_, ⟨_, _⟩, _⟩ := e
    obtain ⟨more, more'⟩ := ih later
    constructor
    · exact ((((test.behind fun level => [.line level, .text "else if "]).before
        fun _ => [.text " then"]).append (woven_block stmts)).append more)
    · exact ((((test.behind fun _ => [.text " else if "]).before
        fun _ => [.text " then "]).append (woven_inline stmts)).append more')

theorem woven_function {f : Function Expr Stmt} (each : f.All (ExprWoven o) (StmtWoven o))
    (name : Option String) :
    WovenIn o (functionNodes f)
      fun x level => functionPieces o level name (functionRewrite (exchanging x) f) := by
  obtain ⟨isSub, _, returns, ⟨_, _⟩, _⟩ := f
  have whole (title : List Piece) := (((((woven_parameters each.1).behind fun _ =>
    [.text (if isSub then "sub" else "function")] ++ title ++ [.text "("]).before
      fun _ => [.text ")"]).before
      fun _ => asPieces (if isSub then .void else .dynamic) returns).append
      (woven_block each.2)).before
      fun level => [.line level, .text (if isSub then "end sub" else "end function")]
  cases name with
  | none => exact whole []
  | some name => exact whole [.text " ", .text name]

/-- Everything is woven from its parts, in the order in which they are printed. -/
theorem hereditary_woven (o : Options) : Hereditary (ExprWoven o) (StmtWoven o) where
  literal l := (WovenIn.words fun _ => [.text l.text]).node rfl
  var name := (WovenIn.words fun _ => [.text name.name]).node rfl
  dotted _ name _ ih := (ih.before fun _ => [.text ".", .text name.name]).node rfl
  indexed _ _ _ ih ih' :=
    (((ih.before fun _ => [.text "["]).append ih').before fun _ => [.text "]"]).node rfl
  call _ _ _ ih inner :=
    (((ih.before fun _ => [.text "("]).append (woven_exprs inner)).before fun _ => [.text ")"]).node rfl
  array _ _ inner :=
    (((woven_exprs inner).behind fun _ => [.text "["]).before fun _ => [.text "]"]).node rfl
  assoc ms _ inner := by
    cases ms with
    | nil => exact (WovenIn.words fun _ => [.text "\x7b\x7d"]).node rfl
    | cons =>
      exact (((woven_members inner).indented.behind fun _ => [.text "\x7b"]).before
        fun level => [.line level, .text "\x7d"]).node rfl
  binary operator _ _ _ ih ih' :=
    ((ih.before fun _ => [.text " ", .text operator.text, .text " "]).append ih').node rfl
  unary operator operand r ih := by
    have sign (x : Exchange) : startsWithSign (operand.rewrite (exchanging x)) =
        startsWithSign operand := by
      cases operand <;> rfl
    simp only [ExprWoven, Expr.rewrite, exprPieces, sign]
    exact (ih.behind fun _ => [Piece.text operator.text] ++
      if operator.kind = .not_ || startsWithSign operand then [.text " "] else []).node
        (e := .unary operator operand r) rfl
  group _ _ ih := ((ih.behind fun _ => [.text "("]).before fun _ => [.text ")"]).node rfl
  function _ inner := (woven_function inner none).node rfl
  conditional _ _ _ _ _ _ _ := exprWoven_conditional ..
  assign name operator _ _ ih := ih.behind fun _ => [Piece.text name.name] ++ operatorPieces operator
  setDotted _ name operator _ _ ih ih' :=
    ((ih.before fun _ => [.text ".", .text name.name]).before fun _ => operatorPieces operator).append
      ih'
  setIndexed _ _ operator _ _ ih ih' ih'' :=
    ((((ih.before fun _ => [.text "["]).append ih').before fun _ => [.text "]"]).before
      fun _ => operatorPieces operator).append ih''
  expression _ ih := ih
  increment _ operator _ ih := ih.before fun _ => [.text operator.label]
  print _ _ inner := (woven_items inner).behind fun _ => [.text "print"]
  ifThen _ body _ elseBody inline _ test stmts clauses last := by
    obtain ⟨_, _⟩ := body
    obtain ⟨more, more'⟩ := woven_elseIfs clauses
    have head (word : String) := (test.behind fun _ => [.text "if "]).before fun _ => [.text word]
    cases inline with
    | true =>
      have front := ((head " then ").append (woven_inline stmts)).append more'
      cases elseBody with
      | none => exact front.append (.words fun _ => [])
      | some b =>
        have stmts := woven_inline (last b rfl)
        cases b
        exact front.append (stmts.behind fun _ => [.text " else "])
    | false =>
      have front := ((head " then").append (woven_block stmts)).append more
      cases elseBody with
      | none =>
        exact (front.append (.words fun _ => [])).before fun level => [.line level, .text "end if"]
      | some b =>
        have stmts := woven_block (last b rfl)
        cases b
        exact (front.append (stmts.behind fun level => [.line level, .text "else"])).before
          fun level => [.line level, .text "end if"]
  whileLoop _ body _ test stmts := by
    cases body
    exact ((test.behind fun _ => [.text "while "]).append (woven_block stmts)).before
      fun level => [.line level, .text "end while"]
  forLoop counter _ _ step body _ ih ih' value stmts := by
    cases body
    have front := ((ih.behind fun _ => [.text "for ", .text counter.name, .text " = "]).before
      fun _ => [.text " to "]).append ih'
    have block := woven_block stmts
    cases step with
    | none =>
      exact ((front.append (.words fun _ => [])).append block).before
        fun level => [.line level, .text "end for"]
    | some e =>
      exact ((front.append ((value e rfl).behind fun _ => [.text " step "])).append block).before
        fun level => [.line level, .text "end for"]
  forEach item _ body _ ih stmts := by
    cases body
    exact ((ih.behind fun _ => [.text "for each ", .text item.name, .text " in "]).append
      (woven_block stmts)).before fun level => [.line level, .text "end for"]
  comment c := .words fun level => commentPieces level c
  declare name _ inner := woven_function inner (some name.name)
  returns value _ inner := by
    cases value with
    | none => exact .words fun _ => [.text "return"] ++ []
    | some e =>
      exact ((inner e rfl).behind fun _ => [.text " "]).behind fun _ => [.text "return"]
  goto label _ := .words fun _ => [.text "goto ", .text label.name]
  label name := .words fun _ => [.text name.name, .text ":"]
  exitFor _ := .words fun _ => [.text "exit for"]
  exitWhile _ := .words fun _ => [.text "exit while"]
  endProgram _ := .words fun _ => [.text "end"]
  stop _ := .words fun _ => [.text "stop"]

theorem exchanging_keep : exchanging .keep = {} := rfl

theorem woven_expr (o : Options) (e : Expr) (level : Nat) :
    ∃ conditionals, Outermost e.nodes conditionals ∧
      Woven o conditionals fun x => exprText o level (e.rewrite (exchanging x)) := by
  obtain ⟨conditionals, outermost, woven⟩ := (hereditary_woven o).expr e
  exact ⟨conditionals, outermost, woven level⟩

theorem woven_program (o : Options) (stmts : List Stmt) :
    WovenIn o (stmtsNodes stmts)
      fun x _ => programPieces o (stmts.map (·.rewrite (exchanging x))) := by
  cases stmts with
  | nil => exact .words fun _ => []
  | cons s rest =>
    have each := hereditary_woven o
    obtain ⟨conditionals, outermost, woven⟩ :=
      (each.stmt s).append (woven_body (fun t (_ : t ∈ rest) => each.stmt t) s.range.stop.line)
    refine ⟨conditionals, outermost, fun _ => ?_⟩
    simpa only [List.map_cons, programPieces, stop_exchanging, stmtsRewrite_eq] using woven 0

theorem exprText_ne_empty {e : Expr} (conditional : e.isConditional = true) (level : Nat) :
    exprText o level e ≠ "" := by
  cases e with
  | conditional test consequent alternate r =>
    rw [exprText, exprPieces]
    split <;> simp [Piece.render]
  | _ => cases conditional

/-- Whether a last line break is due does not depend on the conditionals: where there is one,
something is written. -/
theorem Woven.finished {es : List Expr} {f : Exchange → String} (h : Woven o es f) (due : Bool)
    (newline : String) :
    Woven o es fun x => if due && !(f x).isEmpty then f x ++ newline else f x := by
  cases h with
  | none text => exact .none _
  | @cons gap level e conditional later after behind =>
    have whole := Woven.cons gap level conditional behind
    have some (x : Exchange) :
        (gap ++ (exprText o level (e.rewrite (exchanging x)) ++ after x)).isEmpty = false := by
      have kept : (e.rewrite (exchanging x)).isConditional = true := by
        cases e <;> first | rfl | cases conditional
      simp [exprText_ne_empty kept level]
    cases due with
    | false => exact whole
    | true =>
      have finished := whole.append (.none newline)
      simpa only [some, List.append_nil, Bool.true_and, Bool.not_false, if_true] using finished

theorem woven_emit (o : Options) (stmts : List Stmt) :
    ∃ conditionals, Outermost (stmtsNodes stmts) conditionals ∧
      Woven o conditionals fun x => emit o (stmts.map (·.rewrite (exchanging x))) := by
  obtain ⟨conditionals, outermost, woven⟩ := woven_program o stmts
  exact ⟨conditionals, outermost, (woven 0).finished o.layout.trailingNewline o.layout.newline⟩

def simpleText (o : Options) (test consequent alternate : String) : String :=
  o.stem ++ "simpleTernary(" ++ test ++ ", " ++ consequent ++ ", " ++ alternate ++ ")"

/-- The head of a branch function, which binds these names again. -/
def branchHead (o : Options) (level : Nat) (names : List Ident) : String :=
  "function(scope)" ++
    render o.layout
      (names.flatMap fun x => [.line (level + 1), .text x.name, .text " = scope.", .text x.name]) ++
    render o.layout [.line (level + 1), .text "return "]

def branchEnd (o : Options) (level : Nat) : String :=
  render o.layout [.line level, .text "end function"]

def scopeSafeText (o : Options) (level : Nat) (scope : Scope) (names names' : List Ident)
    (test consequent alternate : String) : String :=
  o.stem ++ "scopeSafeTernary(" ++ test ++
    (", " ++ render o.layout (scopePieces level scope) ++ ", " ++ branchHead o level names) ++
    consequent ++ (branchEnd o level ++ ", " ++ branchHead o level names') ++
    alternate ++ (branchEnd o level ++ ")")

theorem exprText_simple {test consequent alternate : Expr} {r : Range} {level : Nat}
    (plain : isPlain o test consequent alternate = true) :
    exprText o level (.conditional test consequent alternate r) =
      simpleText o (exprText o level test) (exprText o level consequent)
        (exprText o level alternate) := by
  simp [exprText, exprPieces, plain, simpleText, Piece.render, String.append_assoc]

theorem render_branchPieces (o : Options) (level : Nat) (scope : Scope) (branch : Expr)
    (value : List Piece) :
    render o.layout (branchPieces level (rebindPieces (level + 1) scope branch) value) =
      branchHead o level (rebound scope branch) ++ render o.layout value ++ branchEnd o level := by
  have names : rebindPieces (level + 1) scope branch = (rebound scope branch).flatMap fun x =>
      [.line (level + 1), .text x.name, .text " = scope.", .text x.name] := rfl
  have word (s : String) : render o.layout [.text s] = s := by simp [Piece.render]
  unfold branchHead branchEnd branchPieces
  rw [names]
  generalize (rebound scope branch).flatMap _ = names
  simp only [render_append, word]

theorem exprText_scopeSafe {test consequent alternate : Expr} {r : Range} {level : Nat}
    (risky : ¬isPlain o test consequent alternate = true) :
    exprText o level (.conditional test consequent alternate r) =
      scopeSafeText o level (Scope.collect [test, consequent, alternate])
        (rebound (Scope.collect [test, consequent, alternate]) consequent)
        (rebound (Scope.collect [test, consequent, alternate]) alternate)
        (exprText o level test) (exprText o (level + 1) consequent)
        (exprText o (level + 1) alternate) := by
  rw [exprText, exprPieces, if_neg risky]
  generalize Scope.collect [test, consequent, alternate] = scope
  simp only [scopeSafeText, exprText, render_append, render_branchPieces, render_cons, render_nil,
    Piece.render, String.append_empty, String.append_assoc]

def HasPlace (o : Options) (e : Expr) (text : String) : Prop :=
  ∃ before level after, text = before ++ exprText o level e ++ after

theorem HasPlace.trans {inner outer : Expr} {text : String} (h : HasPlace o outer text)
    (inside : ∀ level, HasPlace o inner (exprText o level outer)) : HasPlace o inner text := by
  obtain ⟨before, level, after, same⟩ := h
  obtain ⟨before', level', after', same'⟩ := inside level
  refine ⟨before ++ before', level', after' ++ after, ?_⟩
  rw [same, same']
  simp only [String.append_assoc]

theorem hasPlace_operand (test consequent alternate : Expr) (r : Range) {e : Expr}
    (operand : e ∈ [test, consequent, alternate]) (level : Nat) :
    HasPlace o e (exprText o level (.conditional test consequent alternate r)) := by
  have around (level' : Nat) {p q q' s : String}
      (text : exprText o level (.conditional test consequent alternate r) =
        p ++ exprText o level test ++ q ++ exprText o level' consequent ++ q' ++
          exprText o level' alternate ++ s) :
      HasPlace o e (exprText o level (.conditional test consequent alternate r)) := by
    simp only [List.mem_cons, List.not_mem_nil, or_false] at operand
    rcases operand with rfl | rfl | rfl
    · refine ⟨p, level, q ++ exprText o level' consequent ++ q' ++ exprText o level' alternate ++ s, ?_⟩
      simp only [text, String.append_assoc]
    · refine ⟨p ++ exprText o level test ++ q, level', q' ++ exprText o level' alternate ++ s, ?_⟩
      simp only [text, String.append_assoc]
    · exact ⟨_, level', s, text⟩
  by_cases plain : isPlain o test consequent alternate
  · exact around level (exprText_simple plain)
  · exact around (level + 1) (exprText_scopeSafe plain)

/-- A conditional has its place where the outermost one that holds it has its own. -/
theorem Woven.hasPlace {nodes conditionals : List Expr} {f : Exchange → String}
    (woven : Woven o conditionals f) (outermost : Outermost nodes conditionals) {e : Expr}
    (mem : e ∈ nodes) (conditional : e.isConditional = true)
    (inside : ∀ d ∈ conditionals, e ∈ d.nodes → ∀ level, HasPlace o e (exprText o level d)) :
    HasPlace o e (f .keep) := by
  have found : e ∈ nodes.filter Expr.isConditional := List.mem_filter.mpr ⟨mem, conditional⟩
  rw [outermost] at found
  obtain ⟨d, listed, held⟩ := List.mem_flatMap.mp found
  have place := woven.exists_place listed .keep
  rw [exchanging_keep, hereditary_self.expr d] at place
  exact HasPlace.trans place (inside d listed (List.mem_filter.mp held).1)

theorem length_operand_lt (test consequent alternate : Expr) (r : Range) {e : Expr}
    (operand : e ∈ [test, consequent, alternate]) :
    (e.nodes.filter Expr.isConditional).length <
      ((Expr.conditional test consequent alternate r).nodes.filter Expr.isConditional).length := by
  simp only [Expr.nodes, List.filter_cons, Expr.isConditional, if_true, List.filter_append,
    List.length_cons, List.length_append]
  simp only [List.mem_cons, List.not_mem_nil, or_false] at operand
  rcases operand with rfl | rfl | rfl <;> omega

/- By induction on how many conditionals there are: an operand holds fewer than its conditional. -/
theorem hasPlace_expr (o : Options) (e : Expr) {c : Expr} (mem : c ∈ e.nodes)
    (conditional : c.isConditional = true) (level : Nat) : HasPlace o c (exprText o level e) := by
  obtain ⟨conditionals, outermost, woven⟩ := woven_expr o e level
  have place := woven.hasPlace outermost mem conditional ?_
  · rwa [exchanging_keep, hereditary_self.expr] at place
  · intro d listed held level'
    have most : (d.nodes.filter Expr.isConditional).length ≤
        (e.nodes.filter Expr.isConditional).length := by
      have part : d.nodes.filter Expr.isConditional ∈
          conditionals.map fun e => e.nodes.filter Expr.isConditional :=
        List.mem_map.mpr ⟨d, listed, rfl⟩
      rw [outermost, List.flatMap_def]
      exact (List.sublist_flatten_of_mem part).length_le
    have kind := woven.isConditional_of_mem listed
    cases d with
    | conditional test consequent alternate r =>
      have below (x : Expr) (operand : x ∈ [test, consequent, alternate]) (held : c ∈ x.nodes) :
          HasPlace o c (exprText o level' (.conditional test consequent alternate r)) := by
        have fewer := Nat.lt_of_lt_of_le (length_operand_lt test consequent alternate r operand) most
        exact (hasPlace_operand test consequent alternate r operand level').trans
          fun deeper => hasPlace_expr o x held conditional deeper
      rw [Expr.nodes, List.mem_cons, List.mem_append, List.mem_append] at held
      rcases held with rfl | (held | held) | held
      · exact ⟨"", level', "", by simp⟩
      · exact below test (by simp) held
      · exact below consequent (by simp) held
      · exact below alternate (by simp) held
    | _ => cases kind
termination_by (e.nodes.filter Expr.isConditional).length
decreasing_by exact fewer

theorem hasPlace_emit (o : Options) (stmts : List Stmt) {e : Expr} (mem : e ∈ stmtsNodes stmts)
    (conditional : e.isConditional = true) : HasPlace o e (emit o stmts) := by
  obtain ⟨conditionals, outermost, woven⟩ := woven_emit o stmts
  have place := woven.hasPlace outermost mem conditional fun d _ held level =>
    hasPlace_expr o d held conditional level
  rwa [exchanging_keep, stmts_rewrite_self] at place

end BrightScript.Emit
