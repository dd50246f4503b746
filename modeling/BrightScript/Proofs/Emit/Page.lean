import BrightScript.Emit.Printer
import BrightScript.Proofs.Tree.Induction

/-! The printer at work on a page.
A page knows what has been written and how far in its next line begins. A block, an object with
members, the object of captured variables and the function around a branch raise the level for what
they hold and lower it afterwards; everything else only writes. From any page this adds the pieces
that are printed at its level. -/
namespace BrightScript.Emit

structure Page where
  text : String
  level : Nat

namespace Page

def write (page : Page) (s : String) : Page := { page with text := page.text ++ s }

def writes (page : Page) (words : List String) : Page := words.foldl write page

def startLine (o : Options) (page : Page) : Page :=
  (page.write o.layout.newline).write (indentation o.layout page.level)

def raise (page : Page) : Page := { page with level := page.level + 1 }

/- At the margin there is nothing to lower. -/
def lower (page : Page) : Page :=
  if 0 < page.level then { page with level := page.level - 1 } else page

def asType (page : Page) (implied type : Ty) : Page :=
  if type.same implied then page else page.writes [" as ", typeName type]

def operator (page : Page) (operator : Kind) : Page := page.writes [" ", operator.label, " "]

def lead (o : Options) (page : Page) (line : Nat) : Stmt → Page
  | .comment c => if c.range.start.line = line then page.write " " else page.startLine o
  | _ => page.startLine o

def comment (o : Options) (page : Page) (c : Comment) : Page :=
  match (splitLines c.text.toList).map String.ofList with
  | [] => page
  | first :: rest => rest.foldl (fun page line => (page.startLine o).write line) (page.write first)

def scope (o : Options) (page : Page) (scope : Scope) : Page :=
  if scope.isEmpty then page.writes ["\x7b", "\x7d"]
  else
    let page := scope.idents.foldl
      (fun page x => (page.startLine o).writes [quote x.name, ": ", x.name])
      (page.write "\x7b").raise
    (page.lower.startLine o).write "\x7d"

def rebind (o : Options) (page : Page) (scope : Scope) (branch : Expr) : Page :=
  let read := Scope.collect [branch]
  (scope.idents.filter fun x => read.contains x.name).foldl
    (fun page x => (page.startLine o).writes [x.name, " = scope.", x.name]) page

def openBranch (o : Options) (page : Page) (scope : Scope) (branch : Expr) : Page :=
  let page := (page.write "function(scope)").raise.rebind o scope branch
  (page.startLine o).write "return "

def closeBranch (o : Options) (page : Page) : Page :=
  (page.lower.startLine o).write "end function"

mutual
def expr (o : Options) (page : Page) : Expr → Page
  | .literal l => page.write l.text
  | .var name => page.write name.name
  | .dotted object name _ => (page.expr o object).writes [".", name.name]
  | .indexed object index _ => (((page.expr o object).write "[").expr o index).write "]"
  | .call callee args _ => (((page.expr o callee).write "(").exprs o args).write ")"
  | .array elements _ => ((page.write "[").exprs o elements).write "]"
  | .assoc [] _ => page.write "\x7b\x7d"
  | .assoc members _ =>
    let page := ((page.write "\x7b").raise.members o members).lower
    (page.startLine o).write "\x7d"
  | .binary operator left right _ =>
    ((page.expr o left).writes [" ", operator.text, " "]).expr o right
  | .unary operator operand _ =>
    let page := page.write operator.text
    let page := if operator.kind = .not_ || startsWithSign operand then page.write " " else page
    page.expr o operand
  | .group inner _ => ((page.write "(").expr o inner).write ")"
  | .function f => page.function o none f
  | .conditional test consequent alternate _ =>
    if isPlain o test consequent alternate then
      let page := ((page.writes [o.stem, "simpleTernary("]).expr o test).write ", "
      let page := (page.expr o consequent).write ", "
      (page.expr o alternate).write ")"
    else
      let scope := Scope.collect [test, consequent, alternate]
      let page := ((page.writes [o.stem, "scopeSafeTernary("]).expr o test).write ", "
      let page := (page.scope o scope).write ", "
      let page := ((page.openBranch o scope consequent).expr o consequent).closeBranch o
      let page := (page.write ", ").openBranch o scope alternate
      ((page.expr o alternate).closeBranch o).write ")"

def exprs (o : Options) (page : Page) : List Expr → Page
  | [] => page
  | [e] => page.expr o e
  | e :: rest => ((page.expr o e).write ", ").exprs o rest

def members (o : Options) (page : Page) : List (Member Expr) → Page
  | [] => page
  | .property ⟨key, quoted, value, _⟩ :: rest =>
    let page := (page.startLine o).writes [if quoted then quote key else key, ": "]
    (page.expr o value).members o rest
  | .comment c :: rest => ((page.startLine o).comment o c).members o rest

def function (o : Options) (page : Page) (name : Option String) : Function Expr Stmt → Page
  | ⟨isSub, parameters, returns, body, _⟩ =>
    let page := page.write (if isSub then "sub" else "function")
    let page := match name with
      | some name => page.writes [" ", name]
      | none => page
    let page := ((page.write "(").parameters o parameters).write ")"
    let page := (page.asType (if isSub then .void else .dynamic) returns).block o body
    (page.startLine o).write (if isSub then "end sub" else "end function")

def parameters (o : Options) (page : Page) : List (Parameter Expr) → Page
  | [] => page
  | [p] => page.parameter o p
  | p :: rest => ((page.parameter o p).write ", ").parameters o rest

def parameter (o : Options) (page : Page) : Parameter Expr → Page
  | ⟨name, type, fallback, _⟩ =>
    let page := page.write name.name
    let page := match fallback with
      | some e => (page.write " = ").expr o e
      | none => page
    page.asType .dynamic type

def stmt (o : Options) (page : Page) : Stmt → Page
  | .assign name operator value _ => ((page.write name.name).operator operator).expr o value
  | .setDotted object name operator value _ =>
    (((page.expr o object).writes [".", name.name]).operator operator).expr o value
  | .setIndexed object index operator value _ =>
    let page := (((page.expr o object).write "[").expr o index).write "]"
    (page.operator operator).expr o value
  | .expression e => page.expr o e
  | .increment value operator _ => (page.expr o value).write operator.label
  | .print items _ => (page.write "print").items o items
  | .ifThen condition body elseIfs elseBody inline _ =>
    if inline then
      let page := ((page.write "if ").expr o condition).write " then "
      let page := (page.inlineBlock o body).inlineElseIfs o elseIfs
      match elseBody with
      | some last => (page.write " else ").inlineBlock o last
      | none => page
    else
      let page := ((page.write "if ").expr o condition).write " then"
      let page := (page.block o body).elseIfs o elseIfs
      let page := match elseBody with
        | some last => ((page.startLine o).write "else").block o last
        | none => page
      (page.startLine o).write "end if"
  | .whileLoop condition body _ =>
    let page := ((page.write "while ").expr o condition).block o body
    (page.startLine o).write "end while"
  | .forLoop counter first last step body _ =>
    let page := (page.writes ["for ", counter.name, " = "]).expr o first
    let page := (page.write " to ").expr o last
    let page := match step with
      | some e => (page.write " step ").expr o e
      | none => page
    ((page.block o body).startLine o).write "end for"
  | .forEach item target body _ =>
    let page := (page.writes ["for each ", item.name, " in "]).expr o target
    ((page.block o body).startLine o).write "end for"
  | .comment c => page.comment o c
  | .declare name f => page.function o (some name.name) f
  | .returns value _ =>
    let page := page.write "return"
    match value with
    | some e => (page.write " ").expr o e
    | none => page
  | .goto label _ => page.writes ["goto ", label.name]
  | .label name => page.writes [name.name, ":"]
  | .exitFor _ => page.write "exit for"
  | .exitWhile _ => page.write "exit while"
  | .endProgram _ => page.write "end"
  | .stop _ => page.write "stop"

def items (o : Options) (page : Page) : List (PrintItem Expr) → Page
  | [] => page
  | .expression e :: rest => ((page.write " ").expr o e).items o rest
  | .separator kind :: rest => (page.write kind.label).items o rest

def inlineElseIfs (o : Options) (page : Page) : List (ElseIf Expr Stmt) → Page
  | [] => page
  | ⟨condition, body, _⟩ :: rest =>
    let page := ((page.write " else if ").expr o condition).write " then "
    (page.inlineBlock o body).inlineElseIfs o rest

def elseIfs (o : Options) (page : Page) : List (ElseIf Expr Stmt) → Page
  | [] => page
  | ⟨condition, body, _⟩ :: rest =>
    let page := (((page.startLine o).write "else if ").expr o condition).write " then"
    (page.block o body).elseIfs o rest

def inlineBlock (o : Options) (page : Page) : Block Stmt → Page
  | ⟨stmts, _⟩ => page.inline o stmts

def inline (o : Options) (page : Page) : List Stmt → Page
  | [] => page
  | [s] => page.stmt o s
  | s :: rest => ((page.stmt o s).write " : ").inline o rest

def block (o : Options) (page : Page) : Block Stmt → Page
  | ⟨stmts, range⟩ => (page.raise.body o range.start.line stmts).lower

def body (o : Options) (page : Page) (line : Nat) : List Stmt → Page
  | [] => page
  | s :: rest => ((page.lead o line s).stmt o s).body o s.range.stop.line rest
end

attribute [grind =] expr stmt

def program (o : Options) : List Stmt → Page
  | [] => ⟨"", 0⟩
  | s :: rest => (stmt o ⟨"", 0⟩ s).body o s.range.stop.line rest

def finish (o : Options) (page : Page) : Page :=
  if o.layout.trailingNewline && !page.text.isEmpty then page.write o.layout.newline else page

end Page

/-- Whatever the page is, its level stays and the pieces that are printed at its level are added. -/
def Prints (o : Options) (act : Page → Page) (print : Nat → List Piece) : Prop :=
  ∀ page, act page = ⟨page.text ++ render o.layout (print page.level), page.level⟩

namespace Prints

variable {o : Options} {act act' : Page → Page} {f g : Nat → List Piece}

theorem skip : Prints o (fun page => page) fun _ => [] := by
  intro page
  simp

theorem word (s : String) : Prints o (·.write s) fun _ => [.text s] := by
  intro page
  simp [Page.write, Piece.render]

theorem line : Prints o (·.startLine o) fun level => [.line level] := by
  intro page
  simp [Page.startLine, Page.write, Piece.render, String.append_assoc]

theorem seq (first : Prints o act f) (last : Prints o act' g) :
    Prints o (fun page => act' (act page)) fun level => f level ++ g level := by
  intro page
  have both := last (act page)
  rw [first page] at both
  simpa [String.append_assoc, first page] using both

/-- What is raised is above the margin, so that lowering it leads back. -/
theorem indented (inner : Prints o act f) :
    Prints o (fun page => (act page.raise).lower) fun level => f (level + 1) := by
  intro page
  change (act page.raise).lower = _
  rw [inner page.raise]
  simp [Page.raise, Page.lower]

theorem congr (h : Prints o act f) (same : ∀ level, f level = g level) : Prints o act g :=
  fun page => same page.level ▸ h page

theorem words (ss : List String) : Prints o (·.writes ss) fun _ => ss.map .text := by
  induction ss with
  | nil => exact skip
  | cons s rest ih => exact (word s).seq ih

theorem lineOf (s : String) :
    Prints o (fun page => (page.startLine o).write s) fun level => [.line level, .text s] :=
  line.seq (word s)

theorem fold {α : Type} {act : Page → α → Page} {print : α → Nat → List Piece}
    (each : ∀ x, Prints o (act · x) (print x)) (xs : List α) :
    Prints o (fun page => xs.foldl act page) fun level => xs.flatMap (print · level) := by
  induction xs with
  | nil => exact skip
  | cons x xs ih => simpa only [List.foldl_cons, List.flatMap_cons] using (each x).seq ih

theorem asType (implied type : Ty) :
    Prints o (·.asType implied type) fun _ => asPieces implied type := by
  unfold Page.asType asPieces
  split
  · exact skip
  · exact words [_, _]

theorem lead (line : Nat) (s : Stmt) : Prints o (·.lead o line s) (Emit.lead · line s) := by
  cases s with
  | comment c =>
    by_cases shared : c.range.start.line = line
    · simpa only [Page.lead, Emit.lead, if_pos shared] using word " "
    · simpa only [Page.lead, Emit.lead, if_neg shared] using Prints.line
  | _ => exact Prints.line

theorem comment (c : Comment) : Prints o (·.comment o c) (commentPieces · c) := by
  unfold Page.comment commentPieces
  cases (splitLines c.text.toList).map String.ofList with
  | nil => exact skip
  | cons first rest => exact (word first).seq (fold lineOf rest)

theorem scope (scope : Scope) : Prints o (·.scope o scope) (scopePieces · scope) := by
  unfold Page.scope scopePieces
  split
  · exact words [_, _]
  · have entry (x : Ident) := line.seq (words (o := o) [quote x.name, ": ", x.name])
    exact ((word _).seq (indented (fold entry scope.idents))).seq (lineOf _)

theorem branch {scope : Scope} {e : Expr} (value : Prints o (·.expr o e) (exprPieces o · e)) :
    Prints o (fun page => ((page.openBranch o scope e).expr o e).closeBranch o) fun level =>
      branchPieces level (rebindPieces (level + 1) scope e) (exprPieces o (level + 1) e) := by
  have entry (x : Ident) := line.seq (words (o := o) [x.name, " = scope.", x.name])
  have inner := ((fold entry (scope.idents.filter fun x => (Scope.collect [e]).contains x.name)).seq
    (lineOf "return ")).seq value
  refine (((word "function(scope)").seq (indented inner)).seq (lineOf "end function")).congr ?_
  intro level
  simp [branchPieces, rebindPieces]

theorem exprs {es : List Expr} (each : ∀ e ∈ es, Prints o (·.expr o e) (exprPieces o · e)) :
    Prints o (·.exprs o es) (exprsPieces o · es) := by
  induction es with
  | nil => exact skip
  | cons e rest ih =>
    obtain ⟨first, later⟩ := List.forall_mem_cons.mp each
    cases rest with
    | nil => exact first
    | cons e' rest => exact (first.seq (word ", ")).seq (ih later)

theorem members {ms : List (Member Expr)}
    (each : ∀ p, Member.property p ∈ ms → Prints o (·.expr o p.value) (exprPieces o · p.value)) :
    Prints o (·.members o ms) (membersPieces o · ms) := by
  induction ms with
  | nil => exact skip
  | cons m rest ih =>
    have later := ih fun p mem => each p (List.mem_cons_of_mem _ mem)
    cases m with
    | property p =>
      have value := each p List.mem_cons_self
      obtain ⟨key, quoted, _, _⟩ := p
      exact ((line.seq (words [if quoted then quote key else key, ": "])).seq value).seq later
    | comment c => exact (line.seq (comment c)).seq later

theorem parameter {p : Parameter Expr}
    (each : ∀ e ∈ p.fallback, Prints o (·.expr o e) (exprPieces o · e)) :
    Prints o (·.parameter o p) (parameterPieces o · p) := by
  obtain ⟨name, type, _ | e, _⟩ := p
  · exact ((word name.name).seq skip).seq (asType _ _)
  · exact ((word name.name).seq ((word " = ").seq (each e rfl))).seq (asType _ _)

theorem parameters {ps : List (Parameter Expr)}
    (each : ∀ p ∈ ps, ∀ e ∈ p.fallback, Prints o (·.expr o e) (exprPieces o · e)) :
    Prints o (·.parameters o ps) (parametersPieces o · ps) := by
  induction ps with
  | nil => exact skip
  | cons p rest ih =>
    obtain ⟨first, later⟩ := List.forall_mem_cons.mp each
    cases rest with
    | nil => exact parameter first
    | cons p' rest => exact ((parameter first).seq (word ", ")).seq (ih later)

theorem items {is : List (PrintItem Expr)}
    (each : ∀ e, PrintItem.expression e ∈ is → Prints o (·.expr o e) (exprPieces o · e)) :
    Prints o (·.items o is) (itemsPieces o · is) := by
  induction is with
  | nil => exact skip
  | cons i rest ih =>
    have later := ih fun e mem => each e (List.mem_cons_of_mem _ mem)
    cases i with
    | expression e => exact ((word " ").seq (each e List.mem_cons_self)).seq later
    | separator kind => exact (word _).seq later

theorem body {ss : List Stmt} (each : ∀ s ∈ ss, Prints o (·.stmt o s) (stmtPieces o · s))
    (line : Nat) : Prints o (·.body o line ss) (bodyPieces o · line ss) := by
  induction ss generalizing line with
  | nil => exact skip
  | cons s rest ih =>
    obtain ⟨first, later⟩ := List.forall_mem_cons.mp each
    exact ((lead line s).seq first).seq (ih later _)

theorem block {b : Block Stmt} (each : b.All fun s => Prints o (·.stmt o s) (stmtPieces o · s)) :
    Prints o (·.block o b) fun level => bodyPieces o (level + 1) b.range.start.line b.statements := by
  obtain ⟨_, range⟩ := b
  exact indented (body each range.start.line)

theorem inline {ss : List Stmt} (each : ∀ s ∈ ss, Prints o (·.stmt o s) (stmtPieces o · s)) :
    Prints o (·.inline o ss) (inlinePieces o · ss) := by
  induction ss with
  | nil => exact skip
  | cons s rest ih =>
    obtain ⟨first, later⟩ := List.forall_mem_cons.mp each
    cases rest with
    | nil => exact first
    | cons s' rest => exact (first.seq (word " : ")).seq (ih later)

theorem elseIfs {es : List (ElseIf Expr Stmt)}
    (each : ∀ e ∈ es, Prints o (·.expr o e.condition) (exprPieces o · e.condition) ∧
      e.body.All fun s => Prints o (·.stmt o s) (stmtPieces o · s)) :
    Prints o (·.elseIfs o es) (elseIfsPieces o · es) ∧
      Prints o (·.inlineElseIfs o es) (inlineElseIfsPieces o · es) := by
  induction es with
  | nil => exact ⟨skip, skip⟩
  | cons e rest ih =>
    obtain ⟨⟨test, stmts⟩, later⟩ := List.forall_mem_cons.mp each
    obtain ⟨_, ⟨_, _⟩, _⟩ := e
    obtain ⟨more, more'⟩ := ih later
    constructor
    · exact ((((lineOf _).seq test).seq (word _)).seq (block stmts)).seq more
    · exact ((((word _).seq test).seq (word _)).seq (inline stmts)).seq more'

theorem function {f : Function Expr Stmt}
    (each : f.All (fun e => Prints o (·.expr o e) (exprPieces o · e))
      fun s => Prints o (·.stmt o s) (stmtPieces o · s)) (name : Option String) :
    Prints o (·.function o name f) (functionPieces o · name f) := by
  obtain ⟨isSub, _, returns, ⟨_, _⟩, _⟩ := f
  have whole {act : Page → Page} {print : Nat → List Piece} (named : Prints o act print) :=
    (((((((word (if isSub then "sub" else "function")).seq named).seq (word "(")).seq
      (parameters each.1)).seq (word ")")).seq
      (asType (if isSub then .void else .dynamic) returns)).seq (block each.2)).seq
      (lineOf (if isSub then "end sub" else "end function"))
  cases name with
  | none =>
    have anonymous := whole skip
    exact anonymous
  | some x =>
    have named := whole (words [" ", x])
    exact named

theorem conditional {test consequent alternate : Expr} {r : Range}
    (first : Prints o (·.expr o test) (exprPieces o · test))
    (second : Prints o (·.expr o consequent) (exprPieces o · consequent))
    (third : Prints o (·.expr o alternate) (exprPieces o · alternate)) :
    Prints o (·.expr o (.conditional test consequent alternate r))
      (exprPieces o · (.conditional test consequent alternate r)) := by
  by_cases plain : isPlain o test consequent alternate
  · simp only [Page.expr, exprPieces, if_pos plain]
    exact ((((((words [_, _]).seq first).seq (word _)).seq second).seq (word _)).seq third).seq (word _)
  · simp only [Page.expr, exprPieces, if_neg plain]
    exact (((((((words [_, _]).seq first).seq (word _)).seq (scope _)).seq (word _)).seq
      (branch second)).seq (word _)).seq (branch third) |>.seq (word _)

end Prints

theorem hereditary_prints (o : Options) :
    Hereditary (fun e => Prints o (·.expr o e) (exprPieces o · e))
      fun s => Prints o (·.stmt o s) (stmtPieces o · s) where
  literal _ := .word _
  var _ := .word _
  dotted _ _ _ ih := ih.seq (.words [_, _])
  indexed _ _ _ ih ih' := ((ih.seq (.word _)).seq ih').seq (.word _)
  call _ _ _ ih inner := ((ih.seq (.word _)).seq (.exprs inner)).seq (.word _)
  array _ _ inner := (Prints.word "[").seq (.exprs inner) |>.seq (.word _)
  assoc ms _ inner := by
    cases ms with
    | nil => exact .word _
    | cons => exact (((Prints.word "\x7b").seq (.indented (.members inner)))).seq (.lineOf _)
  binary _ _ _ _ ih ih' := (ih.seq (.words [_, _, _])).seq ih'
  unary operator operand _ ih := by
    by_cases apart : operator.kind = .not_ || startsWithSign operand
    · simp only [Page.expr, exprPieces, if_pos apart]
      exact ((Prints.word operator.text).seq (.word " ")).seq ih
    · simp only [Page.expr, exprPieces, if_neg apart]
      exact ((Prints.word operator.text).seq .skip).seq ih
  group _ _ ih := (Prints.word "(").seq ih |>.seq (.word _)
  function _ inner := .function inner none
  conditional _ _ _ _ ih ih' ih'' := .conditional ih ih' ih''
  assign x _ _ _ ih := ((Prints.word x.name).seq (.words [_, _, _])).seq ih
  setDotted _ _ _ _ _ ih ih' := ((ih.seq (.words [_, _])).seq (.words [_, _, _])).seq ih'
  setIndexed _ _ _ _ _ ih ih' ih'' :=
    ((((ih.seq (.word _)).seq ih').seq (.word _)).seq (.words [_, _, _])).seq ih''
  expression _ ih := ih
  increment _ _ _ ih := ih.seq (.word _)
  print _ _ inner := (Prints.word "print").seq (.items inner)
  ifThen _ body _ elseBody inline _ test stmts clauses last := by
    obtain ⟨_, _⟩ := body
    obtain ⟨more, more'⟩ := Prints.elseIfs clauses
    have head := (Prints.word "if ").seq test
    cases inline with
    | true =>
      have front := ((head.seq (.word " then ")).seq (.inline stmts)).seq more'
      cases elseBody with
      | none => exact front.seq .skip
      | some b =>
        have stmts := Prints.inline (last b rfl)
        cases b
        exact front.seq ((Prints.word " else ").seq stmts)
    | false =>
      have front := ((head.seq (.word " then")).seq (.block stmts)).seq more
      cases elseBody with
      | none => exact (front.seq .skip).seq (.lineOf _)
      | some b =>
        exact (front.seq ((Prints.lineOf "else").seq (.block (last b rfl)))).seq (.lineOf _)
  whileLoop _ _ _ test stmts :=
    (((Prints.word "while ").seq test).seq (.block stmts)).seq (.lineOf _)
  forLoop counter _ _ step _ _ ih ih' value stmts := by
    have front := (((Prints.words ["for ", counter.name, " = "]).seq ih).seq (.word " to ")).seq ih'
    cases step with
    | none => exact ((front.seq .skip).seq (.block stmts)).seq (.lineOf _)
    | some e =>
      exact ((front.seq ((Prints.word " step ").seq (value e rfl))).seq (.block stmts)).seq (.lineOf _)
  forEach item _ _ _ ih stmts :=
    (((Prints.words ["for each ", item.name, " in "]).seq ih).seq (.block stmts)).seq (.lineOf _)
  comment c := .comment c
  declare name _ inner := .function inner (some name.name)
  returns value _ inner := by
    cases value with
    | none => exact (Prints.word "return").seq .skip
    | some e => exact (Prints.word "return").seq ((Prints.word " ").seq (inner e rfl))
  goto _ _ := .words [_, _]
  label _ := .words [_, _]
  exitFor _ := .word _
  exitWhile _ := .word _
  endProgram _ := .word _
  stop _ := .word _

theorem prints_expr (o : Options) (e : Expr) : Prints o (·.expr o e) (exprPieces o · e) :=
  (hereditary_prints o).expr e

theorem prints_stmt (o : Options) (s : Stmt) : Prints o (·.stmt o s) (stmtPieces o · s) :=
  (hereditary_prints o).stmt s

theorem program_eq (o : Options) (stmts : List Stmt) :
    Page.program o stmts = ⟨render o.layout (programPieces o stmts), 0⟩ := by
  cases stmts with
  | nil => rfl
  | cons s rest =>
    have later := Prints.body (fun t (_ : t ∈ rest) => prints_stmt o t) s.range.stop.line
    have whole := (prints_stmt o s).seq later
    simpa [Page.program, programPieces] using whole ⟨"", 0⟩

theorem emit_eq_page (o : Options) (stmts : List Stmt) :
    emit o stmts = ((Page.program o stmts).finish o).text := by
  simp only [emit, Page.finish, program_eq]
  split
  · rfl
  · rfl

end BrightScript.Emit
