import Mathlib
import Reprint.Printer

/-!
# What a printer does step by step

Printing a node is a sequence of actions that depends on the node alone (`Printer.node_eq`). An action
writes behind the output, and what it writes depends on the width and on the level (`perform_out`). The
actions of a node go back to the level where they started, and they never go up from it on the way
(`Balanced`). So a printer can print one node behind the other, and each comes out as if it were the
first (`Printer.nodes_printed_apart`).
-/

namespace Reprint

inductive Action where
  | write (text : String)
  /-- The spaces of the level. -/
  | indent
  | deeper
  | shallower
  /-- Notes in the journal that a statement is printed at the level. -/
  | record

namespace Action

def newline : Action := .write "\n"

/-- What is written at level `d`. -/
def text (w d : Nat) : Action → String
  | write t => t
  | indent => String.ofList (List.replicate (d * w) ' ')
  | deeper | shallower | record => ""

/-- The level behind the action at level `d`. -/
def level (d : Nat) : Action → Nat
  | deeper => d + 1
  | shallower => d - 1
  | write _ | indent | record => d

end Action

namespace Printer

def act (p : Printer) : Action → Printer
  | .write t => p.write t
  | .indent => p.indent
  | .deeper => p.deeper
  | .shallower => p.shallower
  | .record => p.record (.printingStmt p.depth)

def perform (p : Printer) (as : List Action) : Printer := as.foldl act p

@[simp] theorem perform_nil (p : Printer) : p.perform [] = p := rfl

@[simp] theorem perform_cons (p : Printer) (a : Action) (as : List Action) :
    p.perform (a :: as) = (p.act a).perform as := rfl

@[simp] theorem perform_append (p : Printer) (as bs : List Action) :
    p.perform (as ++ bs) = (p.perform as).perform bs := by
  simp [perform, List.foldl_append]

end Printer

/-! ## The actions of nodes -/

def Expr.actions : Expr → List Action
  | .number n => [.write n.raw]
  | .bool b => [.write (if b then "true" else "false")]
  | .null => [.write "null"]
  | .string raw => [.write raw]
  | .ident name => [.write name]
  | .this => [.write "this"]
  | .paren inner => .write "(" :: (inner.actions ++ [.write ")"])
  | .assign target value => .write target :: .write " = " :: value.actions

def Declarator.actions (d : Declarator) : List Action :=
  match d.init with
  | none => [.write d.name]
  | some e => .write d.name :: .write " = " :: e.actions

def commaActions {α : Type} (item : α → List Action) : List α → List Action
  | [] => []
  | a :: as => item a ++ as.flatMap fun a => .write ", " :: item a

def lineActions (cs : List Comment) : List Action :=
  cs.flatMap fun c => [.indent, .write c.text, .newline]

def behindActions (cs : List Comment) : List Action :=
  cs.flatMap fun c => [.write " ", .write c.text]

mutual
def Stmt.actions : Stmt → List Action
  | ⟨leading, f, trailing⟩ =>
    .record :: (lineActions leading ++ .indent :: (f.actions ++ behindActions trailing ++ [.newline]))
def Form.actions : Form → List Action
  | .block b => b.blockActions
  | .empty => [.write ";"]
  | .function name params b =>
    .write "function " :: .write name :: .write "(" ::
      (commaActions (fun param => [.write param]) params ++ .write ") " :: b.blockActions)
  | .var ds => .write "var " :: (commaActions Declarator.actions ds ++ [.write ";"])
  | .expr e => e.actions ++ [.write ";"]
def Body.blockActions : Body → List Action
  | ⟨[], []⟩ => [.write "\x7b\x7d"]
  | ⟨ss, dangling⟩ =>
    .write "\x7b" :: .newline :: .deeper :: ((stmtsActions ss ++ lineActions dangling) ++
      .shallower :: [.indent, .write "\x7d"])
def stmtsActions : List Stmt → List Action
  | [] => []
  | s :: ss => s.actions ++ stmtsActions ss
end

def Node.actions : Node → List Action
  | .program b => stmtsActions b.stmts ++ lineActions b.dangling
  | .block b => b.blockActions
  | .stmt s => s.actions
  | .expr e => e.actions

namespace Printer

theorem commentLines_eq (p : Printer) (cs : List Comment) :
    p.commentLines cs = p.perform (lineActions cs) := by
  induction cs generalizing p with
  | nil => rfl
  | cons c cs ih => exact ih _

theorem commentsBehind_eq (p : Printer) (cs : List Comment) :
    p.commentsBehind cs = p.perform (behindActions cs) := by
  induction cs generalizing p with
  | nil => rfl
  | cons c cs ih => exact ih _

theorem commaSeparated_eq {α : Type} {item : Printer → α → Printer} {actions : α → List Action}
    (hitem : ∀ (p : Printer) (a : α), item p a = p.perform (actions a)) (p : Printer) (as : List α) :
    commaSeparated item p as = p.perform (commaActions actions as) := by
  cases as with
  | nil => rfl
  | cons a as =>
    rw [commaActions, perform_append, ← hitem, commaSeparated]
    generalize item p a = p
    induction as generalizing p with
    | nil => rfl
    | cons a as ih =>
      rw [List.foldl_cons, ih, List.flatMap_cons, perform_append, hitem]
      rfl

theorem expr_eq (p : Printer) (e : Expr) : p.expr e = p.perform e.actions := by
  induction e generalizing p with
  | bool b => cases b <;> rfl
  | paren inner ih =>
    rw [expr, ih, Expr.actions, perform_cons, perform_append]
    rfl
  | assign target value ih =>
    rw [expr, ih]
    rfl
  | _ => rfl

theorem declarator_eq (p : Printer) (d : Declarator) : p.declarator d = p.perform d.actions := by
  unfold declarator Declarator.actions
  cases d.init with
  | none => rfl
  | some e => exact expr_eq _ e

mutual
theorem stmt_eq (p : Printer) : (s : Stmt) → p.stmt s = p.perform s.actions
  | ⟨leading, f, trailing⟩ => by
    simp only [stmt, Stmt.actions, perform_cons, perform_append, commentLines_eq, form_eq,
      commentsBehind_eq]
    rfl
theorem form_eq (p : Printer) : (f : Form) → p.form f = p.perform f.actions
  | .block b => by rw [form, Form.actions, block_eq p b]
  | .empty => by simp only [form, Form.actions]; rfl
  | .function name params b => by
    have hname (p : Printer) (param : String) : p.write param = p.perform [.write param] := rfl
    rw [form, commaSeparated_eq hname, block_eq _ b, Form.actions, perform_cons, perform_cons, perform_cons,
      perform_append]
    rfl
  | .var ds => by
    simp only [form, Form.actions, perform_cons, perform_append, commaSeparated_eq declarator_eq]
    rfl
  | .expr e => by
    simp only [form, Form.actions, perform_append, expr_eq]
    rfl
theorem block_eq (p : Printer) : (b : Body) → p.block b = p.perform b.blockActions
  | ⟨[], []⟩ => by
    simp only [block, Body.blockActions]
    rfl
  | ⟨s :: ss, dangling⟩ => by
    simp only [block, Body.blockActions, perform_cons, perform_append, commentLines_eq, stmts_eq]
    rfl
  | ⟨[], c :: dangling⟩ => by
    simp only [block, Body.blockActions, perform_cons, perform_append, commentLines_eq, stmts_eq]
    rfl
theorem stmts_eq (p : Printer) : (ss : List Stmt) → p.stmts ss = p.perform (stmtsActions ss)
  | [] => by rw [stmts, stmtsActions, perform_nil]
  | s :: ss => by rw [stmts, stmtsActions, perform_append, stmt_eq p s, stmts_eq _ ss]
end

theorem node_eq (p : Printer) (n : Node) : p.node n = p.perform n.actions := by
  cases n with
  | program b => rw [node, program, commentLines_eq, stmts_eq, Node.actions, perform_append]
  | block b => exact block_eq p b
  | stmt s => exact stmt_eq p s
  | expr e => exact expr_eq p e

/-! ## What actions write -/

theorem act_out (p : Printer) (a : Action) : (p.act a).out = p.out ++ a.text p.width p.depth := by
  cases a <;> simp [act, Action.text, write, indent, deeper, shallower, record]

theorem act_depth (p : Printer) (a : Action) : (p.act a).depth = a.level p.depth := by
  cases a <;> rfl

theorem act_width (p : Printer) (a : Action) : (p.act a).width = p.width := by
  cases a <;> rfl

end Printer

/-- What some actions write, the first of them at level `d`. -/
def written (w d : Nat) : List Action → String
  | [] => ""
  | a :: as => a.text w d ++ written w (a.level d) as

namespace Printer

theorem perform_out (p : Printer) (as : List Action) :
    (p.perform as).out = p.out ++ written p.width p.depth as := by
  induction as generalizing p with
  | nil => simp [written]
  | cons a as ih => rw [perform_cons, ih, act_out, act_width, act_depth, written, String.append_assoc]

theorem perform_width (p : Printer) (as : List Action) : (p.perform as).width = p.width := by
  induction as generalizing p with
  | nil => rfl
  | cons a as ih => rw [perform_cons, ih, act_width]

end Printer

/-! ## Going deeper and coming back -/

inductive Balanced : List Action → Prop
  | nil : Balanced []
  | level {a as} : (∀ d, a.level d = d) → Balanced as → Balanced (a :: as)
  | nested {as bs} : Balanced as → Balanced bs → Balanced (.deeper :: (as ++ .shallower :: bs))

namespace Balanced

variable {as bs : List Action}

theorem append (has : Balanced as) (hbs : Balanced bs) : Balanced (as ++ bs) := by
  induction has with
  | nil => exact hbs
  | level ha _ ih => exact .level ha ih
  | nested hin _ _ ih =>
    rw [List.cons_append, List.append_assoc, List.cons_append]
    exact .nested hin ih

theorem write {t : String} (h : Balanced as) : Balanced (.write t :: as) := .level (fun _ => rfl) h

theorem flatMap {α : Type} {item : α → List Action} (h : ∀ a, Balanced (item a)) (xs : List α) :
    Balanced (xs.flatMap item) := by
  induction xs with
  | nil => exact .nil
  | cons x xs ih =>
    rw [List.flatMap_cons]
    exact (h x).append ih

theorem commas {α : Type} {item : α → List Action} (h : ∀ a, Balanced (item a)) (xs : List α) :
    Balanced (commaActions item xs) := by
  cases xs with
  | nil => exact .nil
  | cons x xs => exact (h x).append (flatMap (fun a => (h a).write) xs)

theorem lines (cs : List Comment) : Balanced (lineActions cs) :=
  flatMap (fun _ => .level (fun _ => rfl) (write (write .nil))) cs

theorem behind (cs : List Comment) : Balanced (behindActions cs) :=
  flatMap (fun _ => write (write .nil)) cs

theorem expr (e : Expr) : Balanced e.actions := by
  induction e with
  | paren inner ih => exact write (ih.append (write .nil))
  | assign target value ih => exact write (write ih)
  | _ => exact write .nil

theorem declarator (d : Declarator) : Balanced d.actions := by
  unfold Declarator.actions
  cases d.init with
  | none => exact write .nil
  | some e => exact write (write (expr e))

theorem braces (has : Balanced as) : Balanced (.write "\x7b" :: .newline :: .deeper :: (as ++
    .shallower :: [.indent, .write "\x7d"])) :=
  write (write (.nested has (.level (fun _ => rfl) (write .nil))))

mutual
theorem stmt : (s : Stmt) → Balanced s.actions
  | ⟨leading, f, trailing⟩ => by
    rw [Stmt.actions]
    have hend : Balanced (f.actions ++ behindActions trailing ++ [.newline]) :=
      ((form f).append (behind trailing)).append (write .nil)
    exact .level (fun _ => rfl) ((lines leading).append (.level (fun _ => rfl) hend))
theorem form : (f : Form) → Balanced f.actions
  | .block b => by
    rw [Form.actions]
    exact block b
  | .empty => by
    rw [Form.actions]
    exact write .nil
  | .function name params b => by
    rw [Form.actions]
    exact write (write (write ((commas (fun _ => write .nil) params).append (write (block b)))))
  | .var ds => by
    rw [Form.actions]
    exact write ((commas declarator ds).append (write .nil))
  | .expr e => by
    rw [Form.actions]
    exact (expr e).append (write .nil)
theorem block : (b : Body) → Balanced b.blockActions
  | ⟨[], []⟩ => by
    rw [Body.blockActions]
    exact write .nil
  | ⟨s :: ss, dangling⟩ => by
    rw [Body.blockActions]
    · exact braces ((stmts (s :: ss)).append (lines dangling))
    · simp
  | ⟨[], c :: dangling⟩ => by
    rw [Body.blockActions]
    · exact braces ((stmts []).append (lines (c :: dangling)))
    · simp
theorem stmts : (ss : List Stmt) → Balanced (stmtsActions ss)
  | [] => by
    rw [stmtsActions]
    exact .nil
  | s :: ss => by
    rw [stmtsActions]
    exact (stmt s).append (stmts ss)
end

theorem node (n : Node) : Balanced n.actions := by
  cases n with
  | program b => exact (stmts b.stmts).append (lines b.dangling)
  | block b => exact block b
  | stmt s => exact stmt s
  | expr e => exact expr e

theorem depth (h : Balanced as) (p : Printer) : (p.perform as).depth = p.depth := by
  induction h generalizing p with
  | nil => rfl
  | level ha _ ih => rw [Printer.perform_cons, ih, Printer.act_depth, ha]
  | nested _ _ ihin ih =>
    rw [Printer.perform_cons, Printer.perform_append, Printer.perform_cons, ih, Printer.act_depth, ihin,
      Printer.act_depth]
    rfl

/-- Wherever the actions come back from a level, they are deeper than where they started. -/
theorem lt_depth (h : Balanced as) (p : Printer) {before after : List Action}
    (hsplit : as = before ++ .shallower :: after) : p.depth < (p.perform before).depth := by
  induction h generalizing p before after with
  | nil => simp at hsplit
  | @level a as ha _ ih =>
    cases before with
    | nil =>
      obtain ⟨rfl, -⟩ := List.cons.inj hsplit
      exact absurd (ha 1) (by decide)
    | cons b before =>
      obtain ⟨rfl, hrest⟩ := List.cons.inj hsplit
      have hlt := ih (p.act a) hrest
      rwa [Printer.act_depth, ha] at hlt
  | @nested as bs hin _ ihin ih =>
    cases before with
    | nil => cases hsplit
    | cons b before =>
      obtain ⟨rfl, hrest⟩ := List.cons.inj hsplit
      have hdeeper : (p.act .deeper).depth = p.depth + 1 := rfl
      rw [Printer.perform_cons]
      rcases List.append_eq_append_iff.mp hrest with ⟨m, rfl, hm⟩ | ⟨m, rfl, hm⟩
      · -- it is the way back from this level, or a later one
        cases m with
        | nil =>
          rw [List.append_nil, hin.depth, hdeeper]
          exact Nat.lt_succ_self _
        | cons a m =>
          obtain ⟨rfl, hlater⟩ := List.cons.inj hm
          have hlt := ih (((p.act .deeper).perform as).act .shallower) hlater
          rw [Printer.act_depth, hin.depth] at hlt
          rw [Printer.perform_append, Printer.perform_cons]
          exact hlt
      · cases m with
        | nil =>
          have hdepth := hin.depth (p.act .deeper)
          rw [List.append_nil] at hdepth
          rw [hdepth, hdeeper]
          exact Nat.lt_succ_self _
        | cons a m =>
          obtain ⟨rfl, -⟩ := List.cons.inj hm
          have hlt := ihin (p.act .deeper) rfl
          omega

end Balanced

/-! ## One node behind the other -/

namespace Printer

theorem node_depth (p : Printer) (n : Node) : (p.node n).depth = p.depth := by
  rw [node_eq, (Balanced.node n).depth]

theorem node_width (p : Printer) (n : Node) : (p.node n).width = p.width := by
  rw [node_eq, perform_width]

theorem node_out (p : Printer) (n : Node) : (p.node n).out = p.out ++ written p.width p.depth n.actions := by
  rw [node_eq, perform_out]

theorem outputs_eq {p : Printer} {w : Nat} (hw : p.width = w) (hd : p.depth = 0) (ns : List Node) :
    p.outputs ns = ns.inits.tail.map fun before =>
      p.out ++ String.join (before.map fun n => ((new w).node n).out) := by
  induction ns generalizing p with
  | nil => rfl
  | cons n ns ih =>
    have hout : (p.node n).out = p.out ++ ((new w).node n).out := by
      rw [node_out, node_out, hw, hd]
      simp [new]
    obtain ⟨rest, hinits⟩ : ∃ rest, ns.inits = [] :: rest := by cases ns <;> simp
    rw [outputs, ih ((p.node_width n).trans hw) ((p.node_depth n).trans hd), hout, List.inits_cons, hinits]
    simp [String.append_assoc, Function.comp_def]

/-- Each node comes out behind the others as if it were printed alone. Every visit appends to the output
and comes back to the level it found, and no step on the way goes up from there. -/
theorem nodes_printed_apart (w : Nat) (ns : List Node) :
    (new w).outputs ns = (ns.inits.tail.map fun before =>
      String.join (before.map fun n => ((new w).node n).out)) ∧
    ∀ (p : Printer) (n : Node), p.node n = p.perform n.actions ∧ (∃ text, (p.node n).out = p.out ++ text) ∧
      (p.node n).depth = p.depth ∧
      ∀ before after, n.actions = before ++ .shallower :: after → p.depth < (p.perform before).depth := by
  constructor
  · simpa [new] using outputs_eq (p := new w) rfl rfl ns
  · intro p n
    refine ⟨p.node_eq n, ⟨_, p.node_out n⟩, p.node_depth n, ?_⟩
    intro before after hsplit
    exact (Balanced.node n).lt_depth p hsplit

/-- A block with something in it, and an expression behind it. -/
theorem nodes_printed_apart_block :
    (new 2).outputs [.block ⟨[⟨[], .empty, []⟩], []⟩, .expr .this] =
      ["\x7b\n  ;\n\x7d", "\x7b\n  ;\n\x7dthis"] ∧
    ∃ before after, (Node.block ⟨[⟨[], .empty, []⟩], []⟩).actions = before ++ .shallower :: after ∧
      0 < ((new 2).perform before).depth := by
  obtain ⟨houtputs, hall⟩ := nodes_printed_apart 2 [.block ⟨[⟨[], .empty, []⟩], []⟩, .expr .this]
  obtain ⟨-, -, -, hlt⟩ := hall (new 2) (.block ⟨[⟨[], .empty, []⟩], []⟩)
  have hsplit : (Node.block ⟨[⟨[], .empty, []⟩], []⟩).actions =
      [.write "\x7b", .newline, .deeper, .record, .indent, .write ";", .newline] ++
        .shallower :: [.indent, .write "\x7d"] := rfl
  exact ⟨houtputs.trans (by cbv), _, _, hsplit, hlt _ _ hsplit⟩

end Printer

end Reprint
