import Reprint.Journal
import Reprint.Tree

/-!
# Printing trees

One statement to a line, each block one level deeper than what is around it. Comments are written
as they are: leading and dangling ones on lines of their own, trailing ones behind the statement.
-/

namespace Reprint

structure Printer where
  /-- Spaces to a level. -/
  width : Nat
  /-- The level of the statements being printed. -/
  depth : Nat
  out : String
  journal : Journal

namespace Printer

def new (width : Nat) : Printer := ⟨width, 0, "", #[]⟩

def write (p : Printer) (text : String) : Printer :=
  { p with out := p.out ++ text }

def newline (p : Printer) : Printer := p.write "\n"

def indent (p : Printer) : Printer :=
  p.write (String.ofList (List.replicate (p.depth * p.width) ' '))

def deeper (p : Printer) : Printer := { p with depth := p.depth + 1 }

def shallower (p : Printer) : Printer := { p with depth := p.depth - 1 }

def record (p : Printer) (r : Record) : Printer :=
  { p with journal := p.journal.push r }

/-- Comments on lines of their own. -/
def commentLines (p : Printer) (cs : List Comment) : Printer :=
  cs.foldl (fun p c => ((p.indent).write c.text).newline) p

/-- Comments behind a statement. -/
def commentsBehind (p : Printer) (cs : List Comment) : Printer :=
  cs.foldl (fun p c => (p.write " ").write c.text) p

/-- Items with commas between them. -/
def commaSeparated {α : Type} (item : Printer → α → Printer) : Printer → List α → Printer
  | p, [] => p
  | p, a :: as => as.foldl (fun p a => item (p.write ", ") a) (item p a)

def expr (p : Printer) : Expr → Printer
  | .number n => p.write n.raw
  | .bool true => p.write "true"
  | .bool false => p.write "false"
  | .null => p.write "null"
  | .string raw => p.write raw
  | .ident name => p.write name
  | .this => p.write "this"
  | .paren inner => ((p.write "(").expr inner).write ")"
  | .assign target value => ((p.write target).write " = ").expr value

def declarator (p : Printer) (d : Declarator) : Printer :=
  match d.init with
  | none => p.write d.name
  | some e => ((p.write d.name).write " = ").expr e

mutual
/-- A statement on lines of its own. -/
def stmt (p : Printer) : Stmt → Printer
  | ⟨leading, f, trailing⟩ =>
    let p := ((p.record (.printingStmt p.depth)).commentLines leading).indent
    ((form p f).commentsBehind trailing).newline

def form (p : Printer) : Form → Printer
  | .block b => block p b
  | .empty => p.write ";"
  | .function name params b =>
    let p := ((p.write "function ").write name).write "("
    block ((commaSeparated write p params).write ") ") b
  | .var ds => (commaSeparated declarator (p.write "var ") ds).write ";"
  | .expr e => (p.expr e).write ";"

/-- A body in braces, from where the output stands and without a line end behind it. -/
def block (p : Printer) : Body → Printer
  | ⟨[], []⟩ => p.write "\x7b\x7d"
  | ⟨ss, dangling⟩ =>
    let p := (p.write "\x7b").newline.deeper
    (((stmts p ss).commentLines dangling).shallower.indent).write "\x7d"

def stmts (p : Printer) : List Stmt → Printer
  | [] => p
  | s :: ss => stmts (stmt p s) ss
end

/-- A body without braces. -/
def program (p : Printer) (b : Body) : Printer :=
  (p.stmts b.stmts).commentLines b.dangling

def node (p : Printer) : Node → Printer
  | .program b => p.program b
  | .block b => p.block b
  | .stmt s => p.stmt s
  | .expr e => p.expr e

/-- The output after each of some nodes, printed one behind the other. -/
def outputs (p : Printer) : List Node → List String
  | [] => []
  | n :: ns =>
    let p := p.node n
    p.out :: p.outputs ns

end Printer

end Reprint
