import Reprint.Outliner
import Reprint.Printer
import Reprint.Reading
import Reprint.Text.Source
import Reprint.Walk

/-!
# Fragments

A text can be taken for a whole program or for a function. Of a function only the body is kept, and
it is printed as a block.
-/

namespace Reprint

inductive Fragment where
  | program
  | function
deriving DecidableEq

/-- A cursor in front of the first token of a text. -/
def Cursor.ofText (text : String) : Except LexError Cursor :=
  (tokenize text).map fun ls =>
    let source := Source.ofString text
    .ofLexemes ls source.stop #[.lexed ls.length source.lineCount source.byteCount]

namespace Fragment

def read : Fragment → Cursor → Outcome Body
  | program, c => c.program.outcome
  | function, c => c.functionBody.outcome

/-- The tree of a text, with the records of its reading. -/
def parseLogged (f : Fragment) (text : String) : Logged (Except SyntaxError Body) :=
  match Cursor.ofText text with
  | .error e => ⟨.error (.lex e), #[]⟩
  | .ok c =>
    match f.read c with
    | .ok b rest => ⟨.ok b, rest.journal⟩
    | .error e rest => ⟨.error (.parse e), rest.journal⟩

def parse (f : Fragment) (text : String) : Except SyntaxError Body :=
  (f.parseLogged text).value

def defaultWidth : Nat := 4

def printer (f : Fragment) (width : Nat) (b : Body) : Printer :=
  match f with
  | program => (Printer.new width).program b
  | function => ((Printer.new width).block b).newline

def printWith (f : Fragment) (width : Nat) (b : Body) : String :=
  (f.printer width b).out

def print (f : Fragment) (b : Body) : String :=
  f.printWith defaultWidth b

/-- The text of a tree, with the records of its printing. -/
def printLogged (f : Fragment) (b : Body) : Logged String :=
  let p := f.printer defaultWidth b
  ⟨p.out, p.journal⟩

def dump (f : Fragment) (b : Body) : String :=
  match f with
  | program => (Outliner.new.program b).out
  | function => (Outliner.new.block b).out

/-- The nodes of a tree, its root included. -/
def visits (f : Fragment) (b : Body) : List Visit :=
  match f with
  | program => .program :: b.visits
  | function => .block :: b.visits

end Fragment

end Reprint
