import Reprint.Tree

/-!
# Walking trees

The nodes of a tree in the order of the text: a node, then its parts, where the leading comments of
a statement come before what it is made of and its trailing ones after.
-/

namespace Reprint

/-- A node met on a walk. -/
inductive Visit where
  | program
  | block
  | stmt (f : Form)
  | expr (e : Expr)
  | comment (c : Comment)

def Expr.visits : Expr → List Visit
  | .paren inner => .expr (.paren inner) :: inner.visits
  | .assign target value => .expr (.assign target value) :: value.visits
  | e => [.expr e]

def Declarator.visits (d : Declarator) : List Visit :=
  match d.init with
  | none => []
  | some e => e.visits

mutual
def Stmt.visits : Stmt → List Visit
  | ⟨leading, f, trailing⟩ =>
    .stmt f :: (leading.map .comment ++ f.visits ++ trailing.map .comment)
def Form.visits : Form → List Visit
  | .block b => .block :: b.visits
  | .empty => []
  | .function _ _ b => .block :: b.visits
  | .var ds => ds.flatMap Declarator.visits
  | .expr e => e.visits
/-- What a body holds, without the body itself. -/
def Body.visits : Body → List Visit
  | ⟨ss, dangling⟩ => stmtVisits ss ++ dangling.map .comment
def stmtVisits : List Stmt → List Visit
  | [] => []
  | s :: ss => s.visits ++ stmtVisits ss
end

def Visit.comment? : Visit → Option Comment
  | .comment c => some c
  | _ => none

/-- The comments of a body in the order of a walk. -/
def Body.comments (b : Body) : List Comment :=
  b.visits.filterMap Visit.comment?

end Reprint
