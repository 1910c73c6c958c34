import Reprint.Tree

/-!
# Outlining trees

An outline lists the nodes of a tree, one to a line and two spaces to a level: a node, then its
parts, with the leading comments of a statement before it, its trailing ones behind its parts, and
the dangling comments of a body last in it.
-/

namespace Reprint

structure Outliner where
  out : String
  /-- The level of the next line. -/
  depth : Nat
  /-- What the next comment is called. -/
  role : String

namespace Outliner

def new : Outliner := ⟨"", 0, ""⟩

def line (o : Outliner) (text : String) : Outliner :=
  { o with out := o.out ++ String.join (List.replicate o.depth "  ") ++ text ++ "\n" }

/-- Lists something one level deeper. -/
def nested (o : Outliner) (list : Outliner → Outliner) : Outliner :=
  let o := list { o with depth := o.depth + 1 }
  { o with depth := o.depth - 1 }

def comment (o : Outliner) (c : Comment) : Outliner :=
  let kind := match c.kind with
    | .line => "line"
    | .block => "block"
  o.line (o.role ++ " (" ++ kind ++ ") " ++ c.flat)

def comments (o : Outliner) (role : String) (cs : List Comment) : Outliner :=
  cs.foldl comment { o with role := role }

def expr (o : Outliner) : Expr → Outliner
  | .number n => o.line ("NumericLiteral " ++ n.raw)
  | .bool true => o.line "BooleanLiteral true"
  | .bool false => o.line "BooleanLiteral false"
  | .null => o.line "NullLiteral"
  | .string raw => o.line ("StringLiteral " ++ raw)
  | .ident name => o.line ("Identifier " ++ name)
  | .this => o.line "ThisExpression"
  | .paren inner => (o.line "ParenthesizedExpression").nested fun o => o.expr inner
  | .assign target value =>
    (o.line ("AssignmentExpression " ++ target)).nested fun o => o.expr value

def declarator (o : Outliner) (d : Declarator) : Outliner :=
  let o := o.line ("VariableDeclarator " ++ d.name)
  match d.init with
  | none => o
  | some e => o.nested fun o => o.expr e

mutual
def stmt (o : Outliner) : Stmt → Outliner
  | ⟨leading, f, trailing⟩ =>
    (form (o.comments "LeadingComment" leading) f).comments "TrailingComment" trailing

def form (o : Outliner) : Form → Outliner
  | .block b => block o b
  | .empty => o.line "EmptyStatement"
  | .function name params b =>
    let o := o.line ("FunctionDeclaration " ++ name ++ " (" ++ ", ".intercalate params ++ ")")
    o.nested fun o => block o b
  | .var ds => (o.line "VariableDeclaration").nested fun o => ds.foldl declarator o
  | .expr e => (o.line "ExpressionStatement").nested fun o => o.expr e

def block (o : Outliner) : Body → Outliner
  | ⟨ss, dangling⟩ =>
    (o.line "BlockStatement").nested fun o => (stmts o ss).comments "DanglingComment" dangling

def stmts (o : Outliner) : List Stmt → Outliner
  | [] => o
  | s :: ss => stmts (stmt o s) ss
end

/-- A body that stands for a whole text. -/
def program (o : Outliner) (b : Body) : Outliner :=
  (o.line "Program").nested fun o => (o.stmts b.stmts).comments "DanglingComment" b.dangling

end Outliner

end Reprint
