import Reprint.Fragment

/-!
# The rows of an outline

An outline is rows: a level and the label of a node to each. An outliner keeps its level and the
role of the comments it meets as it goes; what it writes for a node is the rows of the node at the
level where it starts, and it is back at that level behind them (`Outliner.Lists`). So the outline of
a tree is the text of its rows (`Fragment.dump_eq`).
-/

namespace Reprint

/-- The list of comments that a comment is in. -/
inductive Role where
  | leading
  | trailing
  | dangling
deriving DecidableEq

/-- What an outline says of a node by itself. -/
inductive Label where
  | program
  | block
  | empty
  | function (name : String) (params : List String)
  | var
  | declarator (name : String)
  | exprStmt
  | number (n : Numeral)
  | bool (b : Bool)
  | null
  | string (raw : String)
  | ident (name : String)
  | this
  | paren
  | assign (target : String)
  | comment (role : Role) (c : Comment)
deriving DecidableEq

structure Row where
  depth : Nat
  label : Label
deriving DecidableEq

/-! ## Text -/

def Role.text : Role → String
  | leading => "LeadingComment"
  | trailing => "TrailingComment"
  | dangling => "DanglingComment"

def CommentKind.text : CommentKind → String
  | line => "line"
  | block => "block"

namespace Label

def text : Label → String
  | program => "Program"
  | block => "BlockStatement"
  | empty => "EmptyStatement"
  | function name params =>
    "FunctionDeclaration " ++ name ++ " (" ++ ", ".intercalate params ++ ")"
  | var => "VariableDeclaration"
  | declarator name => "VariableDeclarator " ++ name
  | exprStmt => "ExpressionStatement"
  | number n => "NumericLiteral " ++ n.raw
  | bool true => "BooleanLiteral true"
  | bool false => "BooleanLiteral false"
  | null => "NullLiteral"
  | string raw => "StringLiteral " ++ raw
  | ident name => "Identifier " ++ name
  | this => "ThisExpression"
  | paren => "ParenthesizedExpression"
  | assign target => "AssignmentExpression " ++ target
  | comment role c => role.text ++ " (" ++ c.kind.text ++ ") " ++ c.flat

end Label

def Row.text (r : Row) : String :=
  String.ofList (List.replicate (2 * r.depth) ' ') ++ r.label.text ++ "\n"

/-! ## Rows -/

def commentRows (role : Role) (d : Nat) (cs : List Comment) : List Row :=
  cs.map fun c => ⟨d, .comment role c⟩

/-- The rows of an expression at level `d`. -/
def Expr.rows (d : Nat) : Expr → List Row
  | .number n => [⟨d, .number n⟩]
  | .bool b => [⟨d, .bool b⟩]
  | .null => [⟨d, .null⟩]
  | .string raw => [⟨d, .string raw⟩]
  | .ident name => [⟨d, .ident name⟩]
  | .this => [⟨d, .this⟩]
  | .paren inner => ⟨d, .paren⟩ :: inner.rows (d + 1)
  | .assign target value => ⟨d, .assign target⟩ :: value.rows (d + 1)

def Declarator.rows (d : Nat) (decl : Declarator) : List Row :=
  match decl.init with
  | none => [⟨d, .declarator decl.name⟩]
  | some e => ⟨d, .declarator decl.name⟩ :: e.rows (d + 1)

mutual
def Stmt.rows (d : Nat) : Stmt → List Row
  | ⟨leading, f, trailing⟩ =>
    commentRows .leading d leading ++ f.rows d ++ commentRows .trailing d trailing
def Form.rows (d : Nat) : Form → List Row
  | .block b => b.blockRows d
  | .empty => [⟨d, .empty⟩]
  | .function name params b => ⟨d, .function name params⟩ :: b.blockRows (d + 1)
  | .var ds => ⟨d, .var⟩ :: ds.flatMap (Declarator.rows (d + 1))
  | .expr e => ⟨d, .exprStmt⟩ :: e.rows (d + 1)
def Body.blockRows (d : Nat) : Body → List Row
  | ⟨ss, dangling⟩ =>
    ⟨d, .block⟩ :: (stmtRows (d + 1) ss ++ commentRows .dangling (d + 1) dangling)
def stmtRows (d : Nat) : List Stmt → List Row
  | [] => []
  | s :: ss => s.rows d ++ stmtRows d ss
end

/-- The rows of a body that stands for a whole text. -/
def Body.programRows (b : Body) : List Row :=
  ⟨0, .program⟩ :: (stmtRows 1 b.stmts ++ commentRows .dangling 1 b.dangling)

def outline (rows : List Row) : String :=
  String.join (rows.map Row.text)

/-! ## What an outliner writes -/

theorem outline_append (rows rows' : List Row) :
    outline (rows ++ rows') = outline rows ++ outline rows' := by
  simp [outline]

namespace Outliner

/-- From `o` to `o'` the rows were written, and the level is again what it was. Which role the last
comments had is left open: whoever lists comments says their role first. -/
structure Lists (o : Outliner) (rows : List Row) (o' : Outliner) : Prop where
  out : o'.out = o.out ++ outline rows
  depth : o'.depth = o.depth

variable {o o' o'' : Outliner} {rows rows' : List Row}

theorem Lists.refl (o : Outliner) : o.Lists [] o := ⟨by simp [outline], rfl⟩

theorem Lists.trans (h : o.Lists rows o') (h' : o'.Lists rows' o'') : o.Lists (rows ++ rows') o'' := by
  refine ⟨?_, h'.depth.trans h.depth⟩
  rw [h'.out, h.out, outline_append, String.append_assoc]

/-- What is listed next starts at the same level. -/
theorem Lists.next (h : o.Lists rows o') (rest : Nat → List Row) (h' : o'.Lists (rest o'.depth) o'') :
    o.Lists (rows ++ rest o.depth) o'' := by
  rw [h.depth] at h'
  exact h.trans h'

theorem join_replicate (n : Nat) :
    String.join (List.replicate n "  ") = String.ofList (List.replicate (2 * n) ' ') := by
  apply String.toList_inj.mp
  rw [String.toList_join, String.toList_ofList]
  induction n with
  | zero => rfl
  | succ n ih =>
    rw [List.replicate_succ, List.flatMap_cons, ih, Nat.mul_succ, Nat.add_comm,
      ← List.replicate_append_replicate]
    rfl

theorem lists_line (o : Outliner) (l : Label) : o.Lists [⟨o.depth, l⟩] (o.line l.text) := by
  refine ⟨?_, rfl⟩
  simp [line, outline, Row.text, join_replicate, String.append_assoc]

/-- What is nested is listed one level deeper, and the level is restored behind it. -/
theorem Lists.nested {list : Outliner → Outliner}
    (h : ({ o with depth := o.depth + 1 } : Outliner).Lists rows (list { o with depth := o.depth + 1 })) :
    o.Lists rows (o.nested list) := by
  refine ⟨h.out, ?_⟩
  rw [Outliner.nested, h.depth]
  rfl

theorem lists_comment {role : Role} (h : o.role = role.text) (c : Comment) :
    o.Lists [⟨o.depth, .comment role c⟩] (o.comment c) := by
  obtain ⟨kind, text⟩ := c
  unfold comment
  rw [h]
  cases kind with
  | line => exact lists_line o (.comment role ⟨.line, text⟩)
  | block => exact lists_line o (.comment role ⟨.block, text⟩)

/-- The role that is set in front of a list of comments is kept to its end. -/
theorem lists_comments (o : Outliner) (role : Role) (cs : List Comment) :
    o.Lists (commentRows role o.depth cs) (o.comments role.text cs) := by
  have hfold (q : Outliner) (h : q.role = role.text) :
      q.Lists (commentRows role q.depth cs) (cs.foldl comment q) := by
    -- listing a comment leaves the role as it is, so what holds of it passes on to the next
    induction cs generalizing q with
    | nil => exact .refl q
    | cons c cs ih => exact (lists_comment h c).next (commentRows role · cs) (ih _ h)
  have hall := hfold { o with role := role.text } rfl
  exact ⟨hall.out, hall.depth⟩

theorem Lists.comments (h : o.Lists rows o') (role : Role) (cs : List Comment) :
    o.Lists (rows ++ commentRows role o.depth cs) (o'.comments role.text cs) :=
  h.next (commentRows role · cs) (lists_comments o' role cs)

theorem lists_expr (o : Outliner) (e : Expr) : o.Lists (e.rows o.depth) (o.expr e) := by
  induction e generalizing o with
  | paren inner ih => exact (lists_line o .paren).trans (.nested (ih _))
  | assign target value ih => exact (lists_line o (.assign target)).trans (.nested (ih _))
  | number n => exact lists_line o (.number n)
  | bool b => cases b <;> exact lists_line o (.bool _)
  | null => exact lists_line o .null
  | string raw => exact lists_line o (.string raw)
  | ident name => exact lists_line o (.ident name)
  | this => exact lists_line o .this

theorem lists_declarator (o : Outliner) (d : Declarator) :
    o.Lists (d.rows o.depth) (o.declarator d) := by
  have hname := lists_line o (.declarator d.name)
  unfold declarator Declarator.rows
  cases d.init with
  | none => exact hname
  | some e => exact hname.trans (.nested (lists_expr _ e))

theorem lists_declarators (o : Outliner) (ds : List Declarator) :
    o.Lists (ds.flatMap (Declarator.rows o.depth)) (ds.foldl declarator o) := by
  induction ds generalizing o with
  | nil => exact .refl o
  | cons d ds ih => exact (lists_declarator o d).next (fun n => ds.flatMap (Declarator.rows n)) (ih _)

mutual
theorem lists_stmt (o : Outliner) : (s : Stmt) → o.Lists (s.rows o.depth) (o.stmt s)
  | ⟨leading, f, trailing⟩ => by
    have hlead := lists_comments o .leading leading
    -- the comments inside the form leave some role of their own behind, which is set anew here
    have hform := hlead.next (f.rows ·) (lists_form _ f)
    rw [Stmt.rows, stmt]
    exact hform.comments .trailing trailing

theorem lists_form (o : Outliner) : (f : Form) → o.Lists (f.rows o.depth) (o.form f)
  | .block b => by
    rw [Form.rows, form]
    exact lists_block o b
  | .empty => by
    rw [Form.rows, form]
    exact lists_line o .empty
  | .function name params b => by
    rw [Form.rows, form]
    exact (lists_line o (.function name params)).trans (.nested (lists_block _ b))
  | .var ds => by
    rw [Form.rows, form]
    exact (lists_line o .var).trans (.nested (lists_declarators _ ds))
  | .expr e => by
    rw [Form.rows, form]
    exact (lists_line o .exprStmt).trans (.nested (lists_expr _ e))

theorem lists_block (o : Outliner) : (b : Body) → o.Lists (b.blockRows o.depth) (o.block b)
  | ⟨ss, dangling⟩ => by
    rw [Body.blockRows, block]
    exact (lists_line o .block).trans (.nested ((lists_stmts _ ss).comments .dangling dangling))

theorem lists_stmts (o : Outliner) : (ss : List Stmt) → o.Lists (stmtRows o.depth ss) (o.stmts ss)
  | [] => by
    rw [stmtRows, stmts]
    exact .refl o
  | s :: ss => by
    rw [stmtRows, stmts]
    exact (lists_stmt o s).next (stmtRows · ss) (lists_stmts _ ss)
end

theorem lists_program (o : Outliner) (b : Body) : o.Lists (⟨o.depth, .program⟩ ::
    (stmtRows (o.depth + 1) b.stmts ++ commentRows .dangling (o.depth + 1) b.dangling)) (o.program b) :=
  (lists_line o .program).trans (.nested ((lists_stmts _ b.stmts).comments .dangling b.dangling))

end Outliner

namespace Fragment

def rows (f : Fragment) (b : Body) : List Row :=
  match f with
  | program => b.programRows
  | function => b.blockRows 0

theorem dump_eq (f : Fragment) (b : Body) : f.dump b = outline (f.rows b) := by
  cases f with
  | program => exact (Outliner.lists_program .new b).out.trans String.empty_append
  | function => exact (Outliner.lists_block .new b).out.trans String.empty_append

end Fragment

end Reprint
