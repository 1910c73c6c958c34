import Reprint.Comment
import Reprint.Numeral

/-!
# Syntax trees

A statement owns the comments in front of it and inside it (`leading`) and those behind it on its
last line (`trailing`). A body is a run of statements with the comments that no statement owns;
it stands for a whole text and, between braces, for a block. Equality of trees is decidable.
-/

namespace Reprint

inductive Expr where
  | number (n : Numeral)
  | bool (b : Bool)
  | null
  /-- The quotes and the escapes are kept. -/
  | string (raw : String)
  | ident (name : String)
  | this
  | paren (inner : Expr)
  | assign (target : String) (value : Expr)
deriving DecidableEq

/-- A declared name with the expression it starts from, if any. -/
structure Declarator where
  name : String
  init : Option Expr
deriving DecidableEq

mutual
structure Stmt where
  leading : List Comment
  form : Form
  trailing : List Comment

inductive Form where
  | block (body : Body)
  | empty
  | function (name : String) (params : List String) (body : Body)
  | var (declarators : List Declarator)
  | expr (e : Expr)

structure Body where
  stmts : List Stmt
  dangling : List Comment
end

/-- A part of a tree that can be read or printed by itself. -/
inductive Node where
  /-- A body that stands for a whole text. -/
  | program (b : Body)
  /-- A body in braces. -/
  | block (b : Body)
  | stmt (s : Stmt)
  | expr (e : Expr)

namespace Body

/-- Puts comments in front of all that the body holds. -/
def lead (before : List Comment) : Body → Body
  | ⟨s :: ss, dangling⟩ => ⟨{ s with leading := before ++ s.leading } :: ss, dangling⟩
  | ⟨[], dangling⟩ => ⟨[], before ++ dangling⟩

/-- Puts comments behind all that the body holds. -/
def trail (after : List Comment) (b : Body) : Body :=
  { b with dangling := b.dangling ++ after }

end Body

/-! ## Equality -/

mutual
def Stmt.beq : Stmt → Stmt → Bool
  | ⟨l, f, t⟩, ⟨l', f', t'⟩ => l == l' && f.beq f' && t == t'
def Form.beq : Form → Form → Bool
  | .block b, .block b' => b.beq b'
  | .empty, .empty => true
  | .function n ps b, .function n' ps' b' => n == n' && ps == ps' && b.beq b'
  | .var ds, .var ds' => ds == ds'
  | .expr e, .expr e' => e == e'
  | _, _ => false
def Body.beq : Body → Body → Bool
  | ⟨ss, d⟩, ⟨ss', d'⟩ => stmtsBeq ss ss' && d == d'
def stmtsBeq : List Stmt → List Stmt → Bool
  | [], [] => true
  | s :: ss, s' :: ss' => s.beq s' && stmtsBeq ss ss'
  | _, _ => false
end

mutual
theorem Stmt.beq_iff : (s s' : Stmt) → (s.beq s' = true ↔ s = s')
  | ⟨_, f, _⟩, ⟨_, f', _⟩ => by simp [Stmt.beq, Form.beq_iff f f', and_assoc]
theorem Form.beq_iff : (f f' : Form) → (f.beq f' = true ↔ f = f')
  | .block b, f' => by cases f' <;> simp [Form.beq, Body.beq_iff b]
  | .empty, f' => by cases f' <;> simp [Form.beq]
  | .function _ _ b, f' => by cases f' <;> simp [Form.beq, Body.beq_iff b, and_assoc]
  | .var _, f' => by cases f' <;> simp [Form.beq]
  | .expr _, f' => by cases f' <;> simp [Form.beq]
theorem Body.beq_iff : (b b' : Body) → (b.beq b' = true ↔ b = b')
  | ⟨ss, _⟩, ⟨ss', _⟩ => by simp [Body.beq, stmtsBeq_iff ss ss']
theorem stmtsBeq_iff : (ss ss' : List Stmt) → (stmtsBeq ss ss' = true ↔ ss = ss')
  | [], ss' => by cases ss' <;> simp [stmtsBeq]
  | _ :: _, [] => by simp [stmtsBeq]
  | s :: ss, s' :: ss' => by simp [stmtsBeq, Stmt.beq_iff s s', stmtsBeq_iff ss ss']
end

instance : DecidableEq Stmt := fun s s' => decidable_of_iff _ (Stmt.beq_iff s s')

instance : DecidableEq Body := fun b b' => decidable_of_iff _ (Body.beq_iff b b')

end Reprint
