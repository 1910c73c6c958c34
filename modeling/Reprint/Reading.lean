import Reprint.Cursor
import Reprint.Tree

/-!
# Reading from a cursor

Reading gives a value or an error, and either way the cursor it ended at. `Reading n` is such an
outcome with, on success, fewer than `n` tokens left, which is what makes the recursive readers
end. `Reading.outcome` forgets the bound.

Operators are read by binding power: after an operand, an operator is taken as long as it holds
that operand at least as tightly as the context asks. A statement starts with the comments queued
before it. When it ends, the queue holds the comments passed inside it and those up to the next
token: the first become leading comments, those on its last line trailing ones, and the rest wait
for the next owner.
-/

namespace Reprint

inductive Outcome (α : Type) where
  | ok (value : α) (rest : Cursor)
  | error (e : ParseError) (rest : Cursor)

inductive Reading (n : Nat) (α : Type) where
  | ok (value : α) (rest : Cursor) (lt : rest.left < n)
  | error (e : ParseError) (rest : Cursor)

namespace Outcome

def andThen {α β : Type} : Outcome α → (α → Cursor → Outcome β) → Outcome β
  | ok a rest, f => f a rest
  | error e rest, _ => error e rest

def map {α β : Type} (f : α → β) (o : Outcome α) : Outcome β :=
  o.andThen fun a rest => ok (f a) rest

end Outcome

namespace Reading

variable {n m : Nat} {α β : Type}

def outcome : Reading n α → Outcome α
  | ok a rest _ => .ok a rest
  | error e rest => .error e rest

/-- Goes on from where a reading ended; an error stays. -/
def andThen : Reading n α → (α → (rest : Cursor) → rest.left < n → Reading m β) → Reading m β
  | ok a rest h, f => f a rest h
  | error e rest, _ => error e rest

theorem outcome_andThen {r : Reading n α} {f : α → (rest : Cursor) → rest.left < n → Reading m β}
    {g : α → Cursor → Outcome β} (h : ∀ a rest lt, (f a rest lt).outcome = g a rest) :
    (r.andThen f).outcome = r.outcome.andThen g := by
  cases r with
  | ok a rest lt => exact h a rest lt
  | error e rest => rfl

end Reading

/-! ## Single tokens -/

namespace Cursor

/-- Passes the token `t`. -/
def expect (t : Token) (c : Cursor) : Reading c.left Unit :=
  if h : c.token? = some t then .ok () c.advance (left_advance_lt h)
  else .error (c.unexpected (.token t)) c

/-- Passes an identifier. -/
def identifier (c : Cursor) : Reading c.left String :=
  match h : c.token? with
  | some (.ident name) => .ok name c.advance (left_advance_lt h)
  | _ => .error (c.unexpected .identifier) c

/-! ## Expressions -/

mutual
/-- An operand: a literal, an identifier, `this`, or an expression in parentheses. -/
def operand (c : Cursor) : Reading c.left Expr :=
  match h : c.token? with
  | some (.number n) => .ok (.number n) c.advance (left_advance_lt h)
  | some (.bool b) => .ok (.bool b) c.advance (left_advance_lt h)
  | some (.string raw) => .ok (.string raw) c.advance (left_advance_lt h)
  | some .null => .ok .null c.advance (left_advance_lt h)
  | some (.ident name) => .ok (.ident name) c.advance (left_advance_lt h)
  | some .this => .ok .this c.advance (left_advance_lt h)
  | some .openParen =>
    have hlt := left_advance_lt h
    (exprAbove 0 c.advance).andThen fun inner c₁ h₁ =>
    (c₁.expect .closeParen).andThen fun _ c₂ h₂ =>
    .ok (.paren inner) c₂ (by omega)
  | _ => .error (c.unexpected .expression) c
termination_by (c.left, 0)

/-- An expression whose operators all hold their left operand with at least the power `least`. -/
def exprAbove (least : Nat) (c : Cursor) : Reading c.left Expr :=
  (operand c).andThen fun lhs c₁ h₁ =>
  (operators least lhs c₁).andThen fun e c₂ h₂ =>
  .ok e c₂ (by omega)
termination_by (c.left, 1)

/-- The operators behind the operand `lhs`. -/
def operators (least : Nat) (lhs : Expr) (c : Cursor) : Reading (c.left + 1) Expr :=
  match h : c.token? with
  | none => .ok lhs c (by omega)
  | some t =>
    match t.bindingPower? with
    | none => .ok lhs c (by omega)
    | some (l, r) =>
      if l < least then .ok lhs c (by omega)
      else match lhs with
        | .ident target =>
          have hlt := left_advance_lt h
          (exprAbove r c.advance).andThen fun value c₁ h₁ =>
          (operators least (.assign target value) c₁).andThen fun e c₂ h₂ =>
          .ok e c₂ (by omega)
        | _ => .error (c.unexpected .endOfExpression) c
termination_by (c.left, 0)
end

def expr (c : Cursor) : Reading c.left Expr := c.exprAbove 0

end Cursor

/-! ## Comments at the end of a statement -/

/-- The queue at the end of a statement, shared out. -/
structure Shares where
  /-- Comments that start before the statement ends. -/
  inside : List Comment
  /-- Comments on the line where the statement ends. -/
  behind : List Comment
  /-- From the first other comment on. -/
  rest : List (Located Comment)

/-- Shares out the queue of a statement that ends at `stop`. -/
def shareOut (stop : Position) : List (Located Comment) → Shares
  | [] => ⟨[], [], []⟩
  | c :: cs =>
    if c.span.start.offset < stop.offset then
      let r := shareOut stop cs
      { r with inside := c.value :: r.inside }
    else if c.span.start.line = stop.line then
      let r := shareOut stop cs
      { r with behind := c.value :: r.behind }
    else ⟨[], [], c :: cs⟩

namespace Cursor

/-! ## Parts of statements -/

/-- Parameter names through the closing parenthesis. -/
def paramNames (c : Cursor) : Reading c.left (List String) :=
  c.identifier.andThen fun name c₁ h₁ =>
  match h : c₁.token? with
  | some .closeParen => .ok [name] c₁.advance (by have := left_advance_lt h; omega)
  | some .comma =>
    have := left_advance_lt h
    (paramNames c₁.advance).andThen fun names c₂ h₂ =>
    .ok (name :: names) c₂ (by omega)
  | _ => .error (c₁.unexpected .commaOrCloseParen) c₁
termination_by c.left

/-- Parameter names in parentheses. -/
def params (c : Cursor) : Reading c.left (List String) :=
  (c.expect .openParen).andThen fun _ c₁ h₁ =>
  match h : c₁.token? with
  | some .closeParen => .ok [] c₁.advance (by have := left_advance_lt h; omega)
  | _ => c₁.paramNames.andThen fun names c₂ h₂ => .ok names c₂ (by omega)

/-- The expression behind an equals sign, if there is one. -/
def initializer (c : Cursor) : Reading (c.left + 1) (Option Expr) :=
  match h : c.token? with
  | some .equals =>
    have := left_advance_lt h
    c.advance.expr.andThen fun e c₁ h₁ => .ok (some e) c₁ (by omega)
  | _ => .ok none c (by omega)

/-- Declarators with commas between them. -/
def declarators (c : Cursor) : Reading c.left (List Declarator) :=
  c.identifier.andThen fun name c₁ h₁ =>
  c₁.initializer.andThen fun init c₂ h₂ =>
  match h : c₂.token? with
  | some .comma =>
    have := left_advance_lt h
    (declarators c₂.advance).andThen fun ds c₃ h₃ =>
    .ok (⟨name, init⟩ :: ds) c₃ (by omega)
  | _ => .ok [⟨name, init⟩] c₂ (by omega)
termination_by c.left

/-- The end of a statement: a semicolon, which may be missing before a closing brace, at the end of
the text, and before a token on a later line. -/
def terminator (c : Cursor) : Reading (c.left + 1) Unit :=
  match h : c.token? with
  | some .semicolon => .ok () c.advance (by have := left_advance_lt h; omega)
  | some .closeBrace | none => .ok () c (by omega)
  | some _ =>
    if c.prevStop.line < c.here.line then .ok () c (by omega)
    else .error (c.unexpected (.token .semicolon)) c

/-! ## Statements and blocks -/

mutual
/-- A body in braces. Comments queued before the opening brace are queued again behind the closing
one, so that the statement around the block takes them. -/
def block (c : Cursor) : Reading c.left Body :=
  ((c.withQueue []).expect .openBrace).andThen fun _ c₁ h₁ =>
  (stmts (some .closeBrace) c₁).andThen fun ss c₂ h₂ =>
  ((c₂.withQueue []).expect .closeBrace).andThen fun _ c₃ h₃ =>
  .ok ⟨ss, c₂.comments⟩ (c₃.withQueue (c.queue ++ c₃.queue))
    (by simp only [left_withQueue] at *; omega)
termination_by (c.left, 0)

/-- A statement without the comments it owns. -/
def form (c : Cursor) : Reading c.left Form :=
  match h : c.token? with
  | some .openBrace => (block c).andThen fun b c₁ h₁ => .ok (.block b) c₁ h₁
  | some .semicolon => .ok .empty c.advance (left_advance_lt h)
  | some .function =>
    have := left_advance_lt h
    c.advance.identifier.andThen fun name c₁ h₁ =>
    c₁.params.andThen fun names c₂ h₂ =>
    (block c₂).andThen fun b c₃ h₃ =>
    .ok (.function name names b) c₃ (by omega)
  | some .var =>
    have := left_advance_lt h
    c.advance.declarators.andThen fun ds c₁ h₁ =>
    c₁.terminator.andThen fun _ c₂ h₂ =>
    .ok (.var ds) c₂ (by omega)
  | _ =>
    c.expr.andThen fun e c₁ h₁ =>
    c₁.terminator.andThen fun _ c₂ h₂ =>
    .ok (.expr e) c₂ (by omega)
termination_by (c.left, 1)

/-- A statement with the comments it owns. -/
def stmt (c : Cursor) : Reading c.left Stmt :=
  (form ((c.withQueue []).record (.readingStmt c.here c.found))).andThen fun f c₁ h₁ =>
  let shares := shareOut c₁.prevStop c₁.queue
  .ok ⟨c.comments ++ shares.inside, f, shares.behind⟩ (c₁.withQueue shares.rest)
    (by simpa only [left_withQueue, left_record] using h₁)
termination_by (c.left, 2)

/-- Statements up to the token `close`, or up to the end of the text. -/
def stmts (close : Option Token) (c : Cursor) : Reading (c.left + 1) (List Stmt) :=
  match c.token?, close with
  | none, none => .ok [] c (by omega)
  | none, some t => .error (c.unexpected (.token t)) c
  | some t, _ =>
    if close = some t then .ok [] c (by omega)
    else
      (stmt c).andThen fun s c₁ h₁ =>
      (stmts close c₁).andThen fun ss c₂ h₂ =>
      .ok (s :: ss) c₂ (by omega)
termination_by (c.left, 3)
end

/-! ## Whole texts -/

/-- Statements up to the end of the text. -/
def program (c : Cursor) : Reading (c.left + 1) Body :=
  (c.stmts none).andThen fun ss c₁ h₁ =>
  .ok ⟨ss, c₁.comments⟩ (c₁.withQueue []) (by simpa only [left_withQueue] using h₁)

/-- The head of a function literal in front of its body; a bare block has none. -/
def literalHead (c : Cursor) : Reading (c.left + 1) Unit :=
  match h : c.token? with
  | some .function =>
    have := left_advance_lt h
    match h' : c.advance.token? with
    | some (.ident name) =>
      have := left_advance_lt h'
      c.advance.advance.params.andThen fun names c₁ h₁ =>
      .ok () (c₁.record (.readLiteral (some name) names)) (by simp only [left_record]; omega)
    | _ =>
      c.advance.params.andThen fun names c₁ h₁ =>
      .ok () (c₁.record (.readLiteral none names)) (by simp only [left_record]; omega)
  | _ => .ok () c (by omega)

/-- The body of a function literal, or a bare block, up to the end of the text. Comments before the
opening brace go in front of the body and comments behind the closing one go behind it. -/
def functionBody (c : Cursor) : Reading c.left Body :=
  c.literalHead.andThen fun _ c₁ h₁ =>
  (c₁.withQueue []).block.andThen fun b c₂ h₂ =>
  match c₂.token? with
  | some _ => .error (c₂.unexpected .endOfInput) c₂
  | none =>
    .ok ((b.lead c₁.comments).trail c₂.comments) (c₂.withQueue [])
      (Nat.lt_of_lt_of_le h₂ (Nat.le_of_lt_succ h₁))

end Cursor

end Reprint
