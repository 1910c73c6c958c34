import Reprint.Proofs.Conservation

/-!
# Printed trees as lexemes and white space

The `parts` of a tree are the lexemes of its printed form in order, with the white space between
them. The printer writes exactly these (`Fragment.printWith_eq`), and their comments are those of
the tree (`Fragment.partComments`).
-/

namespace Reprint

inductive Part where
  | space
  | newline
  | indent (n : Nat)
  | lexeme (x : Lexeme)

namespace Part

def token (t : Token) : Part := .lexeme (.token t)

def comment (c : Comment) : Part := .lexeme (.comment c)

def chars : Part → List Char
  | space => [' ']
  | newline => ['\n']
  | indent n => List.replicate n ' '
  | lexeme x => x.spelling.toList

def comment? : Part → Option Comment
  | lexeme x => x.comment?
  | _ => none

@[simp] theorem chars_indent (n : Nat) : (indent n).chars = List.replicate n ' ' := rfl

@[simp] theorem chars_token (t : Token) : (token t).chars = t.spelling.toList := rfl

@[simp] theorem chars_comment (c : Comment) : (comment c).chars = c.text.toList := rfl

end Part

def layout (ps : List Part) : List Char := ps.flatMap Part.chars

@[simp] theorem layout_nil : layout [] = [] := rfl

@[simp] theorem layout_cons (p : Part) (ps : List Part) : layout (p :: ps) = p.chars ++ layout ps :=
  List.flatMap_cons

@[simp] theorem layout_append (ps qs : List Part) : layout (ps ++ qs) = layout ps ++ layout qs :=
  List.flatMap_append

/-! ## The parts of trees -/

def Expr.parts : Expr → List Part
  | .number n => [.token (.number n)]
  | .bool b => [.token (.bool b)]
  | .null => [.token .null]
  | .string raw => [.token (.string raw)]
  | .ident name => [.token (.ident name)]
  | .this => [.token .this]
  | .paren inner => .token .openParen :: (inner.parts ++ [.token .closeParen])
  | .assign target value =>
    .token (.ident target) :: .space :: .token .equals :: .space :: value.parts

def Declarator.parts (d : Declarator) : List Part :=
  match d.init with
  | none => [.token (.ident d.name)]
  | some e => .token (.ident d.name) :: .space :: .token .equals :: .space :: e.parts

def nameParts (name : String) : List Part := [.token (.ident name)]

/-- What follows the first of some items with commas between them. -/
def commaTail {α : Type} (item : α → List Part) (as : List α) : List Part :=
  as.flatMap fun a => .token .comma :: .space :: item a

def commaParts {α : Type} (item : α → List Part) : List α → List Part
  | [] => []
  | a :: as => item a ++ commaTail item as

def lineParts (n : Nat) (cs : List Comment) : List Part :=
  cs.flatMap fun c => [.indent n, .comment c, .newline]

def behindParts (cs : List Comment) : List Part :=
  cs.flatMap fun c => [.space, .comment c]

mutual
def Stmt.parts (w d : Nat) : Stmt → List Part
  | ⟨leading, f, trailing⟩ =>
    lineParts (d * w) leading ++ .indent (d * w) :: (f.parts w d ++ behindParts trailing ++ [.newline])
def Form.parts (w d : Nat) : Form → List Part
  | .block b => b.blockParts w d
  | .empty => [.token .semicolon]
  | .function name params b =>
    .token .function :: .space :: .token (.ident name) :: .token .openParen ::
      (commaParts nameParts params ++ .token .closeParen :: .space :: b.blockParts w d)
  | .var ds => .token .var :: .space :: (commaParts Declarator.parts ds ++ [.token .semicolon])
  | .expr e => e.parts ++ [.token .semicolon]
def Body.blockParts (w d : Nat) : Body → List Part
  | ⟨[], []⟩ => [.token .openBrace, .token .closeBrace]
  | ⟨ss, dangling⟩ =>
    .token .openBrace :: .newline :: (stmtsParts w (d + 1) ss ++ lineParts ((d + 1) * w) dangling ++
      [.indent (d * w), .token .closeBrace])
def stmtsParts (w d : Nat) : List Stmt → List Part
  | [] => []
  | s :: ss => s.parts w d ++ stmtsParts w d ss
end

theorem Body.blockParts_cases (w d : Nat) (ss : List Stmt) (dangling : List Comment) :
    ss = [] ∧ dangling = [] ∧
        (Body.mk ss dangling).blockParts w d = [.token .openBrace, .token .closeBrace] ∨
      (Body.mk ss dangling).blockParts w d = .token .openBrace :: .newline ::
        (stmtsParts w (d + 1) ss ++ lineParts ((d + 1) * w) dangling ++
          [.indent (d * w), .token .closeBrace]) := by
  cases ss <;> cases dangling <;> simp [Body.blockParts]

def Fragment.parts (f : Fragment) (w : Nat) (b : Body) : List Part :=
  match f with
  | .program => stmtsParts w 0 b.stmts ++ lineParts 0 b.dangling
  | .function => b.blockParts w 0 ++ [.newline]

/-! ## The printer writes the parts -/

namespace Printer

structure Writes (p : Printer) (ps : List Part) (p' : Printer) : Prop where
  out : p'.out.toList = p.out.toList ++ layout ps
  depth : p'.depth = p.depth
  width : p'.width = p.width

theorem Writes.refl (p : Printer) : p.Writes [] p := ⟨by simp, rfl, rfl⟩

theorem Writes.trans {p p₁ p₂ : Printer} {ps qs : List Part} (h₁ : p.Writes ps p₁)
    (h₂ : p₁.Writes qs p₂) : p.Writes (ps ++ qs) p₂ :=
  ⟨by rw [h₂.out, h₁.out, layout_append, List.append_assoc], h₂.depth.trans h₁.depth,
    h₂.width.trans h₁.width⟩

theorem writes_write (p : Printer) {text : String} (ps : List Part) (h : text.toList = layout ps) :
    p.Writes ps (p.write text) :=
  ⟨by simp [write, h], rfl, rfl⟩

theorem writes_token (p : Printer) (t : Token) : p.Writes [.token t] (p.write t.spelling) :=
  writes_write p _ (by simp)

theorem writes_comment (p : Printer) (c : Comment) : p.Writes [.comment c] (p.write c.text) :=
  writes_write p _ (by simp)

theorem writes_newline (p : Printer) : p.Writes [.newline] p.newline :=
  writes_write p _ (by decide)

theorem writes_indent (p : Printer) : p.Writes [.indent (p.depth * p.width)] p.indent :=
  writes_write p _ (by simp)

theorem writes_record (p : Printer) (r : Record) : p.Writes [] (p.record r) :=
  ⟨by simp [record], rfl, rfl⟩

theorem writes_commentLines (p : Printer) (cs : List Comment) :
    p.Writes (lineParts (p.depth * p.width) cs) (p.commentLines cs) := by
  induction cs generalizing p with
  | nil => exact .refl p
  | cons c cs ih =>
    have hone := ((writes_indent p).trans (writes_comment _ c)).trans (writes_newline _)
    have hrest := ih ((p.indent.write c.text).newline)
    rw [hone.depth, hone.width] at hrest
    exact hone.trans hrest

theorem writes_commentsBehind (p : Printer) (cs : List Comment) :
    p.Writes (behindParts cs) (p.commentsBehind cs) := by
  induction cs generalizing p with
  | nil => exact .refl p
  | cons c cs ih =>
    have hspace : p.Writes [.space] (p.write " ") := writes_write p _ (by decide)
    exact (hspace.trans (writes_comment _ c)).trans (ih _)

theorem writes_commaSeparated {α : Type} {item : Printer → α → Printer} {parts : α → List Part}
    (hitem : ∀ (p : Printer) (a : α), p.Writes (parts a) (item p a)) (p : Printer) (as : List α) :
    p.Writes (commaParts parts as) (commaSeparated item p as) := by
  cases as with
  | nil => exact .refl p
  | cons a as =>
    rw [commaParts, commaSeparated]
    refine (hitem p a).trans ?_
    generalize item p a = p
    induction as generalizing p with
    | nil => exact .refl p
    | cons a as ih =>
      have hcomma : p.Writes [.token .comma, .space] (p.write ", ") := writes_write p _ (by decide)
      exact (hcomma.trans (hitem _ a)).trans (ih _)

theorem writes_expr (p : Printer) (e : Expr) : p.Writes e.parts (p.expr e) := by
  induction e generalizing p with
  | number n => exact writes_token p (.number n)
  | bool b => cases b <;> exact writes_token p (.bool _)
  | null => exact writes_token p .null
  | string raw => exact writes_token p (.string raw)
  | ident name => exact writes_token p (.ident name)
  | this => exact writes_token p .this
  | paren inner ih => exact (writes_token p .openParen).trans ((ih _).trans (writes_token _ .closeParen))
  | assign target value ih =>
    have heq (q : Printer) : q.Writes [.space, .token .equals, .space] (q.write " = ") :=
      writes_write q _ (by decide)
    exact (writes_token p (.ident target)).trans ((heq _).trans (ih _))

theorem writes_declarator (p : Printer) (d : Declarator) : p.Writes d.parts (p.declarator d) := by
  unfold Declarator.parts declarator
  cases d.init with
  | none => exact writes_token p (.ident d.name)
  | some e => exact writes_expr p (.assign d.name e)

theorem writes_name (p : Printer) (name : String) : p.Writes (nameParts name) (p.write name) :=
  writes_token p (.ident name)

/-- The inside of braces is written one level deeper, and the closing brace back at the level of
the opening one. -/
theorem writes_braces {ss : List Stmt}
    (hss : ∀ q : Printer, q.Writes (stmtsParts q.width q.depth ss) (q.stmts ss)) (p : Printer)
    (dangling : List Comment) :
    p.Writes (.token .openBrace :: .newline :: (stmtsParts p.width (p.depth + 1) ss ++
        lineParts ((p.depth + 1) * p.width) dangling ++ [.indent (p.depth * p.width), .token .closeBrace]))
      (((((p.write "\x7b").newline.deeper.stmts ss).commentLines dangling).shallower.indent).write
        "\x7d") := by
  have hopen : p.Writes [.token .openBrace, .newline] (p.write "\x7b").newline :=
    (writes_token p .openBrace).trans (writes_newline _)
  have hinside := hss (p.write "\x7b").newline.deeper
  have hlines := writes_commentLines ((p.write "\x7b").newline.deeper.stmts ss) dangling
  rw [hinside.depth, hinside.width] at hlines
  generalize ((p.write "\x7b").newline.deeper.stmts ss).commentLines dangling = q at *
  have hq := hinside.trans hlines
  have hclose := (writes_indent q.shallower).trans (writes_token _ .closeBrace)
  have hdepth : q.shallower.depth = p.depth := by simp [shallower, hq.depth, deeper, hopen.depth]
  have hwidth : q.shallower.width = p.width := hq.width
  rw [hdepth, hwidth] at hclose
  refine ⟨?_, hclose.depth.trans hdepth, hclose.width.trans hwidth⟩
  have hout : q.shallower.out = q.out := rfl
  have hdeeper : (p.write "\x7b").newline.deeper.out = (p.write "\x7b").newline.out := rfl
  rw [show Token.closeBrace.spelling = "\x7d" from rfl] at hclose
  rw [hclose.out, hout, hq.out, hdeeper, hopen.out]
  simp [deeper, newline, write]

mutual
theorem writes_stmt (p : Printer) (s : Stmt) : p.Writes (s.parts p.width p.depth) (p.stmt s) := by
  match s with
  | ⟨leading, f, trailing⟩ =>
    have hlead := (writes_record p (.printingStmt p.depth)).trans (writes_commentLines _ leading)
    have hindent := writes_indent ((p.record (.printingStmt p.depth)).commentLines leading)
    have hform := writes_form ((p.record (.printingStmt p.depth)).commentLines leading).indent f
    rw [hlead.depth, hlead.width] at hindent
    rw [(hlead.trans hindent).depth, (hlead.trans hindent).width] at hform
    have hall := hlead.trans (hindent.trans ((hform.trans (writes_commentsBehind _ trailing)).trans
      (writes_newline _)))
    rw [Stmt.parts, Printer.stmt]
    exact hall

theorem writes_form (p : Printer) (f : Form) : p.Writes (f.parts p.width p.depth) (p.form f) := by
  match f with
  | .block b =>
    rw [Form.parts, Printer.form]
    exact writes_block p b
  | .empty =>
    rw [Form.parts, Printer.form]
    exact writes_token p .semicolon
  | .function name params b =>
    have hfun : p.Writes [.token .function, .space] (p.write "function ") :=
      writes_write p _ (by decide)
    have hopen (q : Printer) : q.Writes [.token .openParen] (q.write "(") :=
      writes_write q _ (by decide)
    have hclose (q : Printer) : q.Writes [.token .closeParen, .space] (q.write ") ") :=
      writes_write q _ (by decide)
    have hhead := hfun.trans ((writes_name _ name).trans ((hopen _).trans
      ((writes_commaSeparated writes_name _ params).trans (hclose _))))
    have hblock := writes_block
      ((commaSeparated write (((p.write "function ").write name).write "(") params).write ") ") b
    rw [hhead.depth, hhead.width] at hblock
    have hall := hhead.trans hblock
    rw [Form.parts, Printer.form]
    simpa [nameParts] using hall
  | .var ds =>
    have hvar : p.Writes [.token .var, .space] (p.write "var ") := writes_write p _ (by decide)
    rw [Form.parts, Printer.form]
    exact hvar.trans ((writes_commaSeparated writes_declarator _ ds).trans (writes_token _ .semicolon))
  | .expr e =>
    rw [Form.parts, Printer.form]
    exact (writes_expr p e).trans (writes_token _ .semicolon)

theorem writes_block (p : Printer) (b : Body) :
    p.Writes (b.blockParts p.width p.depth) (p.block b) := by
  match b with
  | ⟨[], []⟩ =>
    rw [Body.blockParts, Printer.block]
    exact writes_write p _ (by decide)
  | ⟨s :: ss, dangling⟩ =>
    rw [Body.blockParts, Printer.block]
    · exact writes_braces (fun q => writes_stmts q (s :: ss)) p dangling
    all_goals simp
  | ⟨[], c :: dangling⟩ =>
    rw [Body.blockParts, Printer.block]
    · exact writes_braces (fun q => writes_stmts q []) p (c :: dangling)
    all_goals simp

theorem writes_stmts (p : Printer) (ss : List Stmt) :
    p.Writes (stmtsParts p.width p.depth ss) (p.stmts ss) := by
  match ss with
  | [] =>
    rw [stmtsParts, Printer.stmts]
    exact .refl p
  | s :: ss =>
    have hs := writes_stmt p s
    have hss := writes_stmts (p.stmt s) ss
    rw [hs.depth, hs.width] at hss
    rw [stmtsParts, Printer.stmts]
    exact hs.trans hss
end

end Printer

theorem Fragment.printWith_eq (f : Fragment) (w : Nat) (b : Body) :
    (f.printWith w b).toList = layout (f.parts w b) := by
  cases f with
  | program =>
    have hss := Printer.writes_stmts (.new w) b.stmts
    have hlines := Printer.writes_commentLines ((Printer.new w).stmts b.stmts) b.dangling
    rw [hss.depth, hss.width] at hlines
    have hall := (hss.trans hlines).out
    simpa [Printer.new, parts, printWith, printer, Printer.program] using hall
  | function =>
    have hall := ((Printer.writes_block (.new w) b).trans (Printer.writes_newline _)).out
    simpa [Printer.new, parts, printWith, printer] using hall

/-! ## Comments -/

def partComments (ps : List Part) : List Comment := ps.filterMap Part.comment?

@[simp] theorem partComments_nil : partComments [] = [] := rfl

@[simp] theorem partComments_append (ps qs : List Part) :
    partComments (ps ++ qs) = partComments ps ++ partComments qs :=
  List.filterMap_append

@[simp] theorem partComments_space (ps : List Part) :
    partComments (.space :: ps) = partComments ps := rfl

@[simp] theorem partComments_newline (ps : List Part) :
    partComments (.newline :: ps) = partComments ps := rfl

@[simp] theorem partComments_indent (n : Nat) (ps : List Part) :
    partComments (.indent n :: ps) = partComments ps := rfl

@[simp] theorem partComments_token (t : Token) (ps : List Part) :
    partComments (.token t :: ps) = partComments ps := rfl

@[simp] theorem partComments_comment (c : Comment) (ps : List Part) :
    partComments (.comment c :: ps) = c :: partComments ps := rfl

@[simp] theorem partComments_expr (e : Expr) : partComments e.parts = [] := by
  induction e with
  | paren inner ih => simp [Expr.parts, ih]
  | assign target value ih => simp [Expr.parts, ih]
  | _ => rfl

theorem partComments_declarator (d : Declarator) : partComments d.parts = [] := by
  unfold Declarator.parts
  split <;> simp

theorem partComments_comma {α : Type} {item : α → List Part}
    (hitem : ∀ a, partComments (item a) = []) (as : List α) :
    partComments (commaParts item as) = [] := by
  cases as with
  | nil => rfl
  | cons a as =>
    rw [commaParts, partComments_append, hitem]
    induction as with
    | nil => rfl
    | cons a as ih => simpa [commaTail, hitem] using ih

@[simp] theorem partComments_lines (n : Nat) (cs : List Comment) :
    partComments (lineParts n cs) = cs := by
  induction cs with
  | nil => rfl
  | cons c cs ih => simpa [lineParts] using ih

@[simp] theorem partComments_behind (cs : List Comment) : partComments (behindParts cs) = cs := by
  induction cs with
  | nil => rfl
  | cons c cs ih => simpa [behindParts] using ih

mutual
theorem Stmt.partComments (w d : Nat) (s : Stmt) : partComments (s.parts w d) = s.comments := by
  match s with
  | ⟨leading, f, trailing⟩ => simp [Stmt.parts, f.partComments w d]

theorem Form.partComments (w d : Nat) (f : Form) : partComments (f.parts w d) = f.comments := by
  match f with
  | .block b => simp [Form.parts, b.partComments w d]
  | .empty => simp [Form.parts]
  | .function name params b =>
    have hnames : Reprint.partComments (commaParts nameParts params) = [] :=
      partComments_comma (fun _ => rfl) params
    simp [Form.parts, b.partComments w d, hnames]
  | .var ds => simp [Form.parts, partComments_comma partComments_declarator ds]
  | .expr e => simp [Form.parts]

theorem Body.partComments (w d : Nat) (b : Body) : partComments (b.blockParts w d) = b.comments := by
  match b with
  | ⟨ss, dangling⟩ =>
    rcases Body.blockParts_cases w d ss dangling with ⟨rfl, rfl, h⟩ | h
    · simp [h]
    · simp [h, stmtsPartComments w (d + 1) ss]

theorem stmtsPartComments (w d : Nat) (ss : List Stmt) :
    partComments (stmtsParts w d ss) = stmtComments ss := by
  match ss with
  | [] => simp [stmtsParts]
  | s :: ss => simp [stmtsParts, s.partComments w d, stmtsPartComments w d ss]
end

theorem Fragment.partComments (f : Fragment) (w : Nat) (b : Body) :
    partComments (f.parts w b) = b.comments := by
  cases f with
  | program =>
    obtain ⟨ss, dangling⟩ := b
    simp [parts, stmtsPartComments w 0 ss]
  | function => simp [parts, b.partComments w 0]

end Reprint
