import Reprint.Proofs.Relexing

/-!
# Reading printed trees

A cursor that stands in front of the parts of a printed tree reads the tree and ends behind them.
With what lexing gives back, a tree survives printing and reading exactly when it is well-formed.
-/

namespace Reprint

/-! ## Cursors in front of parts -/

def firstToken : List Part → Option Token
  | [] => none
  | .lexeme (.token t) :: _ => some t
  | _ :: ps => firstToken ps

/-- The cursor has `q` queued and stands in front of `ps` at the position `p`; the comments up to
the next token are queued as well. -/
structure Cursor.At (c : Cursor) (q : List (Located Comment)) (p : Position) (ps : List Part) :
    Prop where
  queue : c.queue = q ++ (pieces (locate p ps)).1
  ahead : c.ahead = (pieces (locate p ps)).2

theorem reaches_of_locate (p : Position) (ps : List Part) :
    ∀ x ∈ (pieces (locate p ps)).1, p.Reaches x.span.start := by
  induction ps generalizing p with
  | nil => simp [locate, pieces]
  | cons part ps ih =>
    cases part with
    | space => exact fun x hx => (Position.reaches_next ..).trans (ih _ x hx)
    | newline => exact fun x hx => (Position.reaches_next ..).trans (ih _ x hx)
    | indent n => exact fun x hx => (Position.reaches_after ..).trans (ih _ x hx)
    | lexeme l =>
      cases l with
      | token t => simp [locate, pieces]
      | comment c =>
        simp only [locate, pieces, List.mem_cons]
        intro x hx
        rcases hx with rfl | hx
        · exact .refl p
        · exact (Position.reaches_after ..).trans (ih _ x hx)

theorem token_of_locate {p : Position} {ps : List Part} :
    (pieces (locate p ps)).2.head?.map Piece.token = firstToken ps := by
  induction ps generalizing p with
  | nil => rfl
  | cons part ps ih =>
    cases part with
    | lexeme l =>
      cases l with
      | token t => rfl
      | comment c => exact ih
    | _ => exact ih

/-! ## How forms start -/

theorem Expr.parts_eq_cons (e : Expr) : ∃ t ps, e.parts = .token t :: ps ∧ t ≠ .closeBrace := by
  cases e <;> exact ⟨_, _, rfl, by simp⟩

theorem Body.blockParts_eq_cons (w d : Nat) (b : Body) :
    ∃ ps, b.blockParts w d = .token .openBrace :: ps := by
  obtain ⟨ss, dangling⟩ := b
  rcases Body.blockParts_cases w d ss dangling with ⟨-, -, h⟩ | h <;> exact ⟨_, h⟩

theorem Form.parts_eq_cons (w d : Nat) (f : Form) :
    ∃ t ps, f.parts w d = .token t :: ps ∧ t ≠ .closeBrace := by
  cases f with
  | block b =>
    obtain ⟨ps, h⟩ := b.blockParts_eq_cons w d
    exact ⟨_, _, by rw [Form.parts, h], by simp⟩
  | expr e =>
    obtain ⟨t, ps, h, hne⟩ := e.parts_eq_cons
    exact ⟨t, _, by rw [Form.parts, h]; rfl, hne⟩
  | _ => exact ⟨_, _, by rw [Form.parts], by simp⟩

theorem firstToken_lines (n : Nat) (cs : List Comment) (ps : List Part) :
    firstToken (lineParts n cs ++ ps) = firstToken ps := by
  induction cs with
  | nil => rfl
  | cons c cs ih => exact ih

theorem Stmt.firstToken_parts (w d : Nat) (s : Stmt) (ps : List Part) :
    ∃ t, firstToken (s.parts w d ++ ps) = some t ∧ t ≠ .closeBrace := by
  obtain ⟨leading, f, trailing⟩ := s
  obtain ⟨t, tail, h, hne⟩ := f.parts_eq_cons w d
  refine ⟨t, ?_, hne⟩
  rw [Stmt.parts, h, List.append_assoc, firstToken_lines]
  rfl

def Comment.OnOneLine (c : Comment) : Prop := '\n' ∉ c.text.toList

namespace Cursor

variable {c : Cursor} {q : List (Located Comment)} {p : Position} {ps : List Part}

theorem At.token? (h : c.At q p ps) : c.token? = firstToken ps := by
  rw [Cursor.token?, h.ahead, token_of_locate]

theorem At.advance {t : Token} (h : c.At q p (.token t :: ps)) :
    c.advance.At q (p.after t.spelling.toList) ps ∧
      c.advance.prevStop = p.after t.spelling.toList := by
  have hahead := h.ahead
  have hqueue := h.queue
  simp only [Part.token, locate, Lexeme.spelling, pieces, List.append_nil] at hahead hqueue
  unfold Cursor.advance
  rw [hahead]
  exact ⟨⟨by rw [hqueue], rfl⟩, rfl⟩

theorem At.queue_eq {t : Token} (h : c.At q p (.token t :: ps)) : c.queue = q := by
  have := h.queue
  simpa [Part.token, locate, pieces] using this

theorem At.comment {x : Comment} (h : c.At q p (.comment x :: ps)) :
    c.At (q ++ [⟨x, p, p.after x.text.toList⟩]) (p.after x.text.toList) ps := by
  obtain ⟨hqueue, hahead⟩ := h
  simp only [Part.comment, locate, Lexeme.spelling, pieces] at hqueue hahead
  exact ⟨by simpa using hqueue, hahead⟩

theorem At.space (h : c.At q p (.space :: ps)) : c.At q (p.next ' ') ps := ⟨h.queue, h.ahead⟩

theorem At.newline (h : c.At q p (.newline :: ps)) : c.At q (p.next '\n') ps := ⟨h.queue, h.ahead⟩

theorem At.indent {n : Nat} (h : c.At q p (.indent n :: ps)) :
    c.At q (p.after (List.replicate n ' ')) ps := ⟨h.queue, h.ahead⟩

theorem At.withQueue {t : Token} (h : c.At q p (.token t :: ps)) (q' : List (Located Comment)) :
    (c.withQueue q').At q' p (.token t :: ps) :=
  ⟨by simp [Part.token, locate, pieces], h.ahead⟩

theorem At.record (h : c.At q p ps) (r : Record) : (c.record r).At q p ps := ⟨h.queue, h.ahead⟩

theorem At.prepend (h : c.At [] p ps) : (c.withQueue (q ++ c.queue)).At q p ps :=
  ⟨by simp [h.queue], h.ahead⟩

/-! ## Expressions and lists -/

theorem At.expr (e : Expr) (h : c.At q p (e.parts ++ ps)) (hne : firstToken ps ≠ some .equals) :
    ∃ c' p', c.ReadsExpr e c' ∧ c'.At q p' ps := by
  -- the operands all close in the same way
  have hoperand {c : Cursor} {p : Position} {t : Token} {e : Expr} {ps : List Part}
      (hop : t.operand? = some e) (h : c.At q p (.token t :: ps))
      (hne : firstToken ps ≠ some .equals) : ∃ c' p', c.ReadsExpr e c' ∧ c'.At q p' ps := by
    have hadv := h.advance.1
    exact ⟨_, _, .operand h.token? hop (hadv.token? ▸ hne), hadv⟩
  induction e generalizing c p ps with
  | number n => exact hoperand rfl h hne
  | bool b => exact hoperand rfl h hne
  | null => exact hoperand rfl h hne
  | string raw => exact hoperand rfl h hne
  | ident name => exact hoperand rfl h hne
  | this => exact hoperand rfl h hne
  | paren inner ih =>
    rw [Expr.parts, List.cons_append, List.append_assoc] at h
    obtain ⟨c₁, p₁, hread, hat⟩ := ih h.advance.1 (by simp [firstToken, Part.token])
    have hadv := hat.advance.1
    exact ⟨_, _, .paren h.token? hread hat.token? (hadv.token? ▸ hne), hadv⟩
  | assign target value ih =>
    simp only [Expr.parts, List.cons_append] at h
    have hequals := h.advance.1.space
    obtain ⟨c₁, p₁, hread, hat⟩ := ih hequals.advance.1.space hne
    exact ⟨_, _, .assign h.token? hequals.token? hread, hat⟩

theorem At.names (name : String) (names : List String)
    (h : c.At q p (.token (.ident name) :: (commaTail nameParts names ++ .token .closeParen :: ps))) :
    ∃ c' p', c.ReadsNames (name :: names) c' ∧ c'.At q p' ps := by
  induction names generalizing c p name with
  | nil =>
    have hclose := h.advance.1
    exact ⟨_, _, .last h.token? hclose.token?, hclose.advance.1⟩
  | cons name' names ih =>
    have hcomma := h.advance.1
    obtain ⟨c₁, p₁, hread, hat⟩ := ih name' hcomma.advance.1.space
    exact ⟨_, _, .more h.token? hcomma.token? hread, hat⟩

theorem At.params (names : List String)
    (h : c.At q p (.token .openParen :: (commaParts nameParts names ++ .token .closeParen :: ps))) :
    ∃ c' p', c.ReadsParams names c' ∧ c'.At q p' ps := by
  cases names with
  | nil =>
    have hclose := h.advance.1
    exact ⟨_, _, .none h.token? hclose.token?, hclose.advance.1⟩
  | cons name names =>
    obtain ⟨c₁, p₁, hread, hat⟩ := At.names name names h.advance.1
    exact ⟨_, _, .some h.token? hread, hat⟩

theorem At.initializer (d : Declarator) (h : c.At q p (d.parts ++ ps))
    (hne : firstToken ps ≠ some .equals) : ∃ c' p', c.token? = some (.ident d.name) ∧
      c.advance.ReadsInit d.init c' ∧ c'.At q p' ps := by
  unfold Declarator.parts at h
  split at h
  · rename_i hinit
    have hadv := h.advance.1
    rw [hinit]
    exact ⟨_, _, h.token?, .none (hadv.token? ▸ hne), hadv⟩
  · rename_i e hinit
    simp only [List.cons_append] at h
    have hequals := h.advance.1.space
    obtain ⟨c₁, p₁, hread, hat⟩ := At.expr e hequals.advance.1.space hne
    rw [hinit]
    exact ⟨_, _, h.token?, .some hequals.token? hread, hat⟩

theorem At.declarators (d : Declarator) (ds : List Declarator)
    (h : c.At q p (d.parts ++ (commaTail Declarator.parts ds ++ .token .semicolon :: ps))) :
    ∃ c' p', c.ReadsDeclarators (d :: ds) c' ∧ c'.At q p' (.token .semicolon :: ps) := by
  induction ds generalizing c p d with
  | nil =>
    obtain ⟨c₁, p₁, hname, hinit, hat⟩ := At.initializer d h (by simp [commaTail, firstToken, Part.token])
    refine ⟨_, _, .last hname hinit ?_, hat⟩
    simp [hat.token?, firstToken, commaTail, Part.token]
  | cons d' ds ih =>
    obtain ⟨c₁, p₁, hname, hinit, hat⟩ := At.initializer d h (by simp [commaTail, firstToken, Part.token])
    simp only [commaTail, List.flatMap_cons, List.cons_append, List.append_assoc] at hat
    obtain ⟨c₂, p₂, hread, hat₂⟩ := ih d' hat.advance.1.space
    exact ⟨_, _, .more hname hinit hat.token? hread, hat₂⟩

/-! ## Comments -/

theorem At.lines {n : Nat} (cs : List Comment) (h : c.At q p (lineParts n cs ++ ps)) :
    ∃ xs p', values xs = cs ∧ c.At (q ++ xs) p' ps := by
  induction cs generalizing q p with
  | nil => exact ⟨[], p, rfl, by simpa [lineParts] using h⟩
  | cons x cs ih =>
    have hrest := At.newline (At.comment (At.indent h))
    obtain ⟨xs, p', hxs, hat⟩ := ih hrest
    rw [List.append_assoc] at hat
    exact ⟨_, p', by rw [values_append, hxs]; rfl, hat⟩

/-- Trailing comments all start on the line where the statement ends, and what comes behind them is
on a later line. -/
theorem At.behind (cs : List Comment) (hcs : ∀ x ∈ cs.dropLast, x.OnOneLine)
    (h : c.At q p (behindParts cs ++ .newline :: ps)) :
    ∃ xs p', values xs = cs ∧ (∀ x ∈ xs, p.Reaches x.span.start ∧ x.span.start.line = p.line) ∧
      p.Reaches p' ∧ p.line < p'.line ∧ c.At (q ++ xs) p' ps := by
  induction cs generalizing q p with
  | nil =>
    refine ⟨[], p.next '\n', rfl, by simp, Position.reaches_next .., ?_, by simpa using At.newline h⟩
    simp [Position.line_next]
  | cons x cs ih =>
    have hrest := At.comment (At.space h)
    have hcs' : ∀ y ∈ cs.dropLast, y.OnOneLine := by
      intro y hy
      cases cs with
      | nil => simp at hy
      | cons z cs => exact hcs y (by simp [hy])
    obtain ⟨xs, p', hxs, hstart, hreach, hline, hat⟩ := ih hcs' hrest
    have hp : p.Reaches ((p.next ' ').after x.text.toList) :=
      (Position.reaches_next ..).trans (Position.reaches_after ..)
    rw [List.append_assoc] at hat
    refine ⟨_, p', by rw [values_append, hxs]; rfl, ?_, hp.trans hreach,
      Nat.lt_of_le_of_lt hp.line_le hline, hat⟩
    refine List.forall_mem_cons.mpr ⟨⟨Position.reaches_next p ' ', Position.line_next p ' '⟩, ?_⟩
    intro y hy
    refine ⟨hp.trans (hstart y hy).1, (hstart y hy).2.trans ?_⟩
    -- another comment follows, so this one keeps to its line
    have hne : cs ≠ [] := by
      intro hcs
      rw [hcs] at hxs
      have hnil : xs = [] := List.map_eq_nil_iff.mp hxs
      simp [hnil] at hy
    have hx : x.OnOneLine := by
      obtain ⟨z, cs, rfl⟩ := List.exists_cons_of_ne_nil hne
      exact hcs x (by simp)
    rw [Position.line_after, Position.line_next, List.count_eq_zero.mpr hx]
    rfl

/-- What a statement takes from the queue behind it: the comments on its last line. -/
theorem shareOut_behind {stop p' : Position} {xs ys : List (Located Comment)}
    (hxs : ∀ x ∈ xs, stop.Reaches x.span.start ∧ x.span.start.line = stop.line)
    (hys : ∀ y ∈ ys, p'.Reaches y.span.start) (hreach : stop.Reaches p') (hline : stop.line < p'.line) :
    shareOut stop (xs ++ ys) = ⟨[], values xs, ys⟩ := by
  have hon : ∀ x ∈ xs, startsOnLine stop x = true := fun x hx => by simp [startsOnLine, (hxs x hx).2]
  have hoff : ∀ y ∈ ys.head?, startsOnLine stop y = false := by
    intro y hy
    have := (hys y (List.mem_of_mem_head? hy)).line_le
    simp only [startsOnLine, decide_eq_false_iff_not]
    omega
  rw [shareOut_of_le, takeWhile_append_of_head hon hoff, dropWhile_append_of_head hon hoff]
  intro x hx
  rcases List.mem_append.mp hx with hx | hx
  · exact (hxs x hx).1.offset_le
  · exact (hreach.trans (hys x hx)).offset_le

/-! ## Statements -/

mutual
theorem At.stmt {c : Cursor} {p : Position} {w d : Nat} (s : Stmt) {ps : List Part}
    (hs : ∀ s' ∈ s.within, s'.Sound Comment.OnOneLine) (h : c.At [] p (s.parts w d ++ ps)) :
    ∃ c' p', c.ReadsStmt s c' ∧ c'.At [] p' ps := by
  match s with
  | ⟨leading, f, trailing⟩ =>
    rw [Stmt.within, List.forall_mem_cons] at hs
    simp only [Stmt.parts, List.append_assoc, List.cons_append, List.nil_append] at h
    obtain ⟨lead, p₁, rfl, hlead⟩ := At.lines leading h
    obtain ⟨t, tail, htail, -⟩ := f.parts_eq_cons w d
    obtain ⟨p₂, hform⟩ : ∃ p₂, c.At lead p₂ (f.parts w d ++ (behindParts trailing ++ .newline :: ps)) :=
      ⟨_, hlead.indent⟩
    rw [htail] at hform
    -- the queue in front of the form is what it is led by, and reading the form starts without it
    have hqueue := hform.queue_eq
    have hstart : ((c.withQueue []).record (.readingStmt c.here c.found)).At [] p₂
        (f.parts w d ++ (behindParts trailing ++ .newline :: ps)) := by
      rw [htail]
      exact (hform.withQueue []).record _
    obtain ⟨c₁, p₃, hread, hat, hstop⟩ := At.form f hs.1.form hs.2 hstart
    obtain ⟨behind, p₄, rfl, hbehind, hreach, hline, hat₄⟩ := At.behind trailing hs.1.trailing hat
    have hshares := shareOut_behind hbehind (reaches_of_locate p₄ ps) hreach hline
    rw [← List.nil_append behind, ← hat₄.queue, ← hstop] at hshares
    have hstmt := ReadsStmt.owning hread hshares
    rw [comments_eq, hqueue, List.append_nil] at hstmt
    exact ⟨_, p₄, hstmt, rfl, hat₄.ahead⟩

theorem At.form {c : Cursor} {q : List (Located Comment)} {p : Position} {w d : Nat} (f : Form)
    {ps : List Part} (hf : f.Spelled) (hs : ∀ s ∈ f.within, s.Sound Comment.OnOneLine)
    (h : c.At q p (f.parts w d ++ ps)) :
    ∃ c' p', c.ReadsForm f c' ∧ c'.At q p' ps ∧ c'.prevStop = p' := by
  match f with
  | .block b =>
    rw [Form.parts] at h
    rw [Form.within] at hs
    obtain ⟨c₁, p₁, hread, hat, hstop⟩ := At.block b hs h
    exact ⟨_, _, .block hread, hat, hstop⟩
  | .empty =>
    rw [Form.parts] at h
    exact ⟨_, _, .empty h.token?, h.advance⟩
  | .function name params b =>
    simp only [Form.parts, List.cons_append, List.append_assoc] at h
    rw [Form.within] at hs
    have hname := h.advance.1.space
    obtain ⟨c₁, p₁, hparams, hat⟩ := At.params params hname.advance.1
    obtain ⟨c₂, p₂, hread, hat₂, hstop⟩ := At.block b hs hat.space
    exact ⟨_, _, .function h.token? hname.token? hparams hread, hat₂, hstop⟩
  | .var ds =>
    simp only [Form.parts, List.cons_append, List.append_assoc] at h
    obtain ⟨d, ds, rfl⟩ := List.exists_cons_of_ne_nil hf.1
    rw [commaParts, List.append_assoc] at h
    obtain ⟨c₁, p₁, hread, hat⟩ := At.declarators d ds h.advance.1.space
    exact ⟨_, _, .var h.token? hread (.semicolon hat.token?), hat.advance⟩
  | .expr e =>
    rw [Form.parts, List.append_assoc] at h
    obtain ⟨c₁, p₁, hread, hat⟩ := At.expr e h (by simp [firstToken, Part.token])
    exact ⟨_, _, .expr hread (.semicolon hat.token?), hat.advance⟩

theorem At.block {c : Cursor} {q : List (Located Comment)} {p : Position} {w d : Nat} (b : Body)
    {ps : List Part} (hs : ∀ s ∈ b.within, s.Sound Comment.OnOneLine)
    (h : c.At q p (b.blockParts w d ++ ps)) :
    ∃ c' p', c.ReadsBlock b c' ∧ c'.At q p' ps ∧ c'.prevStop = p' := by
  match b with
  | ⟨ss, dangling⟩ =>
    rw [Body.within] at hs
    rcases Body.blockParts_cases w d ss dangling with ⟨rfl, rfl, hparts⟩ | hparts
    · rw [hparts] at h
      have hclose := (h.withQueue []).advance.1
      have hlast := (At.withQueue hclose []).advance
      have hread := ReadsBlock.braces h.token? (.nil hclose.token?) hclose.token? rfl
      rw [comments_eq, hclose.queue_eq, h.queue_eq] at hread
      exact ⟨_, _, hread, hlast.1.prepend, hlast.2⟩
    · rw [hparts] at h
      simp only [List.cons_append, List.append_assoc, List.nil_append] at h
      have hinner := (h.withQueue []).advance.1.newline
      obtain ⟨c₁, p₁, hss, hat⟩ := At.stmts ss hs (.inr (firstToken_lines ..)) hinner
      obtain ⟨dangle, p₂, rfl, hlines⟩ := At.lines dangling hat
      have hclose := hlines.indent
      have hlast := (At.withQueue hclose []).advance
      rw [firstToken_lines] at hss
      have hread := ReadsBlock.braces h.token? hss hclose.token? rfl
      rw [comments_eq, hclose.queue_eq, h.queue_eq] at hread
      exact ⟨_, _, hread, hlast.1.prepend, hlast.2⟩

theorem At.stmts {c : Cursor} {p : Position} {w d : Nat} (ss : List Stmt) {ps : List Part}
    (hs : ∀ s ∈ stmtsWithin ss, s.Sound Comment.OnOneLine)
    (hclose : firstToken ps = none ∨ firstToken ps = some .closeBrace)
    (h : c.At [] p (stmtsParts w d ss ++ ps)) :
    ∃ c' p', c.ReadsStmts (firstToken ps) ss c' ∧ c'.At [] p' ps := by
  match ss with
  | [] =>
    rw [stmtsParts] at h
    exact ⟨c, p, .nil h.token?, h⟩
  | s :: ss =>
    rw [stmtsWithin, List.forall_mem_append] at hs
    rw [stmtsParts, List.append_assoc] at h
    obtain ⟨t, ht, hne⟩ := s.firstToken_parts w d (stmtsParts w d ss ++ ps)
    obtain ⟨c₁, p₁, hread, hat⟩ := At.stmt s hs.1 h
    obtain ⟨c₂, p₂, hread₂, hat₂⟩ := At.stmts ss hs.2 hclose hat
    refine ⟨_, _, .cons (h.token?.trans ht) ?_ hread hread₂, hat₂⟩
    rcases hclose with hc | hc <;> simp [hc, hne.symm]
end

end Cursor

/-! ## Whole trees -/

theorem Body.trail_nil (b : Body) : b.trail [] = b := by
  obtain ⟨ss, dangling⟩ := b
  simp [Body.trail]

theorem Cursor.start_at (text : String) (ps : List Part) :
    (Cursor.start text (locate .origin ps)).At [] .origin ps :=
  ⟨rfl, rfl⟩

theorem Fragment.read_parts (f : Fragment) (w : Nat) (b : Body) {c : Cursor}
    (hb : ∀ s ∈ b.within, s.Sound Comment.OnOneLine) (h : c.At [] .origin (f.parts w b)) :
    ∃ c', f.read c = .ok b c' := by
  cases f with
  | program =>
    obtain ⟨ss, dangling⟩ := b
    rw [Body.within] at hb
    rw [parts, ← List.append_nil (lineParts 0 dangling)] at h
    have hnone : firstToken (lineParts 0 dangling ++ []) = none := firstToken_lines ..
    obtain ⟨c₁, p₁, hss, hat⟩ := Cursor.At.stmts ss hb (.inl hnone) h
    rw [hnone] at hss
    refine ⟨_, read_program_iff.mpr ⟨ss, c₁, hss, ?_, rfl⟩⟩
    obtain ⟨xs, p₂, rfl, hat₂⟩ := Cursor.At.lines dangling hat
    have hqueue := hat₂.queue
    simp only [locate, pieces, List.nil_append, List.append_nil] at hqueue
    rw [Cursor.comments_eq, hqueue]
  | function =>
    obtain ⟨ps, hps⟩ := b.blockParts_eq_cons w 0
    rw [parts, hps] at h
    have hhead : c.ReadsHead c := .bare (by rw [h.token?]; simp [firstToken, Part.token])
    have hopen : (c.withQueue []).At [] .origin (b.blockParts w 0 ++ [.newline]) := by
      rw [hps]
      exact Cursor.At.withQueue h []
    obtain ⟨c₂, p₂, hread, hat, -⟩ := Cursor.At.block b hb hopen
    have hqueue : c₂.queue = [] := hat.queue
    refine ⟨_, read_function_iff.mpr ⟨c, b, c₂, hhead, hread, hat.token?, ?_, rfl⟩⟩
    rw [Cursor.comments_eq, Cursor.comments_eq, h.queue_eq, hqueue, values_nil, Body.lead_nil,
      Body.trail_nil]

/-- A well-formed tree is read back from its printed form. -/
theorem Fragment.parse_printWith (f : Fragment) (w : Nat) {b : Body} (hb : b.WellFormed) :
    f.parse (f.printWith w b) = .ok b := by
  rw [parse_eq_ok_iff]
  refine ⟨_, f.tokenize_printWith w hb, ?_⟩
  exact f.read_parts w b (fun s hs => ⟨hb.forms s hs, fun c hc => (hb.trailing s hs c hc).2⟩)
    (Cursor.start_at ..)

/-- A tree that is read back from its printed form has no line comment in front of another trailing
comment, since that line comment would have come back with the other one in it. -/
theorem Fragment.lineLast_of_parse_printWith (f : Fragment) (w : Nat) {b : Body}
    (h : f.parse (f.printWith w b) = .ok b) : ∀ s ∈ b.within, s.LineLast := by
  obtain ⟨ls, hls, -⟩ := parse_eq_ok_iff.mp h
  have hlexed := tokenize_eq_ok_iff.mp hls
  rw [f.printWith_eq] at hlexed
  have hspelled := f.spelled_parts w b (forms_of_parse h) (comments_spelled_of_parse h)
  have hcomments : lexemeComments ls = Reprint.partComments (f.parts w b) := by
    rw [← f.comments_of_parse hls h, f.partComments]
  exact (f.linesEnded_iff w b).mp
    (linesEnded_of_lexed hspelled (f.separated w b) hlexed hcomments)

theorem Fragment.parse_printWith_iff (f : Fragment) (w : Nat) (b : Body) :
    f.parse (f.printWith w b) = .ok b ↔ b.WellFormed := by
  constructor
  · intro h
    exact (wellFormed_iff_of_parse h).mpr (f.lineLast_of_parse_printWith w h)
  · exact f.parse_printWith w

end Reprint
