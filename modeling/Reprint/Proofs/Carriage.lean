import Reprint.Proofs.Failure

/-!
# Comments are carried along

Reading never looks at what a comment says, nor at the comments that were queued before it started.
So a cursor whose comments are relabelled and which has other comments in front of its queue is read
alike: `Carries` relates the two cursors, and every reader keeps them related, whether it succeeds
(`ReadsStmts.carried`) or fails (`FailsStmts.carried`). What was queued in front leads the first
statement, or stays in front of the queue.
-/

namespace Reprint

/-! ## Relabelling -/

def Located.map {α β : Type} (g : α → β) (x : Located α) : Located β := ⟨g x.value, x.span⟩

def Piece.relabel (g : Comment → Comment) (p : Piece) : Piece :=
  { p with after := p.after.map (Located.map g) }

mutual
def Stmt.relabel (g : Comment → Comment) : Stmt → Stmt
  | ⟨leading, f, trailing⟩ => ⟨leading.map g, f.relabel g, trailing.map g⟩
def Form.relabel (g : Comment → Comment) : Form → Form
  | .block b => .block (b.relabel g)
  | .empty => .empty
  | .function name params b => .function name params (b.relabel g)
  | .var ds => .var ds
  | .expr e => .expr e
/-- The tree with `g` applied to each of its comments. -/
def Body.relabel (g : Comment → Comment) : Body → Body
  | ⟨ss, dangling⟩ => ⟨stmtsRelabel g ss, dangling.map g⟩
def stmtsRelabel (g : Comment → Comment) : List Stmt → List Stmt
  | [] => []
  | s :: ss => s.relabel g :: stmtsRelabel g ss
end

def Stmt.lead (before : List Comment) (s : Stmt) : Stmt := { s with leading := before ++ s.leading }

theorem Stmt.lead_nil (s : Stmt) : s.lead [] = s := by
  cases s
  rfl

theorem values_relabel (g : Comment → Comment) (xs : List (Located Comment)) :
    values (xs.map (Located.map g)) = (values xs).map g := by
  simp [values, Located.map, Function.comp_def]

theorem shareOut_relabel (g : Comment → Comment) (stop : Position) (xs : List (Located Comment)) :
    shareOut stop (xs.map (Located.map g)) = ⟨(shareOut stop xs).inside.map g,
      (shareOut stop xs).behind.map g, (shareOut stop xs).rest.map (Located.map g)⟩ := by
  induction xs with
  | nil => rfl
  | cons x xs ih =>
    rw [List.map_cons, shareOut, shareOut, ih]
    by_cases hin : x.span.start.offset < stop.offset
    · simp [Located.map, hin]
    · by_cases hline : x.span.start.line = stop.line
      · simp [Located.map, hin, hline]
      · simp [Located.map, hin, hline]

mutual
theorem Stmt.relabel_id : (s : Stmt) → s.relabel id = s
  | ⟨_, f, _⟩ => by simp [Stmt.relabel, f.relabel_id]
theorem Form.relabel_id : (f : Form) → f.relabel id = f
  | .block b => by simp [Form.relabel, b.relabel_id]
  | .empty => by simp [Form.relabel]
  | .function _ _ b => by simp [Form.relabel, b.relabel_id]
  | .var _ => by simp [Form.relabel]
  | .expr _ => by simp [Form.relabel]
theorem Body.relabel_id : (b : Body) → b.relabel id = b
  | ⟨ss, _⟩ => by simp [Body.relabel, stmtsRelabel_id ss]
theorem stmtsRelabel_id : (ss : List Stmt) → stmtsRelabel id ss = ss
  | [] => by simp [stmtsRelabel]
  | s :: ss => by simp [stmtsRelabel, s.relabel_id, stmtsRelabel_id ss]
end

/-! ## Cursors that carry other comments -/

namespace Cursor

section
variable (g : Comment → Comment) (q : List (Located Comment))

/-- `d` is `c` with its comments relabelled and `q` in front of its queue. -/
structure Carries (c d : Cursor) : Prop where
  ahead : d.ahead = c.ahead.map (Piece.relabel g)
  queue : d.queue = q ++ c.queue.map (Located.map g)
  textStop : d.textStop = c.textStop

/-- The same for cursors that have passed a token, and so agree on where it ends. -/
structure Follows (c d : Cursor) : Prop extends Carries g q c d where
  prevStop : d.prevStop = c.prevStop

end

variable {g : Comment → Comment} {q : List (Located Comment)} {c c' d : Cursor}

theorem carries_id_iff : Carries id q c d ↔
    d.ahead = c.ahead ∧ d.queue = q ++ c.queue ∧ d.textStop = c.textStop := by
  have hmap : Located.map (id : Comment → Comment) = id := rfl
  have hpiece : Piece.relabel id = id := by
    funext p
    simp [Piece.relabel, hmap]
  constructor
  · intro h
    obtain ⟨hahead, hqueue, hstop⟩ := h
    rw [hpiece, List.map_id] at hahead
    rw [hmap, List.map_id] at hqueue
    exact ⟨hahead, hqueue, hstop⟩
  · intro h
    obtain ⟨hahead, hqueue, hstop⟩ := h
    exact ⟨by rw [hahead, hpiece, List.map_id], by rw [hqueue, hmap, List.map_id], hstop⟩

namespace Carries

theorem token?_eq (h : Carries g q c d) : d.token? = c.token? := by
  unfold token?
  rw [h.ahead]
  cases c.ahead <;> rfl

theorem here_eq (h : Carries g q c d) : d.here = c.here := by
  unfold here
  rw [h.ahead, h.textStop]
  cases c.ahead <;> rfl

theorem token?_ne {o : Option Token} (h : Carries g q c d) (hne : c.token? ≠ o) : d.token? ≠ o :=
  h.token?_eq.symm ▸ hne

theorem unexpected_eq (h : Carries g q c d) (ex : Expected) : d.unexpected ex = c.unexpected ex := by
  unfold unexpected found
  rw [h.token?_eq, h.here_eq]

theorem comments_eq (h : Carries g q c d) : d.comments = values q ++ c.comments.map g := by
  rw [Cursor.comments_eq, Cursor.comments_eq, h.queue, values_append, values_relabel]

theorem emptied (h : Carries g q c d) : Carries g [] (c.withQueue []) (d.withQueue []) :=
  ⟨h.ahead, rfl, h.textStop⟩

theorem record (h : Carries g q c d) (r r' : Record) : Carries g q (c.record r) (d.record r') :=
  ⟨h.ahead, h.queue, h.textStop⟩

theorem advance {t : Token} (h : Carries g q c d) (ht : c.token? = some t) :
    Follows g q c.advance d.advance := by
  obtain ⟨p, -, hp⟩ := passes_advance ht
  have hahead : d.ahead = p.relabel g :: c.advance.ahead.map (Piece.relabel g) := by
    rw [h.ahead, hp.ahead]
    rfl
  have hd : d.advance = { d with
      ahead := c.advance.ahead.map (Piece.relabel g), queue := d.queue ++ (p.relabel g).after,
      prevStop := p.span.stop } := by
    unfold Cursor.advance
    rw [hahead]
    rfl
  rw [hd]
  refine ⟨⟨rfl, ?_, ?_⟩, hp.stop.symm⟩
  · simp [h.queue, hp.queue, Piece.relabel]
  · exact h.textStop.trans (moves_advance c).textStop_eq.symm

theorem advance₂ {t u : Token} (h : Carries g q c d) (ht : c.token? = some t)
    (hu : c.advance.token? = some u) :
    d.token? = some t ∧ d.advance.token? = some u ∧ Follows g q c.advance.advance d.advance.advance := by
  have h₁ := h.advance ht
  exact ⟨h.token?_eq.trans ht, h₁.token?_eq.trans hu, h₁.toCarries.advance hu⟩

end Carries

/-! ## Successful readings -/

theorem ReadsExpr.carried {e : Expr} (h : c.ReadsExpr e c') (hs : Carries g q c d) :
    ∃ d', d.ReadsExpr e d' ∧ Follows g q c' d' := by
  induction h generalizing d with
  | operand ht hop hne =>
    have hs₁ := hs.advance ht
    exact ⟨_, .operand (hs.token?_eq.trans ht) hop (hs₁.token?_ne hne), hs₁⟩
  | paren hopen _ hclose hne ih =>
    obtain ⟨d₁, hread, hs₁⟩ := ih (hs.advance hopen).toCarries
    have hs₂ := hs₁.advance hclose
    exact ⟨_, .paren (hs.token?_eq.trans hopen) hread (hs₁.token?_eq.trans hclose) (hs₂.token?_ne hne),
      hs₂⟩
  | assign hname heq _ ih =>
    obtain ⟨hname', heq', hs₂⟩ := hs.advance₂ hname heq
    obtain ⟨d', hread, hs'⟩ := ih hs₂.toCarries
    exact ⟨d', .assign hname' heq' hread, hs'⟩

theorem ReadsNames.carried {names : List String} (h : c.ReadsNames names c') (hs : Carries g q c d) :
    ∃ d', d.ReadsNames names d' ∧ Follows g q c' d' := by
  induction h generalizing d with
  | last hname hclose =>
    obtain ⟨hname', hclose', hs₂⟩ := hs.advance₂ hname hclose
    exact ⟨_, .last hname' hclose', hs₂⟩
  | more hname hcomma _ ih =>
    obtain ⟨hname', hcomma', hs₂⟩ := hs.advance₂ hname hcomma
    obtain ⟨d', hread, hs'⟩ := ih hs₂.toCarries
    exact ⟨d', .more hname' hcomma' hread, hs'⟩

theorem ReadsParams.carried {names : List String} (h : c.ReadsParams names c')
    (hs : Carries g q c d) : ∃ d', d.ReadsParams names d' ∧ Follows g q c' d' := by
  cases h with
  | none hopen hclose =>
    obtain ⟨hopen', hclose', hs₂⟩ := hs.advance₂ hopen hclose
    exact ⟨_, .none hopen' hclose', hs₂⟩
  | some hopen hnames =>
    obtain ⟨d', hnames', hs'⟩ := hnames.carried (hs.advance hopen).toCarries
    exact ⟨d', .some (hs.token?_eq.trans hopen) hnames', hs'⟩

theorem ReadsInit.carried {init : Option Expr} (h : c.ReadsInit init c') (hs : Follows g q c d) :
    ∃ d', d.ReadsInit init d' ∧ Follows g q c' d' := by
  cases h with
  | none hne => exact ⟨d, .none (hs.token?_ne hne), hs⟩
  | some heq he =>
    obtain ⟨d', he', hs'⟩ := he.carried (hs.advance heq).toCarries
    exact ⟨d', .some (hs.token?_eq.trans heq) he', hs'⟩

theorem ReadsDeclarators.carried {ds : List Declarator} (h : c.ReadsDeclarators ds c')
    (hs : Carries g q c d) : ∃ d', d.ReadsDeclarators ds d' ∧ Follows g q c' d' := by
  induction h generalizing d with
  | last hname hinit hne =>
    obtain ⟨d', hinit', hs'⟩ := hinit.carried (hs.advance hname)
    exact ⟨d', .last (hs.token?_eq.trans hname) hinit' (hs'.token?_ne hne), hs'⟩
  | more hname hinit hcomma _ ih =>
    obtain ⟨d₁, hinit', hs₁⟩ := hinit.carried (hs.advance hname)
    obtain ⟨d', hread, hs'⟩ := ih (hs₁.advance hcomma).toCarries
    exact ⟨d', .more (hs.token?_eq.trans hname) hinit' (hs₁.token?_eq.trans hcomma) hread, hs'⟩

theorem ReadsEnd.carried (h : c.ReadsEnd c') (hs : Follows g q c d) :
    ∃ d', d.ReadsEnd d' ∧ Follows g q c' d' := by
  cases h with
  | semicolon ht => exact ⟨_, .semicolon (hs.token?_eq.trans ht), hs.advance ht⟩
  | closeBrace ht => exact ⟨d, .closeBrace (hs.token?_eq.trans ht), hs⟩
  | endOfInput ht => exact ⟨d, .endOfInput (hs.token?_eq.trans ht), hs⟩
  | laterLine hne hline =>
    refine ⟨d, .laterLine (hs.token?_ne hne) ?_, hs⟩
    rwa [hs.prevStop, hs.here_eq]

mutual
theorem ReadsBlock.carried {c c' d : Cursor} {b : Body} {q : List (Located Comment)}
    (h : c.ReadsBlock b c') (hs : Carries g q c d) :
    ∃ d', d.ReadsBlock (b.relabel g) d' ∧ Follows g q c' d' := by
  match h with
  | @ReadsBlock.braces _ ss c₁ c₂ hopen hss hclose hc =>
    subst hc
    obtain ⟨d₁, hss', hs₁⟩ := hss.carried (hs.emptied.advance hopen).toCarries
    have hs₂ := hs₁.emptied.advance hclose
    have hread := ReadsBlock.braces (hs.token?_eq.trans hopen) hss' (hs₁.token?_eq.trans hclose) rfl
    rw [hs₁.comments_eq, values_nil, List.nil_append] at hread
    rw [Body.relabel]
    refine ⟨_, hread, ⟨hs₂.ahead, ?_, hs₂.textStop⟩, hs₂.prevStop⟩
    -- what was put aside in front of the brace comes back in front of what follows the other one
    rw [queue_withQueue, queue_withQueue, hs.queue, hs₂.queue, List.map_append, List.append_assoc]
    rfl

theorem ReadsForm.carried {c c' d : Cursor} {f : Form} (h : c.ReadsForm f c')
    (hs : Carries g [] c d) : ∃ d', d.ReadsForm (f.relabel g) d' ∧ Follows g [] c' d' := by
  match h with
  | .block hb =>
    obtain ⟨d', hb', hs'⟩ := hb.carried hs
    rw [Form.relabel]
    exact ⟨d', .block hb', hs'⟩
  | .empty ht =>
    rw [Form.relabel]
    exact ⟨_, .empty (hs.token?_eq.trans ht), hs.advance ht⟩
  | .function hfun hname hnames hb =>
    obtain ⟨hfun', hname', hs₂⟩ := hs.advance₂ hfun hname
    obtain ⟨d₃, hnames', hs₃⟩ := hnames.carried hs₂.toCarries
    obtain ⟨d', hb', hs'⟩ := hb.carried hs₃.toCarries
    rw [Form.relabel]
    exact ⟨d', .function hfun' hname' hnames' hb', hs'⟩
  | .var hvar hds hend =>
    obtain ⟨d₂, hds', hs₂⟩ := hds.carried (hs.advance hvar).toCarries
    obtain ⟨d', hend', hs'⟩ := hend.carried hs₂
    rw [Form.relabel]
    exact ⟨d', .var (hs.token?_eq.trans hvar) hds' hend', hs'⟩
  | .expr he hend =>
    obtain ⟨d₁, he', hs₁⟩ := he.carried hs
    obtain ⟨d', hend', hs'⟩ := hend.carried hs₁
    rw [Form.relabel]
    exact ⟨d', .expr he' hend', hs'⟩

theorem ReadsStmt.carried {c c' d : Cursor} {s : Stmt} {q : List (Located Comment)}
    (h : c.ReadsStmt s c') (hs : Carries g q c d) :
    ∃ d', d.ReadsStmt ((s.relabel g).lead (values q)) d' ∧ Carries g [] c' d' := by
  match h with
  | @ReadsStmt.owning _ f c₁ _ hf hshares =>
    subst hshares
    have hs₀ := hs.emptied.record (.readingStmt c.here c.found) (.readingStmt d.here d.found)
    obtain ⟨d₁, hf', hs₁⟩ := hf.carried hs₀
    have hqueue : d₁.queue = c₁.queue.map (Located.map g) := hs₁.queue
    have hshares := shareOut_relabel g c₁.prevStop c₁.queue
    have hread := ReadsStmt.owning hf' (by rw [hs₁.prevStop, hqueue, hshares])
    rw [hs.comments_eq, List.append_assoc, ← List.map_append] at hread
    rw [Stmt.relabel]
    exact ⟨_, hread, hs₁.ahead, rfl, hs₁.textStop⟩

theorem ReadsStmts.carried {close : Option Token} {c c' d : Cursor} {ss : List Stmt}
    (h : c.ReadsStmts close ss c') (hs : Carries g [] c d) :
    ∃ d', d.ReadsStmts close (stmtsRelabel g ss) d' ∧ Carries g [] c' d' := by
  match h with
  | .nil ht =>
    rw [stmtsRelabel]
    exact ⟨d, .nil (hs.token?_eq.trans ht), hs⟩
  | .cons ht hne hstmt hss =>
    obtain ⟨d₁, hstmt', hs₁⟩ := hstmt.carried hs
    obtain ⟨d', hss', hs'⟩ := hss.carried hs₁
    rw [values_nil, Stmt.lead_nil] at hstmt'
    rw [stmtsRelabel]
    exact ⟨d', .cons (hs.token?_eq.trans ht) hne hstmt' hss', hs'⟩
end

theorem ReadsHead.carried (h : c.ReadsHead c') (hs : Carries g q c d) :
    ∃ d', d.ReadsHead d' ∧ Carries g q c' d' := by
  cases h with
  | bare hne => exact ⟨d, .bare (hs.token?_ne hne), hs⟩
  | named hfun hname hnames =>
    obtain ⟨hfun', hname', hs₂⟩ := hs.advance₂ hfun hname
    obtain ⟨d', hnames', hs'⟩ := hnames.carried hs₂.toCarries
    exact ⟨_, .named hfun' hname' hnames', hs'.toCarries.record _ _⟩
  | anonymous hfun hnames =>
    obtain ⟨d', hnames', hs'⟩ := hnames.carried (hs.advance hfun).toCarries
    exact ⟨_, .anonymous (hs.token?_eq.trans hfun) hnames', hs'.toCarries.record _ _⟩

/-- In front of a row of statements, what is queued leads the first of them, or dangles where there
is none. -/
theorem ReadsStmts.carried_lead {close : Option Token} {ss : List Stmt} (h : c.ReadsStmts close ss c')
    (hs : Carries g q c d) : ∃ ss' d' q', d.ReadsStmts close ss' d' ∧ Carries g q' c' d' ∧
      (⟨ss', d'.comments⟩ : Body) = (Body.relabel g ⟨ss, c'.comments⟩).lead (values q) := by
  cases h with
  | nil ht =>
    refine ⟨[], d, q, .nil (hs.token?_eq.trans ht), hs, ?_⟩
    rw [hs.comments_eq, Body.relabel, stmtsRelabel, Body.lead]
  | cons ht hne hstmt hss =>
    obtain ⟨d₁, hstmt', hs₁⟩ := hstmt.carried hs
    obtain ⟨d', hss', hs'⟩ := hss.carried hs₁
    refine ⟨_, d', [], .cons (hs.token?_eq.trans ht) hne hstmt' hss', hs', ?_⟩
    rw [hs'.comments_eq, Body.relabel, stmtsRelabel, Body.lead]
    rfl

/-! ## Failing readings -/

variable {ex : Expected}

theorem FailsExpr.carried (h : c.FailsExpr ex c') (hs : Carries g q c d) :
    ∃ d', d.FailsExpr ex d' ∧ Carries g q c' d' := by
  induction h generalizing d with
  | operand hnone => exact ⟨d, .operand fun t ht => hnone t (hs.token?_eq.symm.trans ht), hs⟩
  | inside hopen _ ih =>
    obtain ⟨d', hin, hs'⟩ := ih (hs.advance hopen).toCarries
    exact ⟨d', .inside (hs.token?_eq.trans hopen) hin, hs'⟩
  | close hopen he hne =>
    obtain ⟨d', he', hs'⟩ := he.carried (hs.advance hopen).toCarries
    exact ⟨d', .close (hs.token?_eq.trans hopen) he' (hs'.token?_ne hne), hs'.toCarries⟩
  | literalTarget ht hop hne heq =>
    have hs₁ := hs.advance ht
    exact ⟨_, .literalTarget (hs.token?_eq.trans ht) hop hne (hs₁.token?_eq.trans heq), hs₁.toCarries⟩
  | parenTarget hopen he hclose heq =>
    obtain ⟨d₁, he', hs₁⟩ := he.carried (hs.advance hopen).toCarries
    have hs₂ := hs₁.advance hclose
    exact ⟨_, .parenTarget (hs.token?_eq.trans hopen) he' (hs₁.token?_eq.trans hclose)
      (hs₂.token?_eq.trans heq), hs₂.toCarries⟩
  | value hname heq _ ih =>
    obtain ⟨hname', heq', hs₂⟩ := hs.advance₂ hname heq
    obtain ⟨d', hvalue, hs'⟩ := ih hs₂.toCarries
    exact ⟨d', .value hname' heq' hvalue, hs'⟩

theorem FailsNames.carried (h : c.FailsNames ex c') (hs : Carries g q c d) :
    ∃ d', d.FailsNames ex d' ∧ Carries g q c' d' := by
  induction h generalizing d with
  | name hne => exact ⟨d, .name fun name => hs.token?_ne (hne name), hs⟩
  | comma hname hclose hcomma =>
    have hs₁ := hs.advance hname
    exact ⟨_, .comma (hs.token?_eq.trans hname) (hs₁.token?_ne hclose) (hs₁.token?_ne hcomma),
      hs₁.toCarries⟩
  | more hname hcomma _ ih =>
    obtain ⟨hname', hcomma', hs₂⟩ := hs.advance₂ hname hcomma
    obtain ⟨d', hnames, hs'⟩ := ih hs₂.toCarries
    exact ⟨d', .more hname' hcomma' hnames, hs'⟩

theorem FailsParams.carried (h : c.FailsParams ex c') (hs : Carries g q c d) :
    ∃ d', d.FailsParams ex d' ∧ Carries g q c' d' := by
  cases h with
  | opening hne => exact ⟨d, .opening (hs.token?_ne hne), hs⟩
  | names hopen hne hnames =>
    have hs₁ := hs.advance hopen
    obtain ⟨d', hnames', hs'⟩ := hnames.carried hs₁.toCarries
    exact ⟨d', .names (hs.token?_eq.trans hopen) (hs₁.token?_ne hne) hnames', hs'⟩

theorem FailsDeclarators.carried (h : c.FailsDeclarators ex c') (hs : Carries g q c d) :
    ∃ d', d.FailsDeclarators ex d' ∧ Carries g q c' d' := by
  induction h generalizing d with
  | name hne => exact ⟨d, .name fun name => hs.token?_ne (hne name), hs⟩
  | init hname heq he =>
    obtain ⟨hname', heq', hs₂⟩ := hs.advance₂ hname heq
    obtain ⟨d', he', hs'⟩ := he.carried hs₂.toCarries
    exact ⟨d', .init hname' heq' he', hs'⟩
  | more hname hinit hcomma _ ih =>
    obtain ⟨d₁, hinit', hs₁⟩ := hinit.carried (hs.advance hname)
    obtain ⟨d', hds, hs'⟩ := ih (hs₁.advance hcomma).toCarries
    exact ⟨d', .more (hs.token?_eq.trans hname) hinit' (hs₁.token?_eq.trans hcomma) hds, hs'⟩

theorem FailsEnd.carried (h : c.FailsEnd) (hs : Follows g q c d) : d.FailsEnd := by
  obtain ⟨⟨t, ht, hne⟩, hline⟩ := h
  refine ⟨⟨t, hs.token?_eq.trans ht, hne⟩, ?_⟩
  rwa [hs.prevStop, hs.here_eq]

mutual
theorem FailsBlock.carried {c c' d : Cursor} {ex : Expected} {q : List (Located Comment)}
    (h : c.FailsBlock ex c') (hs : Carries g q c d) :
    ∃ d', d.FailsBlock ex d' ∧ Carries g [] c' d' := by
  match h with
  | .opening hne => exact ⟨_, .opening (hs.token?_ne hne), hs.emptied⟩
  | .inside hopen hss =>
    obtain ⟨d', q', hss', hs', hq'⟩ := hss.carried (hs.emptied.advance hopen).toCarries
    obtain rfl : q' = [] := by simpa using hq'
    exact ⟨d', .inside (hs.token?_eq.trans hopen) hss', hs'⟩

theorem FailsForm.carried {c c' d : Cursor} {ex : Expected} (h : c.FailsForm ex c')
    (hs : Carries g [] c d) : ∃ d', d.FailsForm ex d' ∧ Carries g [] c' d' := by
  match h with
  | .block hopen hb =>
    obtain ⟨d', hb', hs'⟩ := hb.carried hs
    exact ⟨d', .block (hs.token?_eq.trans hopen) hb', hs'⟩
  | .functionName hfun hne =>
    have hs₁ := hs.advance hfun
    exact ⟨_, .functionName (hs.token?_eq.trans hfun) fun name => hs₁.token?_ne (hne name),
      hs₁.toCarries⟩
  | .functionParams hfun hname hparams =>
    obtain ⟨hfun', hname', hs₂⟩ := hs.advance₂ hfun hname
    obtain ⟨d', hparams', hs'⟩ := hparams.carried hs₂.toCarries
    exact ⟨d', .functionParams hfun' hname' hparams', hs'⟩
  | .functionBody hfun hname hnames hb =>
    obtain ⟨hfun', hname', hs₂⟩ := hs.advance₂ hfun hname
    obtain ⟨d₃, hnames', hs₃⟩ := hnames.carried hs₂.toCarries
    obtain ⟨d', hb', hs'⟩ := hb.carried hs₃.toCarries
    exact ⟨d', .functionBody hfun' hname' hnames' hb', hs'⟩
  | .declarators hvar hds =>
    obtain ⟨d', hds', hs'⟩ := hds.carried (hs.advance hvar).toCarries
    exact ⟨d', .declarators (hs.token?_eq.trans hvar) hds', hs'⟩
  | .varEnd hvar hds hend =>
    obtain ⟨d', hds', hs'⟩ := hds.carried (hs.advance hvar).toCarries
    exact ⟨d', .varEnd (hs.token?_eq.trans hvar) hds' (hend.carried hs'), hs'.toCarries⟩
  | .expr hat he =>
    obtain ⟨d', he', hs'⟩ := he.carried hs
    refine ⟨d', .expr ?_ he', hs'⟩
    unfold AtExpr at hat ⊢
    rwa [hs.token?_eq]
  | .exprEnd he hend =>
    obtain ⟨d', he', hs'⟩ := he.carried hs
    exact ⟨d', .exprEnd he' (hend.carried hs'), hs'.toCarries⟩

theorem FailsStmts.carried {close : Option Token} {c c' d : Cursor} {ex : Expected}
    {q : List (Located Comment)} (h : c.FailsStmts close ex c') (hs : Carries g q c d) :
    ∃ d' q', d.FailsStmts close ex d' ∧ Carries g q' c' d' ∧ (q' = [] ∨ q' = q) := by
  match h with
  | .unclosed ht => exact ⟨d, q, .unclosed (hs.token?_eq.trans ht), hs, .inr rfl⟩
  | .now ht hne hf =>
    have hs₀ := hs.emptied.record (.readingStmt c.here c.found) (.readingStmt d.here d.found)
    obtain ⟨d', hf', hs'⟩ := hf.carried hs₀
    exact ⟨d', [], .now (hs.token?_eq.trans ht) hne hf', hs', .inl rfl⟩
  | .later ht hne hstmt hss =>
    obtain ⟨d₁, hstmt', hs₁⟩ := hstmt.carried hs
    obtain ⟨d', q', hss', hs', hq'⟩ := hss.carried hs₁
    refine ⟨d', q', .later (hs.token?_eq.trans ht) hne hstmt' hss', hs', .inl ?_⟩
    simpa using hq'
end

theorem FailsHead.carried (h : c.FailsHead ex c') (hs : Carries g q c d) :
    ∃ d', d.FailsHead ex d' ∧ Carries g q c' d' := by
  cases h with
  | named hfun hname hparams =>
    obtain ⟨hfun', hname', hs₂⟩ := hs.advance₂ hfun hname
    obtain ⟨d', hparams', hs'⟩ := hparams.carried hs₂.toCarries
    exact ⟨d', .named hfun' hname' hparams', hs'⟩
  | anonymous hfun hne hparams =>
    have hs₁ := hs.advance hfun
    obtain ⟨d', hparams', hs'⟩ := hparams.carried hs₁.toCarries
    exact ⟨d', .anonymous (hs.token?_eq.trans hfun) (fun name => hs₁.token?_ne (hne name)) hparams', hs'⟩

end Cursor

/-! ## Fragments -/

theorem Body.lead_lead (xs ys : List Comment) (b : Body) : (b.lead ys).lead xs = b.lead (xs ++ ys) := by
  obtain ⟨ss, dangling⟩ := b
  cases ss with
  | nil => simp [Body.lead]
  | cons s ss => simp [Body.lead]

theorem Body.lead_trail (xs ys : List Comment) (b : Body) :
    (b.trail ys).lead xs = (b.lead xs).trail ys := by
  obtain ⟨ss, dangling⟩ := b
  cases ss with
  | nil => simp [Body.lead, Body.trail]
  | cons s ss => simp [Body.lead, Body.trail]

theorem Body.relabel_lead (g : Comment → Comment) (xs : List Comment) (b : Body) :
    (b.lead xs).relabel g = (b.relabel g).lead (xs.map g) := by
  obtain ⟨ss, dangling⟩ := b
  cases ss with
  | nil => simp [Body.lead, Body.relabel, stmtsRelabel]
  | cons s ss =>
    obtain ⟨leading, f, trailing⟩ := s
    simp [Body.lead, Body.relabel, stmtsRelabel, Stmt.relabel]

theorem Body.relabel_trail (g : Comment → Comment) (xs : List Comment) (b : Body) :
    (b.trail xs).relabel g = (b.relabel g).trail (xs.map g) := by
  obtain ⟨ss, dangling⟩ := b
  simp [Body.trail, Body.relabel]

namespace Fragment

open Cursor

variable {f : Fragment} {g : Comment → Comment} {q : List (Located Comment)} {c c' d : Cursor}

theorem read_carried {b : Body} (h : f.read c = .ok b c') (hs : Carries g q c d) :
    ∃ d', f.read d = .ok ((b.relabel g).lead (values q)) d' ∧ Carries g [] c' d' := by
  cases f with
  | program =>
    obtain ⟨ss, c₁, hss, rfl, rfl⟩ := read_program_iff.mp h
    obtain ⟨ss', d₁, q', hss', hs', hbody⟩ := hss.carried_lead hs
    exact ⟨_, read_program_iff.mpr ⟨ss', d₁, hss', hbody, rfl⟩, hs'.emptied⟩
  | function =>
    obtain ⟨c₁, inner, c₂, hhead, hb, hnone, rfl, rfl⟩ := read_function_iff.mp h
    obtain ⟨d₁, hhead', hs₁⟩ := hhead.carried hs
    obtain ⟨d₂, hb', hs₂⟩ := hb.carried hs₁.emptied
    refine ⟨_, read_function_iff.mpr
      ⟨d₁, _, d₂, hhead', hb', hs₂.token?_eq.trans hnone, ?_, rfl⟩, hs₂.toCarries.emptied⟩
    rw [hs₁.comments_eq, hs₂.comments_eq, Body.relabel_trail, Body.relabel_lead, Body.lead_trail,
      Body.lead_lead, values_nil, List.nil_append]

theorem Fails.carried {ex : Expected} (h : f.Fails c ex c') (hs : Carries g q c d) :
    ∃ d' q', f.Fails d ex d' ∧ Carries g q' c' d' ∧ (q' = [] ∨ q' = q) := by
  cases h with
  | program hss =>
    obtain ⟨d', q', hss', hs', hq'⟩ := hss.carried hs
    exact ⟨d', q', .program hss', hs', hq'⟩
  | head hhead =>
    obtain ⟨d', hhead', hs'⟩ := hhead.carried hs
    exact ⟨d', q, .head hhead', hs', .inr rfl⟩
  | block hhead hb =>
    obtain ⟨d₁, hhead', hs₁⟩ := hhead.carried hs
    obtain ⟨d', hb', hs'⟩ := hb.carried hs₁.emptied
    exact ⟨d', [], .block hhead' hb', hs', .inl rfl⟩
  | behind hhead hb ht =>
    obtain ⟨d₁, hhead', hs₁⟩ := hhead.carried hs
    obtain ⟨d', hb', hs'⟩ := hb.carried hs₁.emptied
    exact ⟨d', [], .behind hhead' hb' (hs'.token?_eq.trans ht), hs'.toCarries, .inl rfl⟩

end Fragment

end Reprint
