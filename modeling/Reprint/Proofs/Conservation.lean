import Reprint.Proofs.Derivation
import Reprint.Proofs.Lexemes

/-!
# Reading keeps every comment

The comments of a tree, in the order of a walk, are the comments of the text in the order of the
text. The carrier is what each reader does to the pieces ahead and to the queue: of the pieces it
passes, the comments behind the last one are queued, and those behind the others are either queued
in front of these or owned by what was read (`ReadsForm.account` and its siblings).
-/

namespace Reprint

/-! ## The comments of parts of trees -/

def commentsOf (vs : List Visit) : List Comment := vs.filterMap Visit.comment?

@[simp] theorem commentsOf_nil : commentsOf [] = [] := rfl

@[simp] theorem commentsOf_append (vs ws : List Visit) :
    commentsOf (vs ++ ws) = commentsOf vs ++ commentsOf ws :=
  List.filterMap_append

@[simp] theorem commentsOf_stmt (f : Form) (vs : List Visit) :
    commentsOf (.stmt f :: vs) = commentsOf vs := rfl

@[simp] theorem commentsOf_block (vs : List Visit) : commentsOf (.block :: vs) = commentsOf vs := rfl

@[simp] theorem commentsOf_comments (cs : List Comment) : commentsOf (cs.map .comment) = cs := by
  induction cs with
  | nil => rfl
  | cons c cs ih => simpa [commentsOf, Visit.comment?] using ih

@[simp] theorem commentsOf_expr (e : Expr) : commentsOf e.visits = [] := by
  induction e with
  | paren inner ih => exact ih
  | assign target value ih => exact ih
  | _ => rfl

@[simp] theorem commentsOf_declarators (ds : List Declarator) :
    commentsOf (ds.flatMap Declarator.visits) = [] := by
  induction ds with
  | nil => rfl
  | cons d ds ih =>
    rw [List.flatMap_cons, commentsOf_append, ih]
    unfold Declarator.visits
    cases d.init <;> simp

def Form.comments (f : Form) : List Comment := commentsOf f.visits

def Stmt.comments (s : Stmt) : List Comment := commentsOf s.visits

def stmtComments (ss : List Stmt) : List Comment := commentsOf (stmtVisits ss)

@[simp] theorem Stmt.comments_mk (leading trailing : List Comment) (f : Form) :
    (Stmt.mk leading f trailing).comments = leading ++ f.comments ++ trailing := by
  simp [Stmt.comments, Stmt.visits, Form.comments]

@[simp] theorem stmtComments_nil : stmtComments [] = [] := by
  simp [stmtComments, stmtVisits]

@[simp] theorem stmtComments_cons (s : Stmt) (ss : List Stmt) :
    stmtComments (s :: ss) = s.comments ++ stmtComments ss := by
  simp [stmtComments, stmtVisits, Stmt.comments]

@[simp] theorem Body.comments_mk (ss : List Stmt) (dangling : List Comment) :
    (Body.mk ss dangling).comments = stmtComments ss ++ dangling := by
  show commentsOf (Body.mk ss dangling).visits = _
  simp [Body.visits, stmtComments]

@[simp] theorem Form.comments_block (b : Body) : (Form.block b).comments = b.comments := by
  rw [Form.comments, Form.visits, commentsOf_block]
  rfl

@[simp] theorem Form.comments_function (name : String) (names : List String) (b : Body) :
    (Form.function name names b).comments = b.comments := by
  rw [Form.comments, Form.visits, commentsOf_block]
  rfl

@[simp] theorem Form.comments_empty : Form.empty.comments = [] := by
  simp [Form.comments, Form.visits]

@[simp] theorem Form.comments_var (ds : List Declarator) : (Form.var ds).comments = [] := by
  simp [Form.comments, Form.visits]

@[simp] theorem Form.comments_expr (e : Expr) : (Form.expr e).comments = [] := by
  simp [Form.comments, Form.visits]

theorem Body.lead_nil (b : Body) : b.lead [] = b := by
  obtain ⟨ss, dangling⟩ := b
  cases ss with
  | nil => rfl
  | cons s ss =>
    obtain ⟨leading, form, trailing⟩ := s
    rfl

theorem Body.comments_lead (before : List Comment) (b : Body) :
    (b.lead before).comments = before ++ b.comments := by
  obtain ⟨ss, dangling⟩ := b
  cases ss with
  | nil => simp [Body.lead]
  | cons s ss =>
    obtain ⟨leading, f, trailing⟩ := s
    simp [Body.lead]

theorem Body.comments_trail (after : List Comment) (b : Body) :
    (b.trail after).comments = b.comments ++ after := by
  obtain ⟨ss, dangling⟩ := b
  simp [Body.trail]

/-! ## Sharing out -/

def values (xs : List (Located Comment)) : List Comment := xs.map Located.value

@[simp] theorem values_append (xs ys : List (Located Comment)) :
    values (xs ++ ys) = values xs ++ values ys :=
  List.map_append

@[simp] theorem values_nil : values [] = [] := rfl

@[simp] theorem Cursor.comments_eq (c : Cursor) : c.comments = values c.queue := rfl

def startsOnLine (p : Position) (x : Located Comment) : Bool := x.span.start.line = p.line

theorem shareOut_of_le {stop : Position} {outer : List (Located Comment)}
    (h : ∀ x ∈ outer, stop.offset ≤ x.span.start.offset) :
    shareOut stop outer = ⟨[], values (outer.takeWhile (startsOnLine stop)),
      outer.dropWhile (startsOnLine stop)⟩ := by
  induction outer with
  | nil => rfl
  | cons x xs ih =>
    have hx := h x (by simp)
    rw [shareOut, if_neg (Nat.not_lt.mpr hx), ih fun y hy => h y (by simp [hy])]
    by_cases hline : x.span.start.line = stop.line
    · simp [hline, startsOnLine, values]
    · simp [hline, startsOnLine, values]

/-- Comments inside a statement followed by those behind it are shared out in order. -/
theorem shareOut_append {stop : Position} {inner outer : List (Located Comment)}
    (hin : ∀ x ∈ inner, x.span.start.offset < stop.offset)
    (hout : ∀ x ∈ outer, stop.offset ≤ x.span.start.offset) :
    shareOut stop (inner ++ outer) = ⟨values inner, values (outer.takeWhile (startsOnLine stop)),
      outer.dropWhile (startsOnLine stop)⟩ := by
  induction inner with
  | nil => exact shareOut_of_le hout
  | cons x xs ih =>
    rw [List.cons_append, shareOut, if_pos (hin x (by simp)), ih fun y hy => hin y (by simp [hy])]
    rfl

/-! ## Passing tokens -/

namespace Cursor

/-- `c'` is reached from `c` by passing the tokens of `passed` and then that of `last`. -/
structure Passes (c : Cursor) (passed : List Piece) (last : Piece) (c' : Cursor) : Prop where
  ahead : c.ahead = passed ++ last :: c'.ahead
  stop : c'.prevStop = last.span.stop
  queue : c'.queue = c.queue ++ (passed.flatMap Piece.after ++ last.after)

def Advances (c c' : Cursor) : Prop := ∃ passed last, c.Passes passed last c'

theorem passes_advance {c : Cursor} {t : Token} (h : c.token? = some t) :
    ∃ last, last.token = t ∧ c.Passes [] last c.advance := by
  unfold token? at h
  cases hc : c.ahead with
  | nil => simp [hc] at h
  | cons p ps =>
    rw [hc] at h
    refine ⟨p, by simpa using h, ?_⟩
    constructor <;> simp [advance, hc]

theorem advances_advance {c : Cursor} {t : Token} (h : c.token? = some t) : c.Advances c.advance := by
  obtain ⟨last, -, hp⟩ := passes_advance h
  exact ⟨_, _, hp⟩

theorem Passes.trans {c c₁ c₂ : Cursor} {ps qs : List Piece} {p q : Piece}
    (h₁ : c.Passes ps p c₁) (h₂ : c₁.Passes qs q c₂) : c.Passes (ps ++ p :: qs) q c₂ := by
  constructor
  · rw [h₁.ahead, h₂.ahead]; simp
  · exact h₂.stop
  · rw [h₂.queue, h₁.queue]; simp

theorem Advances.trans {c c₁ c₂ : Cursor} (h₁ : c.Advances c₁) (h₂ : c₁.Advances c₂) :
    c.Advances c₂ := by
  obtain ⟨_, _, h₁⟩ := h₁
  obtain ⟨_, _, h₂⟩ := h₂
  exact ⟨_, _, h₁.trans h₂⟩

theorem ReadsExpr.advances {c c' : Cursor} {e : Expr} (h : c.ReadsExpr e c') : c.Advances c' := by
  induction h with
  | operand ht _ _ => exact advances_advance ht
  | paren hopen _ hclose _ ih =>
    exact (advances_advance hopen).trans (ih.trans (advances_advance hclose))
  | assign hname heq _ ih =>
    exact (advances_advance hname).trans ((advances_advance heq).trans ih)

theorem ReadsNames.advances {c c' : Cursor} {names : List String} (h : c.ReadsNames names c') :
    c.Advances c' := by
  induction h with
  | last hname hclose => exact (advances_advance hname).trans (advances_advance hclose)
  | more hname hcomma _ ih =>
    exact (advances_advance hname).trans ((advances_advance hcomma).trans ih)

theorem ReadsParams.advances {c c' : Cursor} {names : List String} (h : c.ReadsParams names c') :
    c.Advances c' := by
  cases h with
  | none hopen hclose => exact (advances_advance hopen).trans (advances_advance hclose)
  | some hopen hnames => exact (advances_advance hopen).trans hnames.advances

theorem ReadsInit.advances {c c' : Cursor} {init : Option Expr} (h : c.ReadsInit init c') :
    c' = c ∨ c.Advances c' := by
  cases h with
  | none _ => exact .inl rfl
  | some heq he => exact .inr ((advances_advance heq).trans he.advances)

theorem ReadsDeclarators.advances {c c' : Cursor} {ds : List Declarator}
    (h : c.ReadsDeclarators ds c') : c.Advances c' := by
  induction h with
  | last hname hinit _ =>
    rcases hinit.advances with rfl | hadv
    · exact advances_advance hname
    · exact (advances_advance hname).trans hadv
  | more hname hinit hcomma _ ih =>
    have hrest := (advances_advance hcomma).trans ih
    rcases hinit.advances with rfl | hadv
    · exact (advances_advance hname).trans hrest
    · exact (advances_advance hname).trans (hadv.trans hrest)

theorem ReadsEnd.advances {c c' : Cursor} (h : c.ReadsEnd c') : c' = c ∨ c.Advances c' := by
  cases h with
  | semicolon ht => exact .inr (advances_advance ht)
  | _ => exact .inl rfl

/-! ## The account of a reading -/

/-- What reading a form does: it passes the pieces `passed` and `last`, and of the comments behind
the former it queues `held` and owns the others. -/
structure Accounts (c : Cursor) (owned : List Comment) (passed : List Piece)
    (held : List (Located Comment)) (last : Piece) (c' : Cursor) : Prop where
  ahead : c.ahead = passed ++ last :: c'.ahead
  stop : c'.prevStop = last.span.stop
  queue : c'.queue = c.queue ++ (held ++ last.after)
  held_mem : ∀ x ∈ held, x ∈ passed.flatMap Piece.after
  owned_eq : values (passed.flatMap Piece.after) = values held ++ owned

theorem Passes.accounts {c c' : Cursor} {passed : List Piece} {last : Piece}
    (h : c.Passes passed last c') : c.Accounts [] passed (passed.flatMap Piece.after) last c' :=
  ⟨h.ahead, h.stop, h.queue, fun _ hx => hx, by simp⟩

/-- Tokens passed before a reading only add to what it holds. -/
theorem Passes.trans_accounts {c c₁ c' : Cursor} {ps qs : List Piece} {p q : Piece}
    {owned : List Comment} {held : List (Located Comment)} (h₁ : c.Passes ps p c₁)
    (h₂ : c₁.Accounts owned qs held q c') :
    c.Accounts owned (ps ++ p :: qs) (ps.flatMap Piece.after ++ p.after ++ held) q c' := by
  constructor
  · rw [h₁.ahead, h₂.ahead]; simp
  · exact h₂.stop
  · rw [h₂.queue, h₁.queue]; simp
  · intro x hx
    rw [List.flatMap_append, List.flatMap_cons, ← List.append_assoc]
    rcases List.mem_append.mp hx with hx | hx
    · exact List.mem_append_left _ hx
    · exact List.mem_append_right _ (h₂.held_mem x hx)
  · rw [List.flatMap_append, List.flatMap_cons, ← List.append_assoc, values_append, h₂.owned_eq,
      values_append _ held, List.append_assoc]

theorem Accounts.held_lt {c c' : Cursor} {owned : List Comment} {passed : List Piece}
    {held : List (Located Comment)} {last : Piece} (h : c.Accounts owned passed held last c')
    (ho : Orderly c.ahead) : ∀ x ∈ held, x.span.start.offset < last.span.stop.offset := by
  intro x hx
  rw [h.ahead] at ho
  obtain ⟨p, hp, hxp⟩ := List.mem_flatMap.mp (h.held_mem x hx)
  exact (List.pairwise_append.mp ho.lt_stop).2.2 p hp last (by simp) x hxp

theorem Accounts.stop_le {c c' : Cursor} {owned : List Comment} {passed : List Piece}
    {held : List (Located Comment)} {last : Piece} (h : c.Accounts owned passed held last c')
    (ho : Orderly c.ahead) : ∀ x ∈ last.after, last.span.stop.offset ≤ x.span.start.offset := by
  rw [h.ahead] at ho
  exact ho.stop_le last (by simp)

/-- The queue behind a statement, shared out: what is held comes first. -/
theorem Accounts.shareOut {c c' : Cursor} {owned : List Comment} {passed : List Piece}
    {held : List (Located Comment)} {last : Piece} (h : c.Accounts owned passed held last c')
    (hq : c.queue = []) (ho : Orderly c.ahead) :
    shareOut c'.prevStop c'.queue = ⟨values held,
      values (last.after.takeWhile (startsOnLine last.span.stop)),
      last.after.dropWhile (startsOnLine last.span.stop)⟩ := by
  rw [h.queue, hq, h.stop, List.nil_append]
  exact shareOut_append (h.held_lt ho) (h.stop_le ho)

/-- What reading statements does: all comments passed are owned by them or queued, in order. -/
def Keeps (c : Cursor) (owned : List Comment) (c' : Cursor) : Prop :=
  ∃ passed, c.ahead = passed ++ c'.ahead ∧
    values (c.queue ++ passed.flatMap Piece.after) = owned ++ values c'.queue

theorem Keeps.trans {c c₁ c' : Cursor} {owned owned' : List Comment} (h₁ : c.Keeps owned c₁)
    (h₂ : c₁.Keeps owned' c') : c.Keeps (owned ++ owned') c' := by
  obtain ⟨ps, hps, h₁⟩ := h₁
  obtain ⟨qs, hqs, h₂⟩ := h₂
  refine ⟨ps ++ qs, by rw [hps, hqs, List.append_assoc], ?_⟩
  rw [List.flatMap_append, ← List.append_assoc, values_append, h₁, List.append_assoc, ← values_append,
    h₂, List.append_assoc]

theorem Keeps.orderly {c c' : Cursor} {owned : List Comment} (h : c.Keeps owned c')
    (ho : Orderly c.ahead) : Orderly c'.ahead := by
  obtain ⟨ps, hps, -⟩ := h
  exact ho.sublist (hps ▸ List.sublist_append_right ..)

mutual
theorem ReadsBlock.account {c c' : Cursor} {b : Body} (h : c.ReadsBlock b c')
    (ho : Orderly c.ahead) : ∃ passed last, c.Accounts b.comments passed [] last c' := by
  match h with
  | @ReadsBlock.braces _ ss c₁ c₂ hopen hss hclose hc =>
    obtain ⟨first, -, hfirst⟩ := passes_advance (c := c.withQueue []) hopen
    have ho₁ : Orderly (c.withQueue []).advance.ahead := by
      refine ho.sublist ?_
      rw [show c.ahead = _ from hfirst.ahead]
      exact List.sublist_cons_self ..
    obtain ⟨passed, hpassed, hkeeps⟩ := hss.keeps ho₁
    obtain ⟨last, -, hlast⟩ := passes_advance (c := c₁.withQueue []) hclose
    -- the queue in front of the opening brace comes back behind the closing one
    rw [hc] at hlast
    refine ⟨first :: passed, last, ?_, hlast.stop, ?_, by simp, ?_⟩
    · have h₁ : c.ahead = [] ++ first :: (c.withQueue []).advance.ahead := hfirst.ahead
      have h₂ : c₁.ahead = [] ++ last :: c₂.ahead := hlast.ahead
      rw [h₁, hpassed, h₂]
      rfl
    · simp [hlast.queue]
    · rw [hfirst.queue] at hkeeps
      simpa using hkeeps

theorem ReadsForm.account {c c' : Cursor} {f : Form} (h : c.ReadsForm f c') (ho : Orderly c.ahead) :
    ∃ passed held last, c.Accounts f.comments passed held last c' := by
  match h with
  | .block hb =>
    obtain ⟨passed, last, hacc⟩ := hb.account ho
    exact ⟨passed, [], last, by simpa using hacc⟩
  | .empty ht =>
    obtain ⟨last, -, hp⟩ := passes_advance ht
    exact ⟨_, _, _, by simpa using hp.accounts⟩
  | .function hfun hname hnames hb =>
    obtain ⟨ps, p, hp⟩ := (advances_advance hfun).trans ((advances_advance hname).trans hnames.advances)
    have ho₁ := ho.sublist (hp.ahead ▸ (List.sublist_cons_self ..).trans (List.sublist_append_right ..))
    obtain ⟨passed, last, hacc⟩ := hb.account ho₁
    exact ⟨_, _, _, by simpa using hp.trans_accounts hacc⟩
  | .var hvar hds hend =>
    have hadv := (advances_advance hvar).trans hds.advances
    rcases hend.advances with rfl | hend
    · obtain ⟨ps, p, hp⟩ := hadv
      exact ⟨_, _, _, by simpa using hp.accounts⟩
    · obtain ⟨ps, p, hp⟩ := hadv.trans hend
      exact ⟨_, _, _, by simpa using hp.accounts⟩
  | .expr he hend =>
    rcases hend.advances with rfl | hend
    · obtain ⟨ps, p, hp⟩ := he.advances
      exact ⟨_, _, _, by simpa using hp.accounts⟩
    · obtain ⟨ps, p, hp⟩ := he.advances.trans hend
      exact ⟨_, _, _, by simpa using hp.accounts⟩

theorem ReadsStmt.keeps {c c' : Cursor} {s : Stmt} (h : c.ReadsStmt s c') (ho : Orderly c.ahead) :
    c.Keeps s.comments c' := by
  match h with
  | @ReadsStmt.owning _ f c₁ _ hf hshares =>
    obtain ⟨passed, held, last, hacc⟩ := hf.account ho
    subst hshares
    rw [hacc.shareOut rfl ho]
    refine ⟨passed ++ [last], ?_, ?_⟩
    · have : c.ahead = passed ++ last :: c₁.ahead := hacc.ahead
      simpa using this
    · simp only [values_append, List.flatMap_append, List.flatMap_singleton, hacc.owned_eq,
        Stmt.comments_mk, comments_eq, queue_withQueue, List.append_assoc]
      rw [← values_append, List.takeWhile_append_dropWhile]

theorem ReadsStmts.keeps {close : Option Token} {c c' : Cursor} {ss : List Stmt}
    (h : c.ReadsStmts close ss c') (ho : Orderly c.ahead) : c.Keeps (stmtComments ss) c' := by
  match h with
  | .nil _ => exact ⟨[], rfl, by simp⟩
  | .cons _ _ hs hss =>
    have hk := hs.keeps ho
    rw [stmtComments_cons]
    exact hk.trans (hss.keeps (hk.orderly ho))
end

theorem ReadsStmts.token?_eq {close : Option Token} {c c' : Cursor} {ss : List Stmt} :
    c.ReadsStmts close ss c' → c'.token? = close
  | .nil h => h
  | .cons _ _ _ h => h.token?_eq

theorem ReadsHead.advances {c c' : Cursor} (h : c.ReadsHead c') :
    c' = c ∨ ∃ passed last, c.Passes passed last c' := by
  cases h with
  | bare _ => exact .inl rfl
  | named hfun hname hnames =>
    obtain ⟨ps, p, hp⟩ := (advances_advance hfun).trans ((advances_advance hname).trans hnames.advances)
    exact .inr ⟨ps, p, hp.ahead, hp.stop, hp.queue⟩
  | anonymous hfun hnames =>
    obtain ⟨ps, p, hp⟩ := (advances_advance hfun).trans hnames.advances
    exact .inr ⟨ps, p, hp.ahead, hp.stop, hp.queue⟩

theorem ReadsHead.keeps {c c' : Cursor} (h : c.ReadsHead c') : c.Keeps [] c' := by
  rcases h.advances with rfl | ⟨ps, p, hp⟩
  · exact ⟨[], rfl, by simp⟩
  · exact ⟨ps ++ [p], by simp [hp.ahead], by simp [hp.queue]⟩

theorem ahead_eq_nil {c : Cursor} (h : c.token? = none) : c.ahead = [] := by
  simpa [token?] using h

end Cursor

/-! ## Whole texts -/

theorem Fragment.comments_of_read (f : Fragment) {c c' : Cursor} {b : Body}
    (h : f.read c = .ok b c') (ho : Orderly c.ahead) :
    b.comments = values (c.queue ++ c.ahead.flatMap Piece.after) := by
  cases f with
  | program =>
    obtain ⟨ss, c₁, hss, rfl, -⟩ := read_program_iff.mp h
    obtain ⟨passed, hpassed, hkeeps⟩ := hss.keeps ho
    have hend : c₁.ahead = [] := Cursor.ahead_eq_nil hss.token?_eq
    rw [hpassed, hend, List.append_nil, hkeeps, Body.comments_mk, Cursor.comments_eq]
  | function =>
    obtain ⟨c₁, inner, c₂, hhead, hblock, hnone, rfl, -⟩ := read_function_iff.mp h
    obtain ⟨passed', last, hacc⟩ := hblock.account (hhead.keeps.orderly ho)
    obtain ⟨passed, hpassed, hkeeps⟩ := hhead.keeps
    have hahead : c₁.ahead = passed' ++ last :: c₂.ahead := hacc.ahead
    rw [hpassed, hahead, Cursor.ahead_eq_nil hnone, List.flatMap_append, ← List.append_assoc,
      values_append, hkeeps, Body.comments_trail, Body.comments_lead]
    simp [hacc.owned_eq, hacc.queue]

theorem Fragment.comments_of_parse (f : Fragment) {text : String} {b : Body}
    {ls : List (Located Lexeme)} (hls : tokenize text = .ok ls) (h : f.parse text = .ok b) :
    b.comments = lexemeComments ls := by
  obtain ⟨ls', hls', c', hread⟩ := parse_eq_ok_iff.mp h
  obtain rfl : ls' = ls := Except.ok.inj (hls'.symm.trans hls)
  have ho : Orderly (Cursor.start text ls').ahead := (tokenize_eq_ok_iff.mp hls).orderly
  rw [f.comments_of_read hread ho, ← comments_of_pieces]
  rfl

/-- No comment is lost, doubled, changed or moved past another by reading: a walk over the tree
meets the comments of the text in the order of the text. -/
theorem walk_meets_comments_of_text (f : Fragment) {text : String} {b : Body}
    (h : f.parse text = .ok b) :
    ∃ ls, tokenize text = .ok ls ∧ (f.visits b).filterMap Visit.comment? = lexemeComments ls := by
  obtain ⟨ls, hls, -⟩ := Fragment.parse_eq_ok_iff.mp h
  refine ⟨ls, hls, ?_⟩
  rw [← f.comments_of_parse hls h]
  cases f <;> rfl

/-- Comments in front of a statement, inside it, behind it and at the end of the program. -/
theorem walk_meets_comments_of_program :
    ∃ b ls, Fragment.program.parse "/*a*/ var q = /*b*/ p // c\n/*d*/" = .ok b ∧
      tokenize "/*a*/ var q = /*b*/ p // c\n/*d*/" = .ok ls ∧
      (Fragment.program.visits b).filterMap Visit.comment? = lexemeComments ls ∧
      lexemeComments ls =
        [⟨.block, "/*a*/"⟩, ⟨.block, "/*b*/"⟩, ⟨.line, "// c"⟩, ⟨.block, "/*d*/"⟩] := by
  have h : Fragment.program.parse "/*a*/ var q = /*b*/ p // c\n/*d*/" =
      .ok ⟨[⟨[⟨.block, "/*a*/"⟩, ⟨.block, "/*b*/"⟩], .var [⟨"q", some (.ident "p")⟩],
        [⟨.line, "// c"⟩]⟩], [⟨.block, "/*d*/"⟩]⟩ := by cbv
  obtain ⟨ls, hls, hmeets⟩ := walk_meets_comments_of_text .program h
  refine ⟨_, ls, h, hls, hmeets, ?_⟩
  rw [← hmeets]
  cbv

end Reprint
