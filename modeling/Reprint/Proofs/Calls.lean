import Mathlib.Data.List.Perm.Subperm
import Reprint.Reading.Calls
import Reprint.Proofs.Carriage

/-!
# Calls on one cursor

A call reads what is ahead of the cursor and nothing of what happened before: a new cursor on the
lexemes that are left gives the same answer, with no queue to put in front (`call_renewed`).

The comments of a text are followed through a row of calls by marks. Calls never look at a comment, so
they can be made on a text whose comments carry marks, all of them different, and the marks taken off
afterwards (`calls_carried`). A call that succeeds moves marks and a call that fails may drop some, so
no comment is found twice (`calls_keep_comments_apart`). Neither changes the order of what is left
(`Answers.thins`, `Refuses.thins`).
-/

namespace Reprint

namespace Node

def comments : Node → List Comment
  | program b | block b => b.comments
  | stmt s => s.comments
  | expr _ => []

def relabel (g : Comment → Comment) : Node → Node
  | program b => program (b.relabel g)
  | block b => block (b.relabel g)
  | stmt s => stmt (s.relabel g)
  | expr e => expr e

/-- Puts comments in front of all that the node holds. -/
def lead (before : List Comment) : Node → Node
  | program b => program (b.lead before)
  | block b => block (b.lead before)
  | stmt s => stmt (s.lead before)
  | expr e => expr e

theorem lead_nil (n : Node) : n.lead [] = n := by
  cases n with
  | program b => rw [lead, b.lead_nil]
  | block b => rw [lead, b.lead_nil]
  | stmt s => rw [lead, s.lead_nil]
  | expr e => rfl

theorem relabel_id (n : Node) : n.relabel id = n := by
  cases n with
  | program b => rw [relabel, b.relabel_id]
  | block b => rw [relabel, b.relabel_id]
  | stmt s => rw [relabel, s.relabel_id]
  | expr e => rfl

end Node

theorem pieces_comments (xs : List (Located Comment)) (ls : List (Located Lexeme)) :
    pieces (xs.map Located.lexeme ++ ls) = (xs ++ (pieces ls).1, (pieces ls).2) := by
  induction xs with
  | nil => rfl
  | cons x xs ih =>
    rw [List.map_cons, List.cons_append, Located.lexeme, pieces, ih]
    rfl

theorem pieces_lexemes (ps : List Piece) : pieces (ps.flatMap Piece.lexemes) = ([], ps) := by
  induction ps with
  | nil => rfl
  | cons p ps ih =>
    rw [List.flatMap_cons, Piece.lexemes, List.cons_append, Piece.lexeme, pieces, pieces_comments, ih,
      List.append_nil]

namespace Outcome

variable {α β : Type} {o : Outcome α} {f : α → β} {c : Cursor}

theorem map_eq_ok_iff {b : β} : o.map f = .ok b c ↔ ∃ a, o = .ok a c ∧ f a = b := by
  cases o with
  | ok a rest => simp [map, andThen, and_comm]
  | error e rest => simp [map, andThen]

theorem map_eq_error_iff {e : ParseError} : o.map f = .error e c ↔ o = .error e c := by
  cases o with
  | ok a rest => simp [map, andThen]
  | error e rest => simp [map, andThen]

end Outcome

/-- Blocks and expressions leave what is queued to whoever comes next. -/
def Call.keepsQueue : Call → Bool
  | block | expr => true
  | stmt | program | functionBody => false

namespace Cursor

/-! ## What a call can do -/

inductive Answers (c : Cursor) : Call → Node → Cursor → Prop
  | stmt {s c'} : c.ReadsStmt s c' → Answers c .stmt (.stmt s) c'
  | block {b c'} : c.ReadsBlock b c' → Answers c .block (.block b) c'
  | expr {e c'} : c.ReadsExpr e c' → Answers c .expr (.expr e) c'
  | program {b c'} : Fragment.program.read c = .ok b c' → Answers c .program (.program b) c'
  | functionBody {b c'} : Fragment.function.read c = .ok b c' → Answers c .functionBody (.block b) c'

inductive Refuses (c : Cursor) : Call → Expected → Cursor → Prop
  | stmt {ex c'} : FailsForm ((c.withQueue []).record (.readingStmt c.here c.found)) ex c' →
      Refuses c .stmt ex c'
  | block {ex c'} : c.FailsBlock ex c' → Refuses c .block ex c'
  | expr {ex c'} : c.FailsExpr ex c' → Refuses c .expr ex c'
  | program {ex c'} : Fragment.program.Fails c ex c' → Refuses c .program ex c'
  | functionBody {ex c'} : Fragment.function.Fails c ex c' → Refuses c .functionBody ex c'

end Cursor

variable {c c' d : Cursor} {k : Call} {node : Node} {ex : Expected} {g : Comment → Comment}
  {q : List (Located Comment)}

namespace Cursor

theorem call_eq_ok_iff : c.call k = .ok node c' ↔ c.Answers k node c' := by
  constructor
  · intro h
    cases k with
    | stmt =>
      obtain ⟨s, hs, rfl⟩ := Outcome.map_eq_ok_iff.mp h
      exact .stmt (reads_of_gives_stmt hs)
    | block =>
      obtain ⟨b, hb, rfl⟩ := Outcome.map_eq_ok_iff.mp h
      exact .block (reads_of_gives_block hb)
    | expr =>
      obtain ⟨e, he, rfl⟩ := Outcome.map_eq_ok_iff.mp h
      exact .expr (gives_expr_iff.mp he)
    | program =>
      obtain ⟨b, hb, rfl⟩ := Outcome.map_eq_ok_iff.mp h
      exact .program hb
    | functionBody =>
      obtain ⟨b, hb, rfl⟩ := Outcome.map_eq_ok_iff.mp h
      exact .functionBody hb
  · intro h
    cases h with
    | stmt hs => exact Outcome.map_eq_ok_iff.mpr ⟨_, hs.gives, rfl⟩
    | block hb => exact Outcome.map_eq_ok_iff.mpr ⟨_, hb.gives, rfl⟩
    | expr he => exact Outcome.map_eq_ok_iff.mpr ⟨_, gives_expr_iff.mpr he, rfl⟩
    | program hb => exact Outcome.map_eq_ok_iff.mpr ⟨_, hb, rfl⟩
    | functionBody hb => exact Outcome.map_eq_ok_iff.mpr ⟨_, hb, rfl⟩

theorem call_eq_error_iff {e : ParseError} :
    c.call k = .error e c' ↔ ∃ ex, e = c'.unexpected ex ∧ c.Refuses k ex c' := by
  constructor
  · intro h
    cases k with
    | stmt =>
      obtain ⟨ex, he, hf⟩ := stopsBy_stmt e c' (Outcome.map_eq_error_iff.mp h)
      exact ⟨ex, he, .stmt hf⟩
    | block =>
      obtain ⟨ex, he, hb⟩ := stopsBy_block e c' (Outcome.map_eq_error_iff.mp h)
      exact ⟨ex, he, .block hb⟩
    | expr =>
      obtain ⟨ex, he, hex⟩ := stopsBy_exprAbove (Nat.zero_le 3) e c' (Outcome.map_eq_error_iff.mp h)
      exact ⟨ex, he, .expr hex⟩
    | program =>
      obtain ⟨ex, he, hp⟩ := Fragment.fails_of_read (f := .program) (Outcome.map_eq_error_iff.mp h)
      exact ⟨ex, he, .program hp⟩
    | functionBody =>
      obtain ⟨ex, he, hp⟩ := Fragment.fails_of_read (f := .function) (Outcome.map_eq_error_iff.mp h)
      exact ⟨ex, he, .functionBody hp⟩
  · intro h
    obtain ⟨ex, rfl, h⟩ := h
    cases h with
    | stmt hf =>
      have hfails : c.stmt.Fails ex c' := by
        rw [Cursor.stmt]
        exact Reading.fails_andThen_left hf.fails
      exact Outcome.map_eq_error_iff.mpr hfails
    | block hb => exact Outcome.map_eq_error_iff.mpr hb.fails
    | expr he => exact Outcome.map_eq_error_iff.mpr (he.fails 0 (Nat.zero_le 3))
    | program hp => exact Outcome.map_eq_error_iff.mpr hp.read
    | functionBody hp => exact Outcome.map_eq_error_iff.mpr hp.read

/-! ## Calls on cursors that carry other comments -/

theorem Answers.carried (h : c.Answers k node c') (hs : Carries g q c d) :
    ∃ d', d.Answers k
        (if k.keepsQueue then node.relabel g else (node.relabel g).lead (values q)) d' ∧
      Carries g (if k.keepsQueue then q else []) c' d' := by
  cases h with
  | stmt hstmt =>
    obtain ⟨d', hstmt', hs'⟩ := hstmt.carried hs
    exact ⟨d', .stmt hstmt', hs'⟩
  | block hb =>
    obtain ⟨d', hb', hs'⟩ := hb.carried hs
    exact ⟨d', .block hb', hs'.toCarries⟩
  | expr he =>
    obtain ⟨d', he', hs'⟩ := he.carried hs
    exact ⟨d', .expr he', hs'.toCarries⟩
  | program hb =>
    obtain ⟨d', hb', hs'⟩ := Fragment.read_carried hb hs
    exact ⟨d', .program hb', hs'⟩
  | functionBody hb =>
    obtain ⟨d', hb', hs'⟩ := Fragment.read_carried hb hs
    exact ⟨d', .functionBody hb', hs'⟩

theorem Refuses.carried (h : c.Refuses k ex c') (hs : Carries g q c d) :
    ∃ d' q', d.Refuses k ex d' ∧ Carries g q' c' d' ∧ (q' = [] ∨ q' = q) := by
  cases h with
  | stmt hf =>
    have hs₀ := hs.emptied.record (.readingStmt c.here c.found) (.readingStmt d.here d.found)
    obtain ⟨d', hf', hs'⟩ := hf.carried hs₀
    exact ⟨d', [], .stmt hf', hs', .inl rfl⟩
  | block hb =>
    obtain ⟨d', hb', hs'⟩ := hb.carried hs
    exact ⟨d', [], .block hb', hs', .inl rfl⟩
  | expr he =>
    obtain ⟨d', he', hs'⟩ := he.carried hs
    exact ⟨d', q, .expr he', hs', .inr rfl⟩
  | program hp =>
    obtain ⟨d', q', hp', hs', hq'⟩ := hp.carried hs
    exact ⟨d', q', .program hp', hs', hq'⟩
  | functionBody hp =>
    obtain ⟨d', q', hp', hs', hq'⟩ := hp.carried hs
    exact ⟨d', q', .functionBody hp', hs', hq'⟩

theorem calls_carried (ks : List Call) (hs : Carries g [] c d) :
    (d.calls ks).1 = (c.calls ks).1.map (Except.map (Node.relabel g)) ∧
      Carries g [] (c.calls ks).2 (d.calls ks).2 := by
  -- with no queue in front, each call leaves two cursors that again differ in their comments only
  induction ks generalizing c d with
  | nil => exact ⟨rfl, hs⟩
  | cons k ks ih =>
    cases hcall : c.call k with
    | ok node c' =>
      obtain ⟨d', hd, hs'⟩ := (call_eq_ok_iff.mp hcall).carried hs
      rw [values_nil, Node.lead_nil, ite_self] at hd
      rw [ite_self] at hs'
      obtain ⟨hanswers, hlast⟩ := ih hs'
      simp only [calls, hcall, call_eq_ok_iff.mpr hd]
      exact ⟨by rw [hanswers]; rfl, hlast⟩
    | error e c' =>
      obtain ⟨ex, rfl, hrefuses⟩ := call_eq_error_iff.mp hcall
      obtain ⟨d', q', hd, hs', hq'⟩ := hrefuses.carried hs
      obtain rfl : q' = [] := by simpa using hq'
      obtain ⟨hanswers, hlast⟩ := ih hs'
      have hcall' := call_eq_error_iff.mpr ⟨ex, (hs'.unexpected_eq ex).symm, hd⟩
      simp only [calls, hcall, hcall']
      exact ⟨by rw [hanswers]; rfl, hlast⟩

/-- A new cursor in front of the tokens that are left. -/
def renewed (c : Cursor) (journal : Journal) : Cursor :=
  .ofLexemes (c.ahead.flatMap Piece.lexemes) c.textStop journal

theorem carries_renewed (c : Cursor) (journal : Journal) :
    Carries id c.queue (c.renewed journal) c := by
  unfold renewed ofLexemes
  rw [pieces_lexemes]
  exact carries_id_iff.mpr ⟨rfl, (List.append_nil _).symm, rfl⟩

/-- Where a cursor has been does not matter, only what is ahead and what is queued: a call gives what
it gives on a new cursor, with the queue in front of the node, or kept in front of what is queued. -/
theorem call_renewed (c : Cursor) (k : Call) (journal : Journal) :
    (∀ node d', (c.renewed journal).call k = .ok node d' →
      ∃ c', c.call k = .ok (if k.keepsQueue then node else node.lead c.comments) c' ∧
        c'.ahead = d'.ahead ∧ c'.queue = (if k.keepsQueue then c.queue else []) ++ d'.queue) ∧
    ∀ e d', (c.renewed journal).call k = .error e d' →
      ∃ c', c.call k = .error e c' ∧ c'.ahead = d'.ahead := by
  have hs := c.carries_renewed journal
  constructor
  · intro node d' h
    obtain ⟨c', hc, hs'⟩ := (call_eq_ok_iff.mp h).carried hs
    obtain ⟨hahead, hqueue, -⟩ := carries_id_iff.mp hs'
    rw [Node.relabel_id] at hc
    exact ⟨c', call_eq_ok_iff.mpr hc, hahead, hqueue⟩
  · intro e d' h
    obtain ⟨ex, rfl, hrefuses⟩ := call_eq_error_iff.mp h
    obtain ⟨c', q', hc, hs', -⟩ := hrefuses.carried hs
    obtain ⟨hahead, -⟩ := carries_id_iff.mp hs'
    exact ⟨c', call_eq_error_iff.mpr ⟨ex, (hs'.unexpected_eq ex).symm, hc⟩, hahead⟩

/-- A comment that a failed call has left in the queue leads what is read next. -/
theorem call_renewed_after_failure :
    ∃ c d' c', (ofText "/*a*/ \x7b p \x7d").map (fun c => (c.calls [.expr]).2) = .ok c ∧
      (c.renewed #[]).call .program =
        .ok (.program ⟨[⟨[], .block ⟨[⟨[], .expr (.ident "p"), []⟩], []⟩, []⟩], []⟩) d' ∧
      c.call .program =
        .ok (.program ⟨[⟨[⟨.block, "/*a*/"⟩], .block ⟨[⟨[], .expr (.ident "p"), []⟩], []⟩, []⟩], []⟩) c' ∧
      c'.queue = d'.queue := by
  obtain ⟨c, hc, hqueue, d', hd⟩ :
      ∃ c, (ofText "/*a*/ \x7b p \x7d").map (fun c => (c.calls [.expr]).2) = .ok c ∧
        c.comments = [⟨.block, "/*a*/"⟩] ∧ ∃ d', (c.renewed #[]).call .program =
          .ok (.program ⟨[⟨[], .block ⟨[⟨[], .expr (.ident "p"), []⟩], []⟩, []⟩], []⟩) d' := by
    exact ⟨_, by cbv, by cbv, _, by cbv⟩
  obtain ⟨c', hcall, -, hkept⟩ := (call_renewed c .program #[]).1 _ _ hd
  rw [hqueue] at hcall
  exact ⟨c, d', c', hc, hd, hcall, hkept⟩

/-! ## The comments that are left -/

/-- The comments that no node owns yet: those in the queue and those ahead. -/
def pending (c : Cursor) : List (Located Comment) := c.queue ++ c.ahead.flatMap Piece.after

@[simp] theorem pending_advance (c : Cursor) : c.advance.pending = c.pending := by
  unfold advance
  cases h : c.ahead with
  | nil => rfl
  | cons p ps => simp [pending, h]

theorem Advances.pending_eq (h : c.Advances c') : c'.pending = c.pending := by
  obtain ⟨us, p, hp⟩ := h
  simp [pending, hp.ahead, hp.queue]

theorem FailsExpr.pending_eq (h : c.FailsExpr ex c') : c'.pending = c.pending := by
  induction h with
  | operand _ => rfl
  | inside _ _ ih => simpa using ih
  | close _ he _ => simpa using he.advances.pending_eq
  | literalTarget _ _ _ _ => simp
  | parenTarget _ he _ _ => simpa using he.advances.pending_eq
  | value _ _ _ ih => simpa using ih

theorem FailsNames.pending_eq (h : c.FailsNames ex c') : c'.pending = c.pending := by
  induction h with
  | name _ => rfl
  | comma _ _ _ => simp
  | more _ _ _ ih => simpa using ih

theorem FailsParams.pending_eq (h : c.FailsParams ex c') : c'.pending = c.pending := by
  cases h with
  | opening _ => rfl
  | names _ _ hnames => simpa using hnames.pending_eq

theorem FailsDeclarators.pending_eq (h : c.FailsDeclarators ex c') : c'.pending = c.pending := by
  induction h with
  | name _ => rfl
  | init _ _ he => simpa using he.pending_eq
  | more _ hinit _ _ ih =>
    rw [ih, pending_advance]
    rcases hinit.advances with rfl | hadv
    · simp
    · simpa using hadv.pending_eq

theorem FailsHead.pending_eq (h : c.FailsHead ex c') : c'.pending = c.pending := by
  cases h with
  | named _ _ hparams => simpa using hparams.pending_eq
  | anonymous _ _ hparams => simpa using hparams.pending_eq

theorem Keeps.pending_eq {owned : List Comment} (h : c.Keeps owned c') :
    owned ++ values c'.pending = values c.pending := by
  obtain ⟨passed, hahead, hkeeps⟩ := h
  rw [pending, pending, hahead, List.flatMap_append, ← List.append_assoc c.queue, values_append,
    values_append, hkeeps, List.append_assoc]

theorem ReadsBlock.pending_perm {b : Body} (h : c.ReadsBlock b c') (ho : Orderly c.ahead) :
    (b.comments ++ values c'.pending).Perm (values c.pending) := by
  obtain ⟨passed, last, hacc⟩ := h.account ho
  have howned : values (passed.flatMap Piece.after) = b.comments := hacc.owned_eq
  rw [pending, pending, hacc.ahead, hacc.queue, List.flatMap_append, List.flatMap_cons]
  simp only [values_append, List.nil_append, howned, List.append_assoc]
  -- the queue changes places with what the block owns
  exact List.perm_append_comm_assoc ..

theorem Moves.orderly (h : c.Moves c') (ho : Orderly c.ahead) : Orderly c'.ahead := by
  obtain ⟨us, hus⟩ := h.ahead_eq
  exact ho.sublist (hus ▸ List.sublist_append_right ..)

/-! ## Lexemes get fewer -/

/-- The lexemes that are queued or ahead. -/
def remaining (c : Cursor) : List (Located Lexeme) :=
  c.queue.map Located.lexeme ++ c.ahead.flatMap Piece.lexemes

/-- All that `c'` has left is left of `c`, in the same order. -/
def Thins (c c' : Cursor) : Prop := c'.remaining.Sublist c.remaining

theorem Thins.trans {c₁ : Cursor} (h₁ : c.Thins c₁) (h₂ : c₁.Thins c') : c.Thins c' :=
  List.Sublist.trans h₂ h₁

theorem after_sublist_lexemes (ps : List Piece) :
    ((ps.flatMap Piece.after).map Located.lexeme).Sublist (ps.flatMap Piece.lexemes) := by
  induction ps with
  | nil => exact .refl _
  | cons p ps ih =>
    rw [List.flatMap_cons, List.flatMap_cons, List.map_append, Piece.lexemes]
    exact (List.sublist_cons_self ..).append ih

/-- A cursor that only passes tokens queues the comments between them in order. -/
theorem Moves.thins (h : c.Moves c') (hpending : c'.pending = c.pending) : c.Thins c' := by
  obtain ⟨us, hus⟩ := h.ahead_eq
  have hqueue : c'.queue = c.queue ++ us.flatMap Piece.after := by
    unfold pending at hpending
    rw [hus, List.flatMap_append, ← List.append_assoc] at hpending
    exact List.append_cancel_right hpending
  unfold Thins remaining
  rw [hqueue, hus, List.map_append, List.flatMap_append, List.append_assoc]
  exact ((after_sublist_lexemes us).append_right _).append_left _

theorem Advances.thins (h : c.Advances c') (hm : c.Moves c') : c.Thins c' := hm.thins h.pending_eq

theorem thins_advance (c : Cursor) : c.Thins c.advance := (moves_advance c).thins c.pending_advance

/-- Of what was passed, at most the comments behind the last token are left. -/
theorem thins_of_passed {passed : List Piece} {last : Piece} {kept behind : List (Located Comment)}
    (ha : c.ahead = passed ++ last :: c'.ahead) (hq : c'.queue = kept ++ behind)
    (hkept : kept.Sublist c.queue) (hbehind : behind.Sublist last.after) : c.Thins c' := by
  unfold Thins remaining
  rw [hq, ha, List.map_append, List.append_assoc, List.flatMap_append, List.flatMap_cons, Piece.lexemes]
  have hlast : (behind.map Located.lexeme).Sublist (last.lexeme :: last.after.map Located.lexeme) :=
    (hbehind.map _).cons _
  exact (hkept.map _).append ((hlast.append_right _).trans (List.sublist_append_right ..))

theorem thins_emptied (c : Cursor) : c.Thins (c.withQueue []) := List.sublist_append_right ..

theorem thins_owning (c : Cursor) (r : Record) : c.Thins ((c.withQueue []).record r) := c.thins_emptied

theorem ReadsBlock.thins {b : Body} (h : c.ReadsBlock b c') (ho : Orderly c.ahead) : c.Thins c' := by
  obtain ⟨passed, last, hacc⟩ := h.account ho
  exact thins_of_passed hacc.ahead hacc.queue (.refl _) (.refl _)

theorem ReadsStmt.thins {s : Stmt} (h : c.ReadsStmt s c') (ho : Orderly c.ahead) : c.Thins c' := by
  cases h with
  | owning hf hshares =>
    obtain ⟨passed, held, last, hacc⟩ := hf.account ho
    subst hshares
    rw [hacc.shareOut rfl ho]
    refine thins_of_passed hacc.ahead (List.nil_append _).symm (List.nil_sublist _) ?_
    exact List.dropWhile_sublist _

theorem ReadsHead.thins (h : c.ReadsHead c') : c.Thins c' := by
  refine h.moves.thins ?_
  rcases h.advances with rfl | ⟨us, p, hp⟩
  · rfl
  · exact Advances.pending_eq ⟨us, p, hp⟩

mutual
theorem FailsBlock.thins {c c' : Cursor} {ex : Expected} (h : c.FailsBlock ex c')
    (ho : Orderly c.ahead) : c.Thins c' := by
  match h with
  | .opening _ => exact c.thins_emptied
  | .inside _ hss =>
    have hopen := c.thins_emptied.trans (c.withQueue []).thins_advance
    have ho₁ := (moves_advance (c.withQueue [])).orderly ho
    exact hopen.trans (hss.thins ho₁)

theorem FailsForm.thins {c c' : Cursor} {ex : Expected} (h : c.FailsForm ex c')
    (ho : Orderly c.ahead) : c.Thins c' := by
  have hadv₂ := c.thins_advance.trans c.advance.thins_advance
  match h with
  | .block _ hb => exact hb.thins ho
  | .functionName _ _ => exact c.thins_advance
  | .functionParams _ _ hparams => exact hadv₂.trans (hparams.moves.thins hparams.pending_eq)
  | .functionBody _ _ hnames hb =>
    have ho₁ := ((moves_advance₂ c).trans hnames.moves).orderly ho
    exact (hadv₂.trans (hnames.advances.thins hnames.moves)).trans (hb.thins ho₁)
  | .declarators _ hds => exact c.thins_advance.trans (hds.moves.thins hds.pending_eq)
  | .varEnd _ hds _ => exact c.thins_advance.trans (hds.advances.thins hds.moves)
  | .expr _ he => exact he.moves.thins he.pending_eq
  | .exprEnd he _ => exact he.advances.thins he.moves

theorem FailsStmts.thins {close : Option Token} {c c' : Cursor} {ex : Expected}
    (h : c.FailsStmts close ex c') (ho : Orderly c.ahead) : c.Thins c' := by
  match h with
  | .unclosed _ => exact List.Sublist.refl _
  | .now _ _ hf => exact (c.thins_owning _).trans (hf.thins ho)
  | .later _ _ hs hss => exact (hs.thins ho).trans (hss.thins (hs.moves.orderly ho))
end

end Cursor

open Cursor in
theorem Fragment.Fails.thins {f : Fragment} (h : f.Fails c ex c') (ho : Orderly c.ahead) :
    c.Thins c' := by
  -- the body of a function is read with an empty queue, whatever its head has queued
  have henter {c₁ : Cursor} (hhead : c.ReadsHead c₁) : c.Thins (c₁.withQueue []) :=
    hhead.thins.trans c₁.thins_emptied
  cases h with
  | program hss => exact hss.thins ho
  | head hhead => exact hhead.moves.thins hhead.pending_eq
  | block hhead hb => exact (henter hhead).trans (hb.thins (hhead.moves.orderly ho))
  | behind hhead hb _ => exact (henter hhead).trans (hb.thins (hhead.moves.orderly ho))

theorem Fragment.moves_of_read {f : Fragment} {b : Body} (h : f.read c = .ok b c') : c.Moves c' := by
  cases f with
  | program =>
    obtain ⟨ss, c₁, hss, -, rfl⟩ := read_program_iff.mp h
    exact hss.moves.withQueue []
  | function =>
    obtain ⟨c₁, inner, c₂, hhead, hb, -, -, rfl⟩ := read_function_iff.mp h
    exact ((hhead.moves.withQueue []).trans hb.moves).withQueue []

theorem Fragment.end_of_read {f : Fragment} {b : Body} (h : f.read c = .ok b c') :
    c'.queue = [] ∧ c'.ahead = [] := by
  cases f with
  | program =>
    obtain ⟨ss, c₁, hss, -, rfl⟩ := read_program_iff.mp h
    exact ⟨rfl, Cursor.ahead_eq_nil hss.token?_eq⟩
  | function =>
    obtain ⟨c₁, inner, c₂, -, -, hnone, -, rfl⟩ := read_function_iff.mp h
    exact ⟨rfl, Cursor.ahead_eq_nil hnone⟩

/-! ## A row of calls -/

def answerComments : Except ParseError Node → List Comment
  | .ok node => node.comments
  | .error _ => []

namespace Cursor

theorem Answers.moves (h : c.Answers k node c') : c.Moves c' := by
  cases h with
  | stmt hs => exact hs.moves
  | block hb => exact hb.moves
  | expr he => exact he.moves
  | program hb => exact Fragment.moves_of_read hb
  | functionBody hb => exact Fragment.moves_of_read hb

theorem Refuses.moves (h : c.Refuses k ex c') : c.Moves c' := by
  cases h with
  | stmt hf => exact (moves_owning c _).trans hf.moves
  | block hb => exact hb.moves
  | expr he => exact he.moves
  | program hp => exact hp.moves
  | functionBody hp => exact hp.moves

theorem Answers.pending_perm (h : c.Answers k node c') (ho : Orderly c.ahead) :
    (node.comments ++ values c'.pending).Perm (values c.pending) := by
  have hread {f : Fragment} {b : Body} (hb : f.read c = .ok b c') :
      b.comments ++ values c'.pending = values c.pending := by
    obtain ⟨hqueue, hahead⟩ := Fragment.end_of_read hb
    simp [f.comments_of_read hb ho, pending, hqueue, hahead]
  cases h with
  | stmt hs => exact .of_eq (hs.keeps ho).pending_eq
  | block hb => exact hb.pending_perm ho
  | expr he => exact .of_eq (congrArg values he.advances.pending_eq)
  | program hb => exact .of_eq (hread hb)
  | functionBody hb => exact .of_eq (hread hb)

theorem Answers.thins (h : c.Answers k node c') (ho : Orderly c.ahead) : c.Thins c' := by
  have hread {f : Fragment} {b : Body} (hb : f.read c = .ok b c') : c.Thins c' := by
    obtain ⟨hqueue, hahead⟩ := Fragment.end_of_read hb
    simp [Thins, remaining, hqueue, hahead]
  cases h with
  | stmt hs => exact hs.thins ho
  | block hb => exact hb.thins ho
  | expr he => exact he.advances.thins he.moves
  | program hb => exact hread hb
  | functionBody hb => exact hread hb

theorem Refuses.thins (h : c.Refuses k ex c') (ho : Orderly c.ahead) : c.Thins c' := by
  cases h with
  | stmt hf => exact (c.thins_owning _).trans (hf.thins ho)
  | block hb => exact hb.thins ho
  | expr he => exact he.moves.thins he.pending_eq
  | program hp => exact hp.thins ho
  | functionBody hp => exact hp.thins ho

theorem lexemeComments_remaining (c : Cursor) : lexemeComments c.remaining = values c.pending := by
  have hpieces : pieces c.remaining = (c.queue, c.ahead) := by
    rw [remaining, pieces_comments, pieces_lexemes, List.append_nil]
  rw [← comments_of_pieces, hpieces]
  rfl

theorem Refuses.loses (h : c.Refuses k ex c') (ho : Orderly c.ahead) :
    (values c'.pending).Sublist (values c.pending) := by
  rw [← lexemeComments_remaining, ← lexemeComments_remaining]
  exact (h.thins ho).filterMap _

/-- What calls have given out and what they have left is what there was, but for what failed calls
have dropped. -/
theorem calls_account (ks : List Call) (ho : Orderly c.ahead) :
    ((c.calls ks).1.flatMap answerComments ++ values (c.calls ks).2.pending).Subperm
        (values c.pending) ∧
      ((∀ a ∈ (c.calls ks).1, a.isOk = true) →
        ((c.calls ks).1.flatMap answerComments ++ values (c.calls ks).2.pending).Perm
          (values c.pending)) := by
  induction ks generalizing c with
  | nil => exact ⟨.refl _, fun _ => .refl _⟩
  | cons k ks ih =>
    cases hcall : c.call k with
    | ok node c' =>
      have hanswers := call_eq_ok_iff.mp hcall
      obtain ⟨hsub, hperm⟩ := ih (hanswers.moves.orderly ho)
      have hstep := hanswers.pending_perm ho
      simp only [calls, hcall, List.flatMap_cons, List.append_assoc, List.forall_mem_cons]
      constructor
      · exact ((List.subperm_append_left _).mpr hsub).trans hstep.subperm
      · intro hok
        exact ((hperm hok.2).append_left _).trans hstep
    | error e c' =>
      obtain ⟨ex, -, hrefuses⟩ := call_eq_error_iff.mp hcall
      obtain ⟨hsub, -⟩ := ih (hrefuses.moves.orderly ho)
      simp only [calls, hcall, List.flatMap_cons, List.forall_mem_cons]
      constructor
      · exact hsub.trans (hrefuses.loses ho).subperm
      · intro hok
        cases hok.1

end Cursor

/-! ## Marks in place of comments -/

def Lexeme.relabel (g : Comment → Comment) : Lexeme → Lexeme
  | token t => token t
  | comment c => comment (g c)

theorem pieces_relabel (g : Comment → Comment) (ls : List (Located Lexeme)) :
    pieces (ls.map (Located.map (Lexeme.relabel g))) =
      ((pieces ls).1.map (Located.map g), (pieces ls).2.map (Piece.relabel g)) := by
  fun_induction pieces ls with
  | case1 => rfl
  | case2 c span ls before ps h ih =>
    rw [h] at ih
    rw [List.map_cons, Located.map, Lexeme.relabel, pieces, ih]
    rfl
  | case3 t span ls after ps h ih =>
    rw [h] at ih
    rw [List.map_cons, Located.map, Lexeme.relabel, pieces, ih]
    rfl

theorem Orderly.of_relabel {ps : List Piece} (h : Orderly (ps.map (Piece.relabel g))) : Orderly ps := by
  constructor
  · intro p hp x hx
    exact h.stop_le _ (List.mem_map_of_mem hp) (x.map g) (List.mem_map_of_mem hx)
  · refine (List.pairwise_map.mp h.lt_stop).imp fun hpq x hx => ?_
    exact hpq (x.map g) (List.mem_map_of_mem hx)

/-- The lexemes `marked` are `ls` with a mark in place of each comment. No two marks are the same, and
`unmark` gives back the comment that a mark stands for. -/
structure Marks (ls marked : List (Located Lexeme)) (unmark : Comment → Comment) : Prop where
  lexemes : ls = marked.map (Located.map (Lexeme.relabel unmark))
  distinct : (lexemeComments marked).Nodup

theorem Marks.carries {ls marked : List (Located Lexeme)} {unmark : Comment → Comment}
    (h : Marks ls marked unmark) (text : String) :
    Cursor.Carries unmark [] (Cursor.start text marked) (Cursor.start text ls) := by
  have hpieces := pieces_relabel unmark marked
  rw [← h.lexemes] at hpieces
  exact ⟨congrArg Prod.snd hpieces, congrArg Prod.fst hpieces, rfl⟩

def mark (k : Nat) : Comment := ⟨.block, String.ofList (List.replicate k '*')⟩

theorem length_mark (k : Nat) : (mark k).text.length = k := by
  simp [mark]

/-- The lexemes with their comments numbered from `k` on. -/
def numbered (k : Nat) : List (Located Lexeme) → List (Located Lexeme)
  | [] => []
  | ⟨.comment _, span⟩ :: ls => ⟨.comment (mark k), span⟩ :: numbered (k + 1) ls
  | ⟨.token t, span⟩ :: ls => ⟨.token t, span⟩ :: numbered k ls

theorem lexemeComments_numbered (k : Nat) (ls : List (Located Lexeme)) :
    lexemeComments (numbered k ls) = (List.range' k (lexemeComments ls).length).map mark := by
  fun_induction numbered k ls with
  | case1 k => rfl
  | case2 k c span ls ih => simpa [lexemeComments, Lexeme.comment?, List.range'_succ] using ih
  | case3 k t span ls ih => simpa [lexemeComments, Lexeme.comment?] using ih

theorem relabel_numbered (before : List Comment) (ls : List (Located Lexeme)) :
    (numbered before.length ls).map (Located.map (Lexeme.relabel fun m =>
      (before ++ lexemeComments ls).getD m.text.length m)) = ls := by
  match ls with
  | [] => rfl
  | ⟨.comment c, span⟩ :: ls =>
    have ih := relabel_numbered (before ++ [c]) ls
    have hcomments : lexemeComments (⟨.comment c, span⟩ :: ls) = c :: lexemeComments ls := rfl
    rw [List.length_append, List.append_assoc] at ih
    rw [numbered, hcomments, List.map_cons]
    congr 1
    simp [Located.map, Lexeme.relabel, length_mark]
  | ⟨.token t, span⟩ :: ls =>
    have ih := relabel_numbered before ls
    rw [numbered, List.map_cons]
    exact congrArg (_ :: ·) ih

theorem exists_marks (ls : List (Located Lexeme)) : ∃ marked unmark, Marks ls marked unmark := by
  refine ⟨numbered 0 ls, _, (relabel_numbered [] ls).symm, ?_⟩
  rw [lexemeComments_numbered]
  refine List.Nodup.map ?_ List.nodup_range'
  intro k k' h
  rw [← length_mark k, ← length_mark k', h]

namespace Cursor

/-- Each comment of a text is followed by the mark that stands for it through a row of calls. After
the calls, no mark is found twice in the nodes that were given out, the queue and what is ahead; and
if no call has failed, every mark is found. -/
theorem calls_keep_comments_apart {text : String} {ls : List (Located Lexeme)}
    (hls : tokenize text = .ok ls) (ks : List Call) :
    (∃ marked unmark, Marks ls marked unmark) ∧
    ∀ marked unmark, Marks ls marked unmark → ∃ answers last answers' last' found,
      (start text ls).calls ks = (answers, last) ∧ (start text marked).calls ks = (answers', last') ∧
      answers = answers'.map (Except.map (Node.relabel unmark)) ∧
      last.queue = last'.queue.map (Located.map unmark) ∧
      last.ahead = last'.ahead.map (Piece.relabel unmark) ∧
      found = answers'.flatMap answerComments ++ values last'.pending ∧
      found.Nodup ∧ found ⊆ lexemeComments marked ∧
      ((∀ a ∈ answers, a.isOk = true) → found.Perm (lexemeComments marked)) := by
  refine ⟨exists_marks ls, ?_⟩
  intro marked unmark hmarks
  have hcarries := hmarks.carries text
  obtain ⟨hanswers, hlast⟩ := calls_carried ks hcarries
  -- the marks stand where the comments stood, so the marked lexemes are as orderly as the text
  have ho : Orderly (start text marked).ahead := by
    have hlexed : Orderly (start text ls).ahead := (tokenize_eq_ok_iff.mp hls).orderly
    rw [hcarries.ahead] at hlexed
    exact hlexed.of_relabel
  have hpending : values (start text marked).pending = lexemeComments marked := comments_of_pieces marked
  obtain ⟨hsub, hperm⟩ := calls_account ks ho
  rw [hpending] at hsub hperm
  refine ⟨_, _, _, _, _, rfl, rfl, hanswers, hlast.queue, hlast.ahead, rfl, ?_, hsub.subset, ?_⟩
  · obtain ⟨kept, hkept, hsublist⟩ := hsub
    exact hkept.nodup_iff.mp (hmarks.distinct.sublist hsublist)
  · intro hok
    apply hperm
    intro a ha
    have hsame : (a.map (Node.relabel unmark)).isOk = a.isOk := by cases a <;> rfl
    rw [← hsame]
    exact hok _ (hanswers ▸ List.mem_map_of_mem ha)

/-- Three comments with one text, and a call that fails before two that succeed. -/
theorem calls_keep_comments_apart_after_failure :
    ∃ ls marked unmark answers' last' found, tokenize "/*a*/ \x7b p /*a*/ \x7d /*a*/" = .ok ls ∧
      Marks ls marked unmark ∧
      (start "/*a*/ \x7b p /*a*/ \x7d /*a*/" marked).calls [.expr, .block, .program] =
        (answers', last') ∧
      [.error ⟨"expression", "`\x7b`", ⟨6, 1, 7⟩⟩,
        .ok (.block ⟨[⟨[], .expr (.ident "p"), [⟨.block, "/*a*/"⟩]⟩], []⟩),
        .ok (.program ⟨[], [⟨.block, "/*a*/"⟩, ⟨.block, "/*a*/"⟩]⟩)] =
          answers'.map (Except.map (Node.relabel unmark)) ∧
      found = answers'.flatMap answerComments ++ values last'.pending ∧
      found.Nodup ∧ found ⊆ lexemeComments marked := by
  obtain ⟨ls, hls, h⟩ : ∃ ls, tokenize "/*a*/ \x7b p /*a*/ \x7d /*a*/" = .ok ls ∧
      ((start "/*a*/ \x7b p /*a*/ \x7d /*a*/" ls).calls [.expr, .block, .program]).1 =
        [.error ⟨"expression", "`\x7b`", ⟨6, 1, 7⟩⟩,
          .ok (.block ⟨[⟨[], .expr (.ident "p"), [⟨.block, "/*a*/"⟩]⟩], []⟩),
          .ok (.program ⟨[], [⟨.block, "/*a*/"⟩, ⟨.block, "/*a*/"⟩]⟩)] := ⟨_, by cbv, by cbv⟩
  obtain ⟨⟨marked, unmark, hmarks⟩, hall⟩ :=
    calls_keep_comments_apart hls [.expr, .block, .program]
  obtain ⟨answers, last, answers', last', found, hcalls, hcalls', hanswers, -, -, hfound, hnodup,
    hsubset, -⟩ := hall marked unmark hmarks
  refine ⟨ls, marked, unmark, answers', last', found, hls, hmarks, hcalls', ?_, hfound, hnodup, hsubset⟩
  rw [← hanswers, ← h, hcalls]

end Cursor

end Reprint
