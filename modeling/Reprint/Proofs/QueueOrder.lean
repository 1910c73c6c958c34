import Reprint.Proofs.Calls
import Reprint.Proofs.Earliest
import Reprint.Proofs.Joining
import Reprint.Proofs.Ownership

/-!
# The queue between calls

Calls on one cursor, whether they succeed or fail, leave a queue in the order of the text that ends in
front of the next token (`Cursor.calls_keep_queue_in_order`): what is read makes the row of lexemes that
are queued or ahead thinner, and never changes its order.

At the end of a statement the queue falls into three parts, one behind the other, so each comment could
be shared out by itself. This is said of all statements on the way, those of failing calls among them:
the readers are written down once more with a sharing of their own, which may refuse a queue, and it
makes no difference as long as a queue in three parts is shared as it should be (`callsBy_eq`).
-/

namespace Reprint

/-! ## Queues in three parts -/

/-- Comments inside a statement that ends at `stop`, then comments behind it on its last line, then
comments on other lines. -/
def Splits (stop : Position) (queue : List (Located Comment)) : Prop :=
  ∃ inside behind rest, queue = inside ++ (behind ++ rest) ∧
    (∀ x ∈ inside, x.span.start.offset < stop.offset) ∧
    (∀ x ∈ behind, stop.offset ≤ x.span.start.offset ∧ x.span.start.line = stop.line) ∧
    ∀ x ∈ rest, stop.offset ≤ x.span.start.offset ∧ x.span.start.line ≠ stop.line

/-- Shares out each comment by itself, whatever stands in front of it. -/
def shareEach (stop : Position) : List (Located Comment) → Shares
  | [] => ⟨[], [], []⟩
  | c :: cs =>
    let r := shareEach stop cs
    if c.span.start.offset < stop.offset then { r with inside := c.value :: r.inside }
    else if c.span.start.line = stop.line then { r with behind := c.value :: r.behind }
    else { r with rest := c :: r.rest }

open Classical in
/-- Shares out a queue in three parts and refuses any other. -/
noncomputable def shareSplit (e : ParseError) (stop : Position) (queue : List (Located Comment)) :
    Except ParseError Shares :=
  if Splits stop queue then .ok (shareOut stop queue) else .error e

/-- Queues in three parts are shared out as ever; nothing is said of others. -/
def SharesSplits (share : Position → List (Located Comment) → Except ParseError Shares) : Prop :=
  ∀ stop queue, Splits stop queue → share stop queue = .ok (shareOut stop queue)

theorem shareEach_rest {stop : Position} {rest : List (Located Comment)}
    (h : ∀ x ∈ rest, stop.offset ≤ x.span.start.offset ∧ x.span.start.line ≠ stop.line) :
    shareEach stop rest = ⟨[], [], rest⟩ := by
  induction rest with
  | nil => rfl
  | cons x xs ih =>
    obtain ⟨hoffset, hline⟩ := h x (by simp)
    rw [shareEach, ih fun y hy => h y (by simp [hy]), if_neg (Nat.not_lt.mpr hoffset), if_neg hline]

theorem shareEach_behind {stop : Position} {behind rest : List (Located Comment)}
    (h : ∀ x ∈ behind, stop.offset ≤ x.span.start.offset ∧ x.span.start.line = stop.line) :
    shareEach stop (behind ++ rest) = { shareEach stop rest with
      behind := values behind ++ (shareEach stop rest).behind } := by
  induction behind with
  | nil => rfl
  | cons x xs ih =>
    obtain ⟨hoffset, hline⟩ := h x (by simp)
    rw [List.cons_append, shareEach, ih fun y hy => h y (by simp [hy]),
      if_neg (Nat.not_lt.mpr hoffset), if_pos hline]
    rfl

theorem shareEach_inside {stop : Position} {inside outside : List (Located Comment)}
    (h : ∀ x ∈ inside, x.span.start.offset < stop.offset) :
    shareEach stop (inside ++ outside) = { shareEach stop outside with
      inside := values inside ++ (shareEach stop outside).inside } := by
  induction inside with
  | nil => rfl
  | cons x xs ih =>
    rw [List.cons_append, shareEach, ih fun y hy => h y (by simp [hy]), if_pos (h x (by simp))]
    rfl

theorem Splits.shareEach_eq {stop : Position} {queue : List (Located Comment)} (h : Splits stop queue) :
    shareEach stop queue = shareOut stop queue := by
  obtain ⟨inside, behind, rest, rfl, hin, hbehind, hrest⟩ := h
  have hout : ∀ x ∈ behind ++ rest, stop.offset ≤ x.span.start.offset := by
    intro x hx
    rcases List.mem_append.mp hx with hx | hx
    · exact (hbehind x hx).1
    · exact (hrest x hx).1
  have hline : ∀ x ∈ behind, startsOnLine stop x = true := fun x hx => by
    simp [startsOnLine, (hbehind x hx).2]
  have hother : ∀ x ∈ rest.head?, startsOnLine stop x = false := fun x hx => by
    simp [startsOnLine, (hrest x (List.mem_of_mem_head? hx)).2]
  rw [shareOut_append hin hout, takeWhile_append_of_head hline hother,
    dropWhile_append_of_head hline hother, shareEach_inside hin, shareEach_behind hbehind,
    shareEach_rest hrest]
  simp

/-! ## Pieces in order -/

theorem InOrder.sublist {ps qs : List Piece} (h : InOrder qs) (hs : ps.Sublist qs) : InOrder ps :=
  ⟨h.orderly.sublist hs, fun p hp => h.lines p (hs.subset hp)⟩

namespace Cursor

variable {c c' : Cursor}

theorem Moves.inOrder (h : c.Moves c') (ho : InOrder c.ahead) : InOrder c'.ahead := by
  obtain ⟨us, hus⟩ := h.ahead_eq
  exact ho.sublist (hus ▸ List.sublist_append_right ..)

/-- What a form has held back stands inside it, and what stands behind its last token goes on with the
line where it ends. -/
theorem ReadsForm.splits {f : Form} (h : c.ReadsForm f c') (hq : c.queue = []) (ho : InOrder c.ahead) :
    Splits c'.prevStop c'.queue := by
  obtain ⟨passed, held, last, hacc⟩ := h.account ho.orderly
  have hlines := takeWhile_eq_filter (ho.lines last (by simp [hacc.ahead]))
  have hle := hacc.stop_le ho.orderly
  rw [hacc.stop, hacc.queue, hq, List.nil_append]
  refine ⟨held, last.after.takeWhile (startsOnLine last.span.stop),
    last.after.dropWhile (startsOnLine last.span.stop), ?_, hacc.held_lt ho.orderly, ?_, ?_⟩
  · rw [List.takeWhile_append_dropWhile]
  · rw [hlines.1]
    intro x hx
    obtain ⟨hmem, hline⟩ := List.mem_filter.mp hx
    exact ⟨hle x hmem, by simpa [startsOnLine] using hline⟩
  · rw [hlines.2]
    intro x hx
    obtain ⟨hmem, hline⟩ := List.mem_filter.mp hx
    exact ⟨hle x hmem, by simpa [startsOnLine] using hline⟩

/-!
## Readers with another sharing

These read as the readers without `By` do, and share out by `share` where a statement ends.
-/

section
variable (share : Position → List (Located Comment) → Except ParseError Shares)

mutual
def blockBy (c : Cursor) : Reading c.left Body :=
  ((c.withQueue []).expect .openBrace).andThen fun _ c₁ h₁ =>
  (stmtsBy (some .closeBrace) c₁).andThen fun ss c₂ h₂ =>
  ((c₂.withQueue []).expect .closeBrace).andThen fun _ c₃ h₃ =>
  have hlt : c₃.left < c.left := Nat.lt_trans (Nat.lt_of_lt_of_le h₃ (Nat.le_of_lt_succ h₂)) h₁
  .ok ⟨ss, c₂.comments⟩ (c₃.withQueue (c.queue ++ c₃.queue)) hlt
termination_by (c.left, 0)

/-- Forms without a block share nothing out. -/
def formBy (c : Cursor) : Reading c.left Form :=
  match h : c.token? with
  | some .openBrace => (blockBy c).andThen fun b c₁ h₁ => .ok (.block b) c₁ h₁
  | some .function =>
    have := left_advance_lt h
    c.advance.identifier.andThen fun name c₁ h₁ =>
    c₁.params.andThen fun names c₂ h₂ =>
    (blockBy c₂).andThen fun b c₃ h₃ =>
    .ok (.function name names b) c₃ (by omega)
  | _ => c.form
termination_by (c.left, 1)

/-- A statement that has ended is refused if its queue is. -/
def stmtBy (c : Cursor) : Reading c.left Stmt :=
  (formBy ((c.withQueue []).record (.readingStmt c.here c.found))).andThen fun f c₁ h₁ =>
  match share c₁.prevStop c₁.queue with
  | .ok shares =>
    .ok ⟨c.comments ++ shares.inside, f, shares.behind⟩ (c₁.withQueue shares.rest)
      (by simpa only [left_withQueue, left_record] using h₁)
  | .error e => .error e c₁
termination_by (c.left, 2)

def stmtsBy (close : Option Token) (c : Cursor) : Reading (c.left + 1) (List Stmt) :=
  match c.token?, close with
  | none, none => .ok [] c (Nat.lt_succ_self _)
  | none, some t => .error (c.unexpected (.token t)) c
  | some t, _ =>
    if close = some t then .ok [] c (Nat.lt_succ_self _)
    else
      (stmtBy c).andThen fun s c₁ h₁ =>
      (stmtsBy close c₁).andThen fun ss c₂ h₂ =>
      have hle : c₂.left ≤ c.left := Nat.le_trans (Nat.le_of_lt_succ h₂) (Nat.le_of_lt h₁)
      .ok (s :: ss) c₂ (Nat.lt_succ_of_le hle)
termination_by (c.left, 3)
end

def programBy (c : Cursor) : Outcome Body :=
  (c.stmtsBy share none).outcome.andThen fun ss c₁ => .ok ⟨ss, c₁.comments⟩ (c₁.withQueue [])

def functionBodyBy (c : Cursor) : Outcome Body :=
  c.literalHead.outcome.andThen fun _ c₁ =>
  ((c₁.withQueue []).blockBy share).outcome.andThen fun b c₂ =>
  match c₂.token? with
  | some _ => .error (c₂.unexpected .endOfInput) c₂
  | none => .ok ((b.lead c₁.comments).trail c₂.comments) (c₂.withQueue [])

def callBy (c : Cursor) : Call → Outcome Node
  | .stmt => (c.stmtBy share).outcome.map .stmt
  | .block => (c.blockBy share).outcome.map .block
  | .expr => c.expr.outcome.map .expr
  | .program => (c.programBy share).map .program
  | .functionBody => (c.functionBodyBy share).map .block

/-- The answers to calls made in order, with queues shared out by `share`, and where the last of them
ended. -/
def callsBy (c : Cursor) : List Call → List (Except ParseError Node) × Cursor
  | [] => ([], c)
  | k :: ks =>
    match c.callBy share k with
    | .ok node rest =>
      let (answers, last) := rest.callsBy ks
      (.ok node :: answers, last)
    | .error e rest =>
      let (answers, last) := rest.callsBy ks
      (.error e :: answers, last)

end

end Cursor

theorem Reading.andThen_congr {n m : Nat} {α β : Type} {r : Reading n α}
    {f g : α → (rest : Cursor) → rest.left < n → Reading m β}
    (h : ∀ a rest (hr : r.Gives a rest), f a rest hr.left_lt = g a rest hr.left_lt) :
    r.andThen f = r.andThen g := by
  cases r with
  | ok a rest lt => exact h a rest rfl
  | error e rest => rfl

namespace Cursor

section
variable {share : Position → List (Located Comment) → Except ParseError Shares}

mutual
theorem blockBy_eq {c : Cursor} (hs : SharesSplits share) (ho : InOrder c.ahead) :
    c.blockBy share = c.block := by
  rw [blockBy, block]
  apply Reading.andThen_congr
  intro _ c₁ hread
  obtain ⟨hopen, rfl⟩ := gives_expect.mp hread
  have hlt : (c.withQueue []).advance.left < c.left := left_advance_lt hopen
  rw [stmtsBy_eq hs ((moves_advance (c.withQueue [])).inOrder ho)]
termination_by (c.left, 0)

theorem formBy_eq {c : Cursor} (hs : SharesSplits share) (ho : InOrder c.ahead) :
    c.formBy share = c.form := by
  rw [formBy]
  split
  · rename_i hopen
    rw [blockBy_eq hs ho, form]
    split
    case h_1 => rfl
    all_goals
      exfalso
      simp_all
  · rename_i hfun
    have hlt := left_advance_lt hfun
    rw [form]
    split
    case h_3 =>
      apply Reading.andThen_congr
      intro name c₁ hread
      obtain ⟨hname, rfl⟩ := gives_identifier.mp hread
      have hlt₁ := left_advance_lt hname
      apply Reading.andThen_congr
      intro names c₂ hnames
      have hlt₂ := hnames.left_lt
      have hm := (moves_advance₂ c).trans (gives_params_iff.mp hnames).moves
      rw [blockBy_eq hs (hm.inOrder ho)]
    all_goals
      exfalso
      simp_all
  · rfl
termination_by (c.left, 1)

theorem stmtBy_eq {c : Cursor} (hs : SharesSplits share) (ho : InOrder c.ahead) :
    c.stmtBy share = c.stmt := by
  have hform := formBy_eq (c := (c.withQueue []).record (.readingStmt c.here c.found)) hs ho
  rw [stmtBy, stmt, hform]
  apply Reading.andThen_congr
  intro f c₁ hread
  -- the form was read from an empty queue, so what is queued now was passed inside it or behind it
  rw [hs _ _ ((reads_of_gives_form hread).splits rfl ho)]
termination_by (c.left, 2)

theorem stmtsBy_eq {close : Option Token} {c : Cursor} (hs : SharesSplits share)
    (ho : InOrder c.ahead) : c.stmtsBy share close = c.stmts close := by
  rw [stmtsBy.eq_def, stmts.eq_def]
  cases ht : c.token? with
  | none => cases close <;> rfl
  | some t =>
    simp only
    split
    · rfl
    · rw [stmtBy_eq hs ho]
      apply Reading.andThen_congr
      intro s c₁ hread
      have hlt := hread.left_lt
      rw [stmtsBy_eq hs ((reads_of_gives_stmt hread).moves.inOrder ho)]
termination_by (c.left, 3)
end

theorem functionBodyBy_eq {c : Cursor} (hs : SharesSplits share) (ho : InOrder c.ahead) :
    c.functionBodyBy share = c.functionBody.outcome := by
  unfold functionBodyBy functionBody
  cases hhead : c.literalHead with
  | error e c₁ => rfl
  | ok u c₁ lt =>
    have hread : c.literalHead.Gives u c₁ := congrArg Reading.outcome hhead
    have hm := (gives_literalHead_iff.mp hread).moves.withQueue []
    simp only [Reading.outcome, Outcome.andThen, Reading.andThen, blockBy_eq hs (hm.inOrder ho)]
    cases (c₁.withQueue []).block with
    | error e c₂ => rfl
    | ok b c₂ lt => cases hnext : c₂.token? <;> simp only [hnext]

theorem callBy_eq {c : Cursor} (hs : SharesSplits share) (ho : InOrder c.ahead) (k : Call) :
    c.callBy share k = c.call k := by
  cases k with
  | stmt => rw [callBy, call, stmtBy_eq hs ho]
  | block => rw [callBy, call, blockBy_eq hs ho]
  | expr => rfl
  | program =>
    rw [callBy, call, programBy, program, stmtsBy_eq hs ho]
    cases c.stmts none <;> rfl
  | functionBody => rw [callBy, call, functionBodyBy_eq hs ho]

theorem callsBy_eq {c : Cursor} (hs : SharesSplits share) (ho : InOrder c.ahead) (ks : List Call) :
    c.callsBy share ks = c.calls ks := by
  induction ks generalizing c with
  | nil => rfl
  | cons k ks ih =>
    cases hcall : c.call k with
    | ok node c' =>
      have hrest := ih ((call_eq_ok_iff.mp hcall).moves.inOrder ho)
      simp only [callsBy, calls, callBy_eq hs ho, hcall, hrest]
    | error e c' =>
      obtain ⟨ex, -, hrefuses⟩ := call_eq_error_iff.mp hcall
      have hrest := ih (hrefuses.moves.inOrder ho)
      simp only [callsBy, calls, callBy_eq hs ho, hcall, hrest]

end

/-! ## Cursors between calls -/

section
variable {c c' : Cursor} {text : String} {ls : List (Located Lexeme)}

/-- The last token passed stops in front of all that is ahead. -/
structure Behind (c : Cursor) : Prop where
  ahead : ∀ p ∈ c.ahead, c.prevStop.Reaches p.span.start
  text : c.prevStop.Reaches c.textStop

theorem Behind.here (h : c.Behind) : c.prevStop.Reaches c.here := by
  unfold Cursor.here
  cases hc : c.ahead with
  | nil => exact h.text
  | cons p ps => exact h.ahead p (by simp [hc])

theorem Moves.behind (h : c.Moves c') (hb : c.Behind)
    (hps : c.ahead.Pairwise fun p q => p.span.stop.Reaches q.span.start)
    (hstop : ∀ p ∈ c.ahead, p.span.stop.Reaches c.textStop) : c'.Behind := by
  induction h with
  | refl => exact hb
  | @advance d hd ih =>
    obtain ⟨us, hus⟩ := hd.ahead_eq
    rw [← hd.textStop_eq] at hstop
    unfold Cursor.advance
    cases hahead : d.ahead with
    | nil => exact ih
    | cons p ps =>
      -- the token passed now stops in front of all that were ahead together with it
      rw [hus, hahead] at hps hstop
      have hlater := (List.pairwise_append.mp hps).2.1
      exact ⟨(List.pairwise_cons.mp hlater).1, hstop p (by simp)⟩
  | withQueue q _ ih => exact ⟨ih.ahead, ih.text⟩
  | record r _ ih => exact ⟨ih.ahead, ih.text⟩

theorem behind_of_moves (hls : Lexed .origin text.toList ls) (h : (start text ls).Moves c) :
    c.Behind := by
  have hmem : ∀ p ∈ (start text ls).ahead, p.lexeme ∈ ls :=
    fun p hp => mem_of_mem_pieces hp _ (List.mem_cons_self ..)
  refine h.behind ⟨?_, ?_⟩ ?_ ?_
  · exact fun p hp => hls.reaches _ (hmem p hp)
  · exact Position.reaches_after ..
  · refine (Lexed.pairwise_pieces hls.ordered).2.imp fun hpq => ?_
    exact hpq _ (List.mem_cons_self ..) _ (List.mem_cons_self ..)
  · exact fun p hp => hls.stop_reaches _ (hmem p hp)

/-- How a cursor on a text stands between two calls. -/
structure Standing (text : String) (ls : List (Located Lexeme)) (c : Cursor) : Prop where
  queue_sublist : (c.queue.map Located.lexeme).Sublist ls
  nonempty : ∀ x ∈ c.queue, x.span.start.offset < x.span.stop.offset
  apart : c.queue.Pairwise fun x y => x.span.stop.Reaches y.span.start
  queue_stop : ∀ x ∈ c.queue, x.span.stop.Reaches c.here
  prevStop : c.prevStop.Reaches c.here
  tokens : c.tokens <:+ significant ls
  at_token : ∀ t ts, c.tokens = t :: ts → c.token? = some t.value ∧ c.here = t.span.start
  at_end : c.tokens = [] → c.token? = none ∧ c.here = Position.origin.after text.toList

theorem standing_of_thins (hls : Lexed .origin text.toList ls) (hmoves : (start text ls).Moves c)
    (hthins : (start text ls).Thins c) : Standing text ls c := by
  have hsub : c.remaining.Sublist ls := by
    rw [← lexemes_of_pieces ls]
    exact hthins
  have hqueue := (List.sublist_append_left ..).trans hsub
  obtain ⟨hapart, -, hbetween⟩ := List.pairwise_append.mp (hls.ordered.sublist hsub)
  constructor
  · exact hqueue
  · exact fun x hx => (hls.span x.lexeme (hqueue.subset (List.mem_map_of_mem hx))).2
  · exact List.pairwise_map.mp hapart
  · intro x hx
    have hmem := List.mem_map_of_mem (f := Located.lexeme) hx
    unfold here
    cases hc : c.ahead with
    | nil =>
      simp only [hmoves.textStop_eq]
      exact hls.stop_reaches _ (hqueue.subset hmem)
    | cons p ps => exact hbetween _ hmem p.lexeme (by simp [hc, Piece.lexemes])
  · exact (behind_of_moves hls hmoves).here
  · obtain ⟨us, hus⟩ := hmoves.ahead_eq
    refine ⟨us.map Piece.located, ?_⟩
    rw [← Fragment.tokens_start text, tokens, tokens, hus, List.map_append]
  · intro t ts hc
    refine ⟨?_, here_of_tokens hc⟩
    rw [token?_eq, hc]
    rfl
  · intro hc
    refine ⟨?_, (at_end_of_text hmoves hc).1⟩
    rw [token?_eq, hc]
    rfl

theorem calls_move_and_thin (ks : List Call) (ho : Orderly c.ahead) :
    c.Moves (c.calls ks).2 ∧ c.Thins (c.calls ks).2 := by
  induction ks generalizing c with
  | nil => exact ⟨.refl, List.Sublist.refl _⟩
  | cons k ks ih =>
    cases hcall : c.call k with
    | ok node c' =>
      have hanswers := call_eq_ok_iff.mp hcall
      obtain ⟨hm, ht⟩ := ih (hanswers.moves.orderly ho)
      simp only [calls, hcall]
      exact ⟨hanswers.moves.trans hm, (hanswers.thins ho).trans ht⟩
    | error e c' =>
      obtain ⟨ex, -, hrefuses⟩ := call_eq_error_iff.mp hcall
      obtain ⟨hm, ht⟩ := ih (hrefuses.moves.orderly ho)
      simp only [calls, hcall]
      exact ⟨hrefuses.moves.trans hm, (hrefuses.thins ho).trans ht⟩

/-- After any calls on a text, failed ones among them, the queue is in the order of the text and ends
in front of the next token, and so does the last token passed. On the way no queue is shared out that
is not in three parts, since refusing such queues changes no answer; and so sharing out each comment by
itself gives the same. -/
theorem calls_keep_queue_in_order (hls : tokenize text = .ok ls) (ks : List Call) :
    Standing text ls ((start text ls).calls ks).2 ∧
      (∀ e, (start text ls).callsBy (shareSplit e) ks = (start text ls).calls ks) ∧
      (start text ls).callsBy (fun stop queue => .ok (shareEach stop queue)) ks =
        (start text ls).calls ks := by
  have hlexed := tokenize_eq_ok_iff.mp hls
  have ho : InOrder (start text ls).ahead := hlexed.inOrder
  obtain ⟨hmoves, hthins⟩ := calls_move_and_thin ks ho.orderly
  refine ⟨standing_of_thins hlexed hmoves hthins, ?_, ?_⟩
  · intro e
    apply callsBy_eq _ ho ks
    exact fun stop queue hsplits => if_pos hsplits
  · apply callsBy_eq _ ho ks
    exact fun stop queue hsplits => congrArg Except.ok hsplits.shareEach_eq

/-- A statement with comments inside it, behind it and below it, and a call that fails in front of a
token it cannot take. -/
theorem calls_keep_queue_in_order_after_failure :
    ∃ ls last, tokenize "p /*a*/ = q /*b*/ // c\n/*d*/ /*e*/ var (" = .ok ls ∧
      (start "p /*a*/ = q /*b*/ // c\n/*d*/ /*e*/ var (" ls).calls [.stmt, .expr] =
        ([.ok (.stmt ⟨[⟨.block, "/*a*/"⟩], .expr (.assign "p" (.ident "q")),
            [⟨.block, "/*b*/"⟩, ⟨.line, "// c"⟩]⟩),
          .error ⟨"expression", "`var`", ⟨35, 2, 13⟩⟩], last) ∧
      last.comments = [⟨.block, "/*d*/"⟩, ⟨.block, "/*e*/"⟩] ∧
      Standing "p /*a*/ = q /*b*/ // c\n/*d*/ /*e*/ var (" ls last ∧
      (start "p /*a*/ = q /*b*/ // c\n/*d*/ /*e*/ var (" ls).callsBy
          (fun stop queue => .ok (shareEach stop queue)) [.stmt, .expr] =
        (start "p /*a*/ = q /*b*/ // c\n/*d*/ /*e*/ var (" ls).calls [.stmt, .expr] := by
  obtain ⟨ls, last, hls, hcalls, hcomments⟩ :
      ∃ ls last, tokenize "p /*a*/ = q /*b*/ // c\n/*d*/ /*e*/ var (" = .ok ls ∧
        (start "p /*a*/ = q /*b*/ // c\n/*d*/ /*e*/ var (" ls).calls [.stmt, .expr] =
          ([.ok (.stmt ⟨[⟨.block, "/*a*/"⟩], .expr (.assign "p" (.ident "q")),
              [⟨.block, "/*b*/"⟩, ⟨.line, "// c"⟩]⟩),
            .error ⟨"expression", "`var`", ⟨35, 2, 13⟩⟩], last) ∧
        last.comments = [⟨.block, "/*d*/"⟩, ⟨.block, "/*e*/"⟩] := ⟨_, _, by cbv, by cbv, by cbv⟩
  obtain ⟨hstanding, -, heach⟩ := calls_keep_queue_in_order hls [.stmt, .expr]
  rw [hcalls] at hstanding
  exact ⟨ls, last, hls, hcalls, hcomments, hstanding, heach⟩

end

end Cursor

end Reprint
