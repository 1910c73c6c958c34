import Reprint.Proofs.Carriage
import Reprint.Proofs.LineBreaks

/-!
# Texts one below the other

Two programs, the second on lines below the first, are read as one program: first the statements of
the one, then those of the other (`Fragment.parse_one_below_other`). Where the first text has ended,
the reader now meets a token on a later line. It begins a statement and is no semicolon, so all that
could end at the end of the text ends in front of it too (`ReadsStmts.extended`). The comments
between belong to what stands below, but for those on the last line of the first text.
-/

namespace Reprint

/-- The statements of both bodies; what dangles in the first goes in front of what the second
holds. -/
def Body.followedBy (b below : Body) : Body :=
  ⟨b.stmts ++ (below.lead b.dangling).stmts, (below.lead b.dangling).dangling⟩

/-! ## Pieces with more behind them -/

/-- Puts comments and pieces behind pieces. The comments go to the last piece, and are handed back
where there is none. -/
def joinPieces : List Piece → List (Located Comment) × List Piece →
    List (Located Comment) × List Piece
  | [], more => more
  | p :: ps, more =>
    let (due, qs) := joinPieces ps more
    ([], { p with after := p.after ++ due } :: qs)

theorem pieces_append (la lb : List (Located Lexeme)) : pieces (la ++ lb) =
    ((pieces la).1 ++ (joinPieces (pieces la).2 (pieces lb)).1,
      (joinPieces (pieces la).2 (pieces lb)).2) := by
  induction la with
  | nil => rfl
  | cons l la ih =>
    obtain ⟨x, span⟩ := l
    cases x with
    | comment k => simp [pieces, ih]
    | token t => simp [pieces, ih, joinPieces]

theorem joinPieces_subset (ps : List Piece) (more : List (Located Comment) × List Piece) :
    (joinPieces ps more).1 ⊆ more.1 := by
  cases ps with
  | nil => simp [joinPieces]
  | cons p ps => simp [joinPieces]

/-- All of `more` is on lines below the position. -/
structure Below (more : List (Located Comment) × List Piece) (p : Position) : Prop where
  comments : ∀ x ∈ more.1, p.offset ≤ x.span.start.offset ∧ p.line < x.span.start.line
  token : ∀ q ∈ more.2.head?, p.line < q.span.start.line

/-- The first token, if there is one, neither goes on with an expression or a list of declarators nor
ends a statement. -/
def StartsAnew (ps : List Piece) : Prop :=
  ∀ p ∈ ps.head?, p.token ≠ .equals ∧ p.token ≠ .comma ∧ p.token ≠ .semicolon

theorem shareOut_below {stop : Position} {below : List (Located Comment)}
    (h : ∀ x ∈ below, stop.offset ≤ x.span.start.offset ∧ stop.line < x.span.start.line)
    (xs : List (Located Comment)) : shareOut stop (xs ++ below) =
      { shareOut stop xs with rest := (shareOut stop xs).rest ++ below } := by
  induction xs with
  | nil =>
    cases below with
    | nil => rfl
    | cons x below =>
      obtain ⟨hoffset, hline⟩ := h x (by simp)
      simp [shareOut, Nat.not_lt.mpr hoffset, Nat.ne_of_gt hline]
  | cons x xs ih =>
    rw [List.cons_append, shareOut, shareOut, ih]
    by_cases hin : x.span.start.offset < stop.offset
    · simp [hin]
    · by_cases hline : x.span.start.line = stop.line
      · simp [hin, hline]
      · simp [hin, hline]

/-! ## Cursors with more ahead -/

namespace Cursor

/-- `d` is `c` with `more` behind what is ahead. -/
structure Extends (more : List (Located Comment) × List Piece) (c d : Cursor) : Prop where
  ahead : d.ahead = (joinPieces c.ahead more).2
  queue : d.queue = c.queue ++ (joinPieces c.ahead more).1
  prevStop : d.prevStop = c.prevStop
  below : Below more c.prevStop ∧ ∀ p ∈ c.ahead, Below more p.span.stop
  anew : StartsAnew more.2

variable {more : List (Located Comment) × List Piece} {c c' d : Cursor} {t : Token}

namespace Extends

theorem ahead_cons (h : Extends more c d) (ht : c.token? = some t) :
    ∃ p ps, c.ahead = p :: ps ∧ p.token = t ∧ d.queue = c.queue ∧
      d.ahead = { p with after := p.after ++ (joinPieces ps more).1 } :: (joinPieces ps more).2 := by
  obtain ⟨p, hp, hpass⟩ := passes_advance ht
  have hahead : c.ahead = p :: c.advance.ahead := hpass.ahead
  have hd := h.ahead
  have hq := h.queue
  rw [hahead] at hd hq
  refine ⟨p, _, hahead, hp, ?_, hd⟩
  rw [hq, joinPieces, List.append_nil]

theorem token?_eq (h : Extends more c d) (ht : c.token? = some t) : d.token? = some t := by
  obtain ⟨p, ps, -, hp, -, hd⟩ := h.ahead_cons ht
  unfold token?
  rw [hd, ← hp]
  rfl

theorem queue_eq (h : Extends more c d) (ht : c.token? = some t) : d.queue = c.queue := by
  obtain ⟨p, ps, -, -, hq, -⟩ := h.ahead_cons ht
  exact hq

theorem here_eq (h : Extends more c d) (ht : c.token? = some t) : d.here = c.here := by
  obtain ⟨p, ps, hc, -, -, hd⟩ := h.ahead_cons ht
  unfold here
  rw [hc, hd]

theorem ahead_nil (h : Extends more c d) (ht : c.token? = none) :
    d.ahead = more.2 ∧ d.queue = c.queue ++ more.1 := by
  have hd := h.ahead
  have hq := h.queue
  rw [ahead_eq_nil ht] at hd hq
  exact ⟨hd, hq⟩

/-- A token that does not stand at the front does not stand there either when the text goes on. -/
theorem token?_ne (h : Extends more c d) (hne : c.token? ≠ some t)
    (hmore : ∀ p ∈ more.2.head?, p.token ≠ t) : d.token? ≠ some t := by
  cases ht : c.token? with
  | some u =>
    rw [h.token?_eq ht, ← ht]
    exact hne
  | none =>
    obtain ⟨hd, -⟩ := h.ahead_nil ht
    unfold token?
    rw [hd]
    intro hsome
    obtain ⟨p, hp, hpt⟩ := Option.map_eq_some_iff.mp hsome
    exact hmore p hp hpt

theorem token?_ne_equals (h : Extends more c d) (hne : c.token? ≠ some .equals) :
    d.token? ≠ some .equals :=
  h.token?_ne hne fun p hp => (h.anew p hp).1

theorem token?_ne_comma (h : Extends more c d) (hne : c.token? ≠ some .comma) :
    d.token? ≠ some .comma :=
  h.token?_ne hne fun p hp => (h.anew p hp).2.1

theorem token?_ne_semicolon (h : Extends more c d) (hne : c.token? ≠ some .semicolon) :
    d.token? ≠ some .semicolon :=
  h.token?_ne hne fun p hp => (h.anew p hp).2.2

/-- In front of a token, what is queued does not reach behind the seam. -/
theorem withQueue (h : Extends more c d) (ht : c.token? = some t) (q : List (Located Comment)) :
    Extends more (c.withQueue q) (d.withQueue q) := by
  obtain ⟨p, ps, hc, -, -, -⟩ := h.ahead_cons ht
  refine ⟨h.ahead, ?_, h.prevStop, h.below, h.anew⟩
  rw [queue_withQueue, queue_withQueue, ahead_withQueue, hc, joinPieces, List.append_nil]

theorem record (h : Extends more c d) (r r' : Record) : Extends more (c.record r) (d.record r') :=
  ⟨h.ahead, h.queue, h.prevStop, h.below, h.anew⟩

theorem advance (h : Extends more c d) (ht : c.token? = some t) :
    Extends more c.advance d.advance := by
  obtain ⟨p, ps, hc, -, hq, hd⟩ := h.ahead_cons ht
  have hbelow := h.below.2
  rw [hc, List.forall_mem_cons] at hbelow
  unfold Cursor.advance
  rw [hc, hd]
  refine ⟨rfl, ?_, rfl, hbelow, h.anew⟩
  simp [hq]

theorem advance₂ {u : Token} (h : Extends more c d) (ht : c.token? = some t)
    (hu : c.advance.token? = some u) :
    d.token? = some t ∧ d.advance.token? = some u ∧ Extends more c.advance.advance d.advance.advance :=
  ⟨h.token?_eq ht, (h.advance ht).token?_eq hu, (h.advance ht).advance hu⟩

end Extends

/-! ## Readings with more ahead -/

theorem ReadsExpr.extended {e : Expr} (h : c.ReadsExpr e c') (hs : Extends more c d) :
    ∃ d', d.ReadsExpr e d' ∧ Extends more c' d' := by
  induction h generalizing d with
  | operand ht hop hne =>
    have hs₁ := hs.advance ht
    exact ⟨_, .operand (hs.token?_eq ht) hop (hs₁.token?_ne_equals hne), hs₁⟩
  | paren hopen _ hclose hne ih =>
    obtain ⟨d₁, hread, hs₁⟩ := ih (hs.advance hopen)
    have hs₂ := hs₁.advance hclose
    exact ⟨_, .paren (hs.token?_eq hopen) hread (hs₁.token?_eq hclose) (hs₂.token?_ne_equals hne), hs₂⟩
  | assign hname heq _ ih =>
    obtain ⟨hname', heq', hs₂⟩ := hs.advance₂ hname heq
    obtain ⟨d', hread, hs'⟩ := ih hs₂
    exact ⟨d', .assign hname' heq' hread, hs'⟩

theorem ReadsNames.extended {names : List String} (h : c.ReadsNames names c')
    (hs : Extends more c d) : ∃ d', d.ReadsNames names d' ∧ Extends more c' d' := by
  induction h generalizing d with
  | last hname hclose =>
    obtain ⟨hname', hclose', hs₂⟩ := hs.advance₂ hname hclose
    exact ⟨_, .last hname' hclose', hs₂⟩
  | more hname hcomma _ ih =>
    obtain ⟨hname', hcomma', hs₂⟩ := hs.advance₂ hname hcomma
    obtain ⟨d', hread, hs'⟩ := ih hs₂
    exact ⟨d', .more hname' hcomma' hread, hs'⟩

theorem ReadsParams.extended {names : List String} (h : c.ReadsParams names c')
    (hs : Extends more c d) : ∃ d', d.ReadsParams names d' ∧ Extends more c' d' := by
  cases h with
  | none hopen hclose =>
    obtain ⟨hopen', hclose', hs₂⟩ := hs.advance₂ hopen hclose
    exact ⟨_, .none hopen' hclose', hs₂⟩
  | some hopen hnames =>
    obtain ⟨d', hnames', hs'⟩ := hnames.extended (hs.advance hopen)
    exact ⟨d', .some (hs.token?_eq hopen) hnames', hs'⟩

theorem ReadsInit.extended {init : Option Expr} (h : c.ReadsInit init c') (hs : Extends more c d) :
    ∃ d', d.ReadsInit init d' ∧ Extends more c' d' := by
  cases h with
  | none hne => exact ⟨d, .none (hs.token?_ne_equals hne), hs⟩
  | some heq he =>
    obtain ⟨d', he', hs'⟩ := he.extended (hs.advance heq)
    exact ⟨d', .some (hs.token?_eq heq) he', hs'⟩

theorem ReadsDeclarators.extended {ds : List Declarator} (h : c.ReadsDeclarators ds c')
    (hs : Extends more c d) : ∃ d', d.ReadsDeclarators ds d' ∧ Extends more c' d' := by
  induction h generalizing d with
  | last hname hinit hne =>
    obtain ⟨d', hinit', hs'⟩ := hinit.extended (hs.advance hname)
    exact ⟨d', .last (hs.token?_eq hname) hinit' (hs'.token?_ne_comma hne), hs'⟩
  | more hname hinit hcomma _ ih =>
    obtain ⟨d₁, hinit', hs₁⟩ := hinit.extended (hs.advance hname)
    obtain ⟨d', hread, hs'⟩ := ih (hs₁.advance hcomma)
    exact ⟨d', .more (hs.token?_eq hname) hinit' (hs₁.token?_eq hcomma) hread, hs'⟩

/-- What ends with the text ends as well where a line below begins anew. -/
theorem ReadsEnd.extended (h : c.ReadsEnd c') (hs : Extends more c d) :
    ∃ d', d.ReadsEnd d' ∧ Extends more c' d' := by
  have hseam (ht : c.token? = none) : d.ReadsEnd d := by
    obtain ⟨hd, -⟩ := hs.ahead_nil ht
    have hne := hs.token?_ne_semicolon (by simp [ht])
    cases hmore : more.2 with
    | nil =>
      rw [hmore] at hd
      exact .endOfInput (by simp [token?, hd])
    | cons q qs =>
      refine .laterLine hne ?_
      rw [hmore] at hd
      rw [hs.prevStop]
      simpa [here, hd] using hs.below.1.token q (by simp [hmore])
  cases h with
  | semicolon ht => exact ⟨_, .semicolon (hs.token?_eq ht), hs.advance ht⟩
  | closeBrace ht => exact ⟨d, .closeBrace (hs.token?_eq ht), hs⟩
  | endOfInput ht => exact ⟨d, hseam ht, hs⟩
  | laterLine hne hline =>
    cases ht : c.token? with
    | none => exact ⟨d, hseam ht, hs⟩
    | some t =>
      refine ⟨d, .laterLine (hs.token?_ne_semicolon hne) ?_, hs⟩
      rwa [hs.prevStop, hs.here_eq ht]

theorem ReadsForm.exists_token? {f : Form} (h : c.ReadsForm f c') :
    ∃ t, c.token? = some t ∧ t ≠ .equals ∧ t ≠ .comma := by
  cases h with
  | block hb =>
    cases hb with
    | braces ht _ _ _ => exact ⟨_, ht, by simp⟩
  | empty ht => exact ⟨_, ht, by simp⟩
  | function ht _ _ _ => exact ⟨_, ht, by simp⟩
  | var ht _ _ => exact ⟨_, ht, by simp⟩
  | expr he _ =>
    cases he with
    | @operand _ t _ ht hop _ =>
      refine ⟨t, ht, ?_, ?_⟩ <;>
        · rintro rfl
          cases hop
    | paren ht _ _ _ => exact ⟨_, ht, by simp⟩
    | assign ht _ _ => exact ⟨_, ht, by simp⟩

mutual
theorem ReadsBlock.extended {c c' d : Cursor} {b : Body} (h : c.ReadsBlock b c')
    (hs : Extends more c d) : ∃ d', d.ReadsBlock b d' ∧ Extends more c' d' := by
  match h with
  | @ReadsBlock.braces _ ss c₁ c₂ hopen hss hclose hc =>
    subst hc
    obtain ⟨d₁, hs₁, hread⟩ := hss.extended ((hs.withQueue hopen []).advance hopen)
    have hclose' := hs₁.token?_eq hclose
    have hs₂ := (hs₁.withQueue hclose []).advance hclose
    have hblock := ReadsBlock.braces (hs.token?_eq hopen) (hread [] d₁ (.nil hclose')) hclose' rfl
    rw [List.append_nil, comments_eq, hs₁.queue_eq hclose] at hblock
    refine ⟨_, hblock, hs₂.ahead, ?_, hs₂.prevStop, hs₂.below, hs₂.anew⟩
    -- the queue in front of the brace comes back, and behind it what may stand below the seam
    rw [queue_withQueue, queue_withQueue, hs.queue_eq hopen, hs₂.queue, List.append_assoc]
    rfl

theorem ReadsForm.extended {c c' d : Cursor} {f : Form} (h : c.ReadsForm f c')
    (hs : Extends more c d) : ∃ d', d.ReadsForm f d' ∧ Extends more c' d' := by
  match h with
  | .block hb =>
    obtain ⟨d', hb', hs'⟩ := hb.extended hs
    exact ⟨d', .block hb', hs'⟩
  | .empty ht => exact ⟨_, .empty (hs.token?_eq ht), hs.advance ht⟩
  | .function hfun hname hnames hb =>
    obtain ⟨hfun', hname', hs₂⟩ := hs.advance₂ hfun hname
    obtain ⟨d₃, hnames', hs₃⟩ := hnames.extended hs₂
    obtain ⟨d', hb', hs'⟩ := hb.extended hs₃
    exact ⟨d', .function hfun' hname' hnames' hb', hs'⟩
  | .var hvar hds hend =>
    obtain ⟨d₂, hds', hs₂⟩ := hds.extended (hs.advance hvar)
    obtain ⟨d', hend', hs'⟩ := hend.extended hs₂
    exact ⟨d', .var (hs.token?_eq hvar) hds' hend', hs'⟩
  | .expr he hend =>
    obtain ⟨d₁, he', hs₁⟩ := he.extended hs
    obtain ⟨d', hend', hs'⟩ := hend.extended hs₁
    exact ⟨d', .expr he' hend', hs'⟩

theorem ReadsStmt.extended {c c' d : Cursor} {s : Stmt} (h : c.ReadsStmt s c')
    (hs : Extends more c d) : ∃ d', d.ReadsStmt s d' ∧ Extends more c' d' := by
  match h with
  | @ReadsStmt.owning _ f c₁ _ hf hshares =>
    subst hshares
    obtain ⟨t, ht, -⟩ := hf.exists_token?
    have hs₀ := (hs.withQueue ht []).record (.readingStmt c.here c.found) (.readingStmt d.here d.found)
    obtain ⟨d₁, hf', hs₁⟩ := hf.extended hs₀
    -- comments below the statement are neither inside it nor on its last line
    have hbelow := fun x hx => hs₁.below.1.comments x (joinPieces_subset c₁.ahead more hx)
    have hshares := shareOut_below hbelow c₁.queue
    have hread := ReadsStmt.owning hf' (by rw [hs₁.prevStop, hs₁.queue, hshares])
    rw [comments_eq, hs.queue_eq ht] at hread
    exact ⟨_, hread, hs₁.ahead, rfl, hs₁.prevStop, hs₁.below, hs₁.anew⟩

/-- The same statements are read, and whatever is read from there follows them. -/
theorem ReadsStmts.extended {close : Option Token} {c c' d : Cursor} {ss : List Stmt}
    (h : c.ReadsStmts close ss c') (hs : Extends more c d) : ∃ d', Extends more c' d' ∧
      ∀ ss' d'', d'.ReadsStmts close ss' d'' → d.ReadsStmts close (ss ++ ss') d'' := by
  match h with
  | .nil ht => exact ⟨d, hs, fun _ _ hss' => hss'⟩
  | .cons ht hne hstmt hss =>
    obtain ⟨d₁, hstmt', hs₁⟩ := hstmt.extended hs
    obtain ⟨d', hs', hread⟩ := hss.extended hs₁
    exact ⟨d', hs', fun ss' d'' hss' => .cons (hs.token?_eq ht) hne hstmt' (hread ss' d'' hss')⟩
end

theorem ReadsStmts.startsAnew {ss : List Stmt} (h : c.ReadsStmts none ss c')
    (hsemi : c.token? ≠ some .semicolon) : StartsAnew c.ahead := by
  intro p hp
  have ht : c.token? = some p.token := by
    unfold token?
    rw [Option.mem_def.mp hp]
    rfl
  cases h with
  | nil hnone => simp [ht] at hnone
  | cons _ _ hstmt _ =>
    cases hstmt with
    | owning hf _ =>
      obtain ⟨t, ht', heq, hcomma⟩ := hf.exists_token?
      have hpt : p.token = t := Option.some.inj (ht.symm.trans ht')
      refine ⟨hpt ▸ heq, hpt ▸ hcomma, ?_⟩
      intro hp
      exact hsemi (hp ▸ ht)

end Cursor

/-! ## Lexemes below a text -/

section
variable {p q : Position} {cs ds : List Char} {ls ms : List (Located Lexeme)}

theorem Lexed.stop_reaches (h : Lexed p cs ls) : ∀ l ∈ ls, l.span.stop.Reaches (p.after cs) := by
  induction h with
  | nil => simp
  | space _ _ ih => exact ih
  | @lexeme p c cs x rest ls _ hscan _ ih =>
    rw [← spelling_of_scan hscan, Position.after_append]
    exact List.forall_mem_cons.mpr ⟨Position.reaches_after .., ih⟩

/-- Where a text stands does not matter to its lexemes, nor to their lines relative to each other. -/
theorem Lexed.moved (h : Lexed p cs ls) {prev prev' : Option Position}
    (hlines : SameLines prev prev' p q) : ∃ ls', Lexed q cs ls' ∧
      ls.map Located.value = ls'.map Located.value ∧ breaksFrom prev ls = breaksFrom prev' ls' := by
  induction h generalizing q prev prev' with
  | nil => exact ⟨[], .nil, rfl, rfl⟩
  | @space p c cs ls hc _ ih =>
    obtain ⟨ls', hlexed, hrest⟩ := ih (hlines.after (w := [c]) .rfl)
    exact ⟨ls', .space hc hlexed, hrest⟩
  | lexeme hc hscan _ ih =>
    obtain ⟨ls', hlexed, hvalues, hbreaks⟩ := ih (hlines.lexeme _)
    refine ⟨_, .lexeme hc hscan hlexed, congrArg (_ :: ·) hvalues, ?_⟩
    rw [breaksFrom, breaksFrom, hlines.bit_eq, hbreaks]

/-- A line feed ends whatever lexeme stands in front of it. -/
theorem Lexed.onNextLine (h : Lexed p cs ls) (h' : Lexed ((p.after cs).next '\n') ds ms) :
    Lexed p (cs ++ '\n' :: ds) (ls ++ ms) := by
  rw [← ls.append_nil] at h
  obtain ⟨before, _, rfl, hcut, -, -, hend⟩ := h.cut
  obtain rfl := hend rfl
  rw [List.append_nil] at h' ⊢
  have hfrays : Frays [] ('\n' :: ds) := .cut (by simp [isBlank, blankRanges])
  have hcut' := hcut.frays hfrays (by simp [Comment.StopsBefore, EndsLine, isLineEnd])
  exact hcut'.lexed_iff.mpr ⟨ms, rfl, (lexed_space (by decide)).mpr h'⟩

theorem Lexed.pieces_below (h : Lexed ((p.after cs).next '\n') ds ms)
    (hq : q.Reaches (p.after cs)) : Below (pieces ms) q := by
  have hlexeme : ∀ l ∈ ms, q.offset ≤ l.span.start.offset ∧ q.line < l.span.start.line := by
    intro l hl
    have hstart := h.reaches l hl
    have hoffset := (hq.trans ((Position.reaches_next ..).trans hstart)).offset_le
    have hline := hstart.line_le
    have hline' := hq.line_le
    rw [Position.line_next, if_pos rfl] at hline
    exact ⟨hoffset, by omega⟩
  constructor
  · intro x hx
    refine hlexeme x.lexeme ?_
    rw [← lexemes_of_pieces ms]
    exact List.mem_append_left _ (List.mem_map_of_mem hx)
  · intro r hr
    exact (hlexeme r.lexeme (mem_of_mem_pieces (List.mem_of_mem_head? hr) _ (by simp [Piece.lexemes]))).2

end

theorem StartsAnew.of_alike {ps qs : List Piece} (h : Alike [] [] ps qs) (hps : StartsAnew ps) :
    StartsAnew qs := by
  cases h with
  | horizon => exact hps
  | @cons p q ps qs hpq _ _ =>
    rintro _ ⟨rfl⟩
    rw [← hpq.token]
    exact hps p rfl

/-- Behind the seam the second text is read as it is read by itself, except that what the first one
has left in the queue comes in front. -/
theorem Cursor.ReadsStmts.resumed {more : List (Located Comment) × List Piece} {c c' d e : Cursor}
    {ss : List Stmt} (h : e.ReadsStmts none ss c') (halike : Alike [] [] e.ahead more.2)
    (hqueue : values e.queue = values more.1) (ho : Orderly e.ahead ∧ Orderly more.2)
    (hnone : c.token? = none) (hs : Extends more c d) :
    ∃ ss' d', d.ReadsStmts none ss' d' ∧ ⟨ss', d'.comments⟩ = Body.lead c.comments ⟨ss, c'.comments⟩ := by
  obtain ⟨hahead, hd⟩ := hs.ahead_nil hnone
  have hsimilar : Similar [] [] e (d.withQueue more.1) := by
    refine ⟨rfl, ?_, hqueue, ho.1, ?_⟩
    · rwa [ahead_withQueue, hahead]
    · rw [ahead_withQueue, hahead]
      exact ho.2
  obtain ⟨d₁, hread, hs₁⟩ := h.follows hsimilar (Nat.zero_le _)
  have hcarries : Carries id c.queue (d.withQueue more.1) d := carries_id_iff.mpr ⟨rfl, hd, rfl⟩
  obtain ⟨ss', d', _, hread', -, hbody⟩ := hread.carried_lead hcarries
  refine ⟨ss', d', hread', ?_⟩
  rw [hbody, Body.relabel_id]
  simp only [comments_eq, hs₁.comments]

namespace Fragment

open Cursor

/-- A program and another one below it are one program, unless the second begins with a semicolon. -/
theorem parse_one_below_other {text₁ text₂ : String} {b₁ b₂ : Body} {ls₂ : List (Located Lexeme)}
    (h₁ : program.parse text₁ = .ok b₁) (h₂ : program.parse text₂ = .ok b₂)
    (hls₂ : tokenize text₂ = .ok ls₂)
    (hsemi : ∀ t ∈ (significant ls₂).head?, t.value ≠ .semicolon) :
    program.parse (text₁ ++ "\n" ++ text₂) = .ok (b₁.followedBy b₂) := by
  obtain ⟨ls₁, hls₁, _, hread₁⟩ := parse_eq_ok_iff.mp h₁
  obtain ⟨ls, hls, _, hread₂⟩ := parse_eq_ok_iff.mp h₂
  obtain rfl : ls = ls₂ := Except.ok.inj (hls.symm.trans hls₂)
  obtain ⟨ss₁, c₁, hss₁, rfl, -⟩ := read_program_iff.mp hread₁
  obtain ⟨ss₂, c₂, hss₂, rfl, -⟩ := read_program_iff.mp hread₂
  have hlexed₁ := tokenize_eq_ok_iff.mp hls₁
  have hlexed₂ := tokenize_eq_ok_iff.mp hls₂
  -- the lexemes of the second text, each moved to its place below the first
  obtain ⟨ms, hms, hvalues, hbreaks⟩ :=
    hlexed₂.moved (q := (Position.origin.after text₁.toList).next '\n') (.inl ⟨rfl, rfl⟩)
  obtain ⟨hbefore, halike⟩ := alike_of_breaks hvalues hbreaks hlexed₂.linesOrdered hms.linesOrdered
  have htokenize : tokenize (text₁ ++ "\n" ++ text₂) = .ok (ls₁ ++ ms) := by
    rw [tokenize_eq_ok_iff]
    simpa using hlexed₁.onNextLine hms
  have hfirst : (start text₂ ls).token? ≠ some .semicolon := by
    rw [Cursor.token?_eq, tokens_start]
    intro h
    obtain ⟨t, ht, hvalue⟩ := Option.map_eq_some_iff.mp h
    exact hsemi t ht hvalue
  have hstart : Extends (pieces ms) (start text₁ ls₁) (start (text₁ ++ "\n" ++ text₂) (ls₁ ++ ms)) := by
    have hpieces := pieces_append ls₁ ms
    refine ⟨(Prod.mk.inj hpieces).2, (Prod.mk.inj hpieces).1, rfl, ⟨?_, ?_⟩,
      .of_alike halike (hss₂.startsAnew hfirst)⟩
    · exact hms.pieces_below (Position.reaches_after ..)
    · intro p hp
      have hmem := mem_of_mem_pieces hp p.lexeme (List.mem_cons_self ..)
      exact hms.pieces_below (hlexed₁.stop_reaches p.lexeme hmem)
  obtain ⟨d₁, hs₁, hread⟩ := hss₁.extended hstart
  obtain ⟨ss, d₂, hss, hbody⟩ :=
    hss₂.resumed halike hbefore ⟨hlexed₂.orderly, hms.orderly⟩ hss₁.token?_eq hs₁
  refine parse_eq_ok_iff.mpr ⟨_, htokenize, _, read_program_iff.mpr ⟨_, d₂, hread ss d₂ hss, ?_, rfl⟩⟩
  rw [Body.followedBy, ← hbody]

/-- The line comment ends with the first text, and leads the first statement of the second. -/
theorem parse_one_below_other_commented :
    ∃ ls₂, tokenize "(x) /*c*/\n/*d*/" = .ok ls₂ ∧
      (∀ t ∈ (significant ls₂).head?, t.value ≠ .semicolon) ∧
      program.parse "q = p /*a*/\n// b" =
        .ok ⟨[⟨[], .expr (.assign "q" (.ident "p")), [⟨.block, "/*a*/"⟩]⟩], [⟨.line, "// b"⟩]⟩ ∧
      program.parse "(x) /*c*/\n/*d*/" =
        .ok ⟨[⟨[], .expr (.paren (.ident "x")), [⟨.block, "/*c*/"⟩]⟩], [⟨.block, "/*d*/"⟩]⟩ ∧
      program.parse ("q = p /*a*/\n// b" ++ "\n" ++ "(x) /*c*/\n/*d*/") =
        .ok ⟨[⟨[], .expr (.assign "q" (.ident "p")), [⟨.block, "/*a*/"⟩]⟩,
          ⟨[⟨.line, "// b"⟩], .expr (.paren (.ident "x")), [⟨.block, "/*c*/"⟩]⟩],
          [⟨.block, "/*d*/"⟩]⟩ := by
  have h₁ : program.parse "q = p /*a*/\n// b" =
      .ok ⟨[⟨[], .expr (.assign "q" (.ident "p")), [⟨.block, "/*a*/"⟩]⟩], [⟨.line, "// b"⟩]⟩ := by cbv
  have h₂ : program.parse "(x) /*c*/\n/*d*/" =
      .ok ⟨[⟨[], .expr (.paren (.ident "x")), [⟨.block, "/*c*/"⟩]⟩], [⟨.block, "/*d*/"⟩]⟩ := by cbv
  obtain ⟨ls₂, hls₂, hfirst⟩ : ∃ ls₂, tokenize "(x) /*c*/\n/*d*/" = .ok ls₂ ∧
      (significant ls₂).head? = some ⟨.openParen, ⟨0, 1, 1⟩, ⟨1, 1, 2⟩⟩ := ⟨_, by cbv, by cbv⟩
  have hsemi : ∀ t ∈ (significant ls₂).head?, t.value ≠ .semicolon := by simp [hfirst]
  exact ⟨ls₂, hls₂, hsemi, h₁, h₂, parse_one_below_other h₁ h₂ hls₂ hsemi⟩

/-- A semicolon that comes first ends the statement above it. -/
example : program.parse ("p" ++ "\n" ++ ";") = .ok ⟨[⟨[], .expr (.ident "p"), []⟩], []⟩ := by cbv

end Fragment

end Reprint
