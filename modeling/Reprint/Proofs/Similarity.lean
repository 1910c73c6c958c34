import Reprint.Proofs.Failure

/-!
# Similar cursors are read alike

What the readers ask of the places of tokens and comments is little: whether the next token is on a
later line than the last one, and which comments start on the line where a token ends. Cursors that
agree in these answers and in the tokens and comments ahead are `Similar`, up to a horizon behind
which nothing is known of them. Reading in front of the horizon gives the same from both, success
(`ReadsStmts.follows`) or failure (`FailsStmts.follows`), at similar cursors again.
-/

namespace Reprint

/-! ## Pieces that differ in their places -/

structure Piece.Alike (p q : Piece) : Prop where
  token : p.token = q.token
  after : List.Forall₂ (fun x y => x.value = y.value ∧
    startsOnLine p.span.stop x = startsOnLine q.span.stop y) p.after q.after

/-- The next token is on a later line than `p` and `q` in both or in neither. -/
def SameBreak (p q : Position) (ps qs : List Piece) : Prop :=
  ∀ p' ∈ ps.head?, ∀ q' ∈ qs.head?, (p.line < p'.span.start.line ↔ q.line < q'.span.start.line)

/-- Pieces that are alike in front of the horizon, where `C` and `D` begin. -/
inductive Alike (C D : List Piece) : List Piece → List Piece → Prop
  | horizon : Alike C D C D
  | cons {p q ps qs} : p.Alike q → SameBreak p.span.stop q.span.stop ps qs → Alike C D ps qs →
      Alike C D (p :: ps) (q :: qs)

section
variable {C D ps qs us vs : List Piece} {p q : Piece}

theorem Alike.length_eq (h : Alike C D ps qs) : ps.length + D.length = qs.length + C.length := by
  induction h with
  | horizon => exact Nat.add_comm ..
  | cons _ _ _ ih =>
    simp only [List.length_cons]
    omega

theorem Alike.of_cons (h : Alike C D (p :: ps) (q :: qs)) (hlen : C.length ≤ ps.length) :
    p.Alike q ∧ SameBreak p.span.stop q.span.stop ps qs ∧ Alike C D ps qs := by
  cases h with
  | horizon => exact absurd hlen (Nat.not_succ_le_self _)
  | cons hpq hbreak h => exact ⟨hpq, hbreak, h⟩

theorem Alike.split (h : Alike C D (us ++ p :: ps) (vs ++ q :: qs)) (hlen : C.length ≤ ps.length)
    (huv : us.length = vs.length) : List.Forall₂ Piece.Alike us vs ∧ p.Alike q := by
  induction us generalizing vs with
  | nil =>
    obtain rfl : vs = [] := List.eq_nil_of_length_eq_zero huv.symm
    exact ⟨.nil, (h.of_cons hlen).1⟩
  | cons u us ih =>
    cases vs with
    | nil => cases huv
    | cons v vs =>
      have hlen' : C.length ≤ (us ++ p :: ps).length := by
        rw [List.length_append, List.length_cons]
        omega
      obtain ⟨huv', -, h⟩ := h.of_cons hlen'
      obtain ⟨hall, hpq⟩ := ih h (Nat.succ.inj huv)
      exact ⟨.cons huv' hall, hpq⟩

theorem Alike.length_le (h : Alike C D ps qs) : C.length ≤ ps.length := by
  induction h with
  | horizon => exact Nat.le_refl _
  | cons _ _ _ ih => exact Nat.le_succ_of_le ih

/-- At the horizon of the first list stands that of the second. -/
theorem Alike.eq_of_horizon (h : Alike C D C qs) : qs = D := by
  cases h with
  | horizon => rfl
  | cons _ _ h => exact absurd h.length_le (Nat.not_succ_le_self _)

end

/-! ## Comments of alike pieces -/

theorem values_eq {xs ys : List (Located Comment)} {f g : Located Comment → Bool}
    (h : List.Forall₂ (fun x y => x.value = y.value ∧ f x = g y) xs ys) : values xs = values ys := by
  induction h with
  | nil => rfl
  | cons hxy _ ih => exact congrArg₂ List.cons hxy.1 ih

theorem values_while {xs ys : List (Located Comment)} {f g : Located Comment → Bool}
    (h : List.Forall₂ (fun x y => x.value = y.value ∧ f x = g y) xs ys) :
    values (xs.takeWhile f) = values (ys.takeWhile g) ∧
      values (xs.dropWhile f) = values (ys.dropWhile g) := by
  induction h with
  | nil => exact ⟨rfl, rfl⟩
  | @cons x y xs ys hxy hrest ih =>
    obtain ⟨hvalue, hbit⟩ := hxy
    by_cases hx : f x = true
    · rw [List.takeWhile_cons_of_pos hx, List.takeWhile_cons_of_pos (hbit ▸ hx),
        List.dropWhile_cons_of_pos hx, List.dropWhile_cons_of_pos (hbit ▸ hx)]
      exact ⟨congrArg₂ List.cons hvalue ih.1, ih.2⟩
    · rw [List.takeWhile_cons_of_neg hx, List.takeWhile_cons_of_neg (hbit ▸ hx),
        List.dropWhile_cons_of_neg hx, List.dropWhile_cons_of_neg (hbit ▸ hx)]
      exact ⟨rfl, congrArg₂ List.cons hvalue (values_eq hrest)⟩

theorem values_after {us vs : List Piece} (h : List.Forall₂ Piece.Alike us vs) :
    values (us.flatMap Piece.after) = values (vs.flatMap Piece.after) := by
  induction h with
  | nil => rfl
  | cons huv _ ih => rw [List.flatMap_cons, List.flatMap_cons, values_append, values_append, ih,
      values_eq huv.after]

/-! ## Similar cursors -/

namespace Cursor

section
variable (C D : List Piece)

structure Similar (c d : Cursor) : Prop where
  horizon : C.head?.map Piece.token = D.head?.map Piece.token
  ahead : Alike C D c.ahead d.ahead
  comments : values c.queue = values d.queue
  orderly : Orderly c.ahead ∧ Orderly d.ahead

/-- Similar cursors that have passed a token. -/
structure InStep (c d : Cursor) : Prop extends Similar C D c d where
  breaks : SameBreak c.prevStop d.prevStop c.ahead d.ahead

end

variable {C D : List Piece} {c c' d d' : Cursor}

namespace Similar

theorem token?_eq (h : Similar C D c d) : d.token? = c.token? := by
  unfold token?
  generalize hc : c.ahead = ps
  generalize hd : d.ahead = qs
  have ha := h.ahead
  rw [hc, hd] at ha
  cases ha with
  | horizon => exact h.horizon.symm
  | cons hpq _ _ => exact congrArg some hpq.token.symm

theorem token?_ne {o : Option Token} (h : Similar C D c d) (hne : c.token? ≠ o) : d.token? ≠ o :=
  h.token?_eq.symm ▸ hne

theorem withQueue (h : Similar C D c d) {q q' : List (Located Comment)} (hq : values q = values q') :
    Similar C D (c.withQueue q) (d.withQueue q') :=
  ⟨h.horizon, h.ahead, hq, h.orderly⟩

theorem emptied (h : Similar C D c d) : Similar C D (c.withQueue []) (d.withQueue []) :=
  h.withQueue rfl

theorem owning (h : Similar C D c d) (r r' : Record) :
    Similar C D ((c.withQueue []).record r) ((d.withQueue []).record r') :=
  ⟨h.horizon, h.ahead, rfl, h.orderly⟩

theorem record (h : Similar C D c d) (r r' : Record) : Similar C D (c.record r) (d.record r') :=
  ⟨h.horizon, h.ahead, h.comments, h.orderly⟩

/-- Passing a token in front of the horizon. -/
theorem advance {t : Token} (h : Similar C D c d) (ht : c.token? = some t)
    (hlen : C.length ≤ c.advance.left) : InStep C D c.advance d.advance := by
  have ht' := h.token?_eq.trans ht
  obtain ⟨p, -, hp⟩ := passes_advance ht
  obtain ⟨q, -, hq⟩ := passes_advance ht'
  have ha := h.ahead
  obtain ⟨ho, ho'⟩ := h.orderly
  rw [hp.ahead] at ha ho
  rw [hq.ahead] at ha ho'
  obtain ⟨hpq, hbreak, ha⟩ := ha.of_cons hlen
  refine ⟨⟨h.horizon, ha, ?_, ?_⟩, ?_⟩
  · simp only [hp.queue, hq.queue, values_append, h.comments, values_eq hpq.after]
  · exact ⟨ho.sublist (List.sublist_cons_self ..), ho'.sublist (List.sublist_cons_self ..)⟩
  · rw [hp.stop, hq.stop]
    exact hbreak

theorem advance₂ {t u : Token} (h : Similar C D c d) (ht : c.token? = some t)
    (hu : c.advance.token? = some u) (hlen : C.length ≤ c.advance.advance.left) :
    d.token? = some t ∧ d.advance.token? = some u ∧
      InStep C D c.advance.advance d.advance.advance := by
  have h₁ := h.advance ht (hlen.trans (moves_advance _).left_le)
  exact ⟨h.token?_eq.trans ht, h₁.token?_eq.trans hu, h₁.advance hu hlen⟩

end Similar

theorem InStep.withQueue (h : InStep C D c d) {q q' : List (Located Comment)}
    (hq : values q = values q') : InStep C D (c.withQueue q) (d.withQueue q') :=
  ⟨h.toSimilar.withQueue hq, h.breaks⟩

/-! ## Successful readings -/

theorem ReadsExpr.follows {e : Expr} (h : c.ReadsExpr e c') (hs : Similar C D c d)
    (hlen : C.length ≤ c'.left) : ∃ d', d.ReadsExpr e d' ∧ InStep C D c' d' := by
  induction h generalizing d with
  | operand ht hop hne =>
    have hs₁ := hs.advance ht hlen
    exact ⟨_, .operand (hs.token?_eq.trans ht) hop (hs₁.token?_ne hne), hs₁⟩
  | @paren c e c₁ hopen hread hclose hne ih =>
    have hlen₁ := hlen.trans (moves_advance c₁).left_le
    have hs₁ := hs.advance hopen (hlen₁.trans hread.moves.left_le)
    obtain ⟨d₁, hread', hs₂⟩ := ih hs₁.toSimilar hlen₁
    have hs₃ := hs₂.advance hclose hlen
    exact ⟨_, .paren (hs.token?_eq.trans hopen) hread' (hs₂.token?_eq.trans hclose) (hs₃.token?_ne hne),
      hs₃⟩
  | assign hname heq hread ih =>
    have hlen₂ := hlen.trans hread.moves.left_le
    obtain ⟨hname', heq', hs₂⟩ := hs.advance₂ hname heq hlen₂
    obtain ⟨d', hread', hs'⟩ := ih hs₂.toSimilar hlen
    exact ⟨d', .assign hname' heq' hread', hs'⟩

theorem ReadsNames.follows {names : List String} (h : c.ReadsNames names c') (hs : Similar C D c d)
    (hlen : C.length ≤ c'.left) : ∃ d', d.ReadsNames names d' ∧ InStep C D c' d' := by
  induction h generalizing d with
  | last hname hclose =>
    obtain ⟨hname', hclose', hs₂⟩ := hs.advance₂ hname hclose hlen
    exact ⟨_, .last hname' hclose', hs₂⟩
  | more hname hcomma hread ih =>
    have hlen₂ := hlen.trans hread.moves.left_le
    obtain ⟨hname', hcomma', hs₂⟩ := hs.advance₂ hname hcomma hlen₂
    obtain ⟨d', hread', hs'⟩ := ih hs₂.toSimilar hlen
    exact ⟨d', .more hname' hcomma' hread', hs'⟩

theorem ReadsParams.follows {names : List String} (h : c.ReadsParams names c') (hs : Similar C D c d)
    (hlen : C.length ≤ c'.left) : ∃ d', d.ReadsParams names d' ∧ InStep C D c' d' := by
  cases h with
  | none hopen hclose =>
    obtain ⟨hopen', hclose', hs₂⟩ := hs.advance₂ hopen hclose hlen
    exact ⟨_, .none hopen' hclose', hs₂⟩
  | some hopen hnames =>
    have hs₁ := hs.advance hopen (hlen.trans hnames.moves.left_le)
    obtain ⟨d', hnames', hs'⟩ := hnames.follows hs₁.toSimilar hlen
    exact ⟨d', .some (hs.token?_eq.trans hopen) hnames', hs'⟩

theorem ReadsInit.follows {init : Option Expr} (h : c.ReadsInit init c') (hs : InStep C D c d)
    (hlen : C.length ≤ c'.left) : ∃ d', d.ReadsInit init d' ∧ InStep C D c' d' := by
  cases h with
  | none hne => exact ⟨d, .none (hs.token?_ne hne), hs⟩
  | some heq he =>
    have hs₁ := hs.advance heq (hlen.trans he.moves.left_le)
    obtain ⟨d', he', hs'⟩ := he.follows hs₁.toSimilar hlen
    exact ⟨d', .some (hs.token?_eq.trans heq) he', hs'⟩

theorem ReadsDeclarators.follows {ds : List Declarator} (h : c.ReadsDeclarators ds c')
    (hs : Similar C D c d) (hlen : C.length ≤ c'.left) :
    ∃ d', d.ReadsDeclarators ds d' ∧ InStep C D c' d' := by
  induction h generalizing d with
  | last hname hinit hne =>
    have hs₁ := hs.advance hname (hlen.trans hinit.moves.left_le)
    obtain ⟨d', hinit', hs'⟩ := hinit.follows hs₁ hlen
    exact ⟨d', .last (hs.token?_eq.trans hname) hinit' (hs'.token?_ne hne), hs'⟩
  | more hname hinit hcomma hread ih =>
    have hlen₂ := hlen.trans hread.moves.left_le
    have hlen₁ := hlen₂.trans (moves_advance _).left_le
    have hs₁ := hs.advance hname (hlen₁.trans hinit.moves.left_le)
    obtain ⟨d₁, hinit', hs₂⟩ := hinit.follows hs₁ hlen₁
    obtain ⟨d', hread', hs'⟩ := ih (hs₂.advance hcomma hlen₂).toSimilar hlen
    exact ⟨d', .more (hs.token?_eq.trans hname) hinit' (hs₂.token?_eq.trans hcomma) hread', hs'⟩

/-- The one place where the readers look at lines. -/
theorem InStep.line_iff {t : Token} (hs : InStep C D c d) (ht : c.token? = some t) :
    c.prevStop.line < c.here.line ↔ d.prevStop.line < d.here.line := by
  obtain ⟨p, -, hp⟩ := passes_advance ht
  obtain ⟨q, -, hq⟩ := passes_advance (hs.token?_eq.trans ht)
  have hbreak := hs.breaks
  unfold here
  rw [hp.ahead, hq.ahead] at hbreak ⊢
  exact hbreak p rfl q rfl

theorem ReadsEnd.follows (h : c.ReadsEnd c') (hs : InStep C D c d) (hlen : C.length ≤ c'.left) :
    ∃ d', d.ReadsEnd d' ∧ InStep C D c' d' := by
  cases h with
  | semicolon ht => exact ⟨_, .semicolon (hs.token?_eq.trans ht), hs.advance ht hlen⟩
  | closeBrace ht => exact ⟨d, .closeBrace (hs.token?_eq.trans ht), hs⟩
  | endOfInput ht => exact ⟨d, .endOfInput (hs.token?_eq.trans ht), hs⟩
  | laterLine hne hline =>
    cases ht : c.token? with
    | none => exact ⟨d, .endOfInput (hs.token?_eq.trans ht), hs⟩
    | some t => exact ⟨d, .laterLine (hs.token?_ne hne) ((hs.line_iff ht).mp hline), hs⟩

/-- Behind the same form, read from similar cursors, the comments are shared out alike. -/
theorem shareOut_follows {f : Form} (h : c.ReadsForm f c') (h' : d.ReadsForm f d')
    (hs : Similar C D c d) (hs' : Similar C D c' d') (hq : c.queue = [] ∧ d.queue = [])
    (hlen : C.length ≤ c'.left) :
    (shareOut c'.prevStop c'.queue).inside = (shareOut d'.prevStop d'.queue).inside ∧
      (shareOut c'.prevStop c'.queue).behind = (shareOut d'.prevStop d'.queue).behind ∧
      values (shareOut c'.prevStop c'.queue).rest = values (shareOut d'.prevStop d'.queue).rest := by
  obtain ⟨us, held, p, hacc⟩ := h.account hs.orderly.1
  obtain ⟨vs, held', q, hacc'⟩ := h'.account hs.orderly.2
  have ha := hs.ahead
  have hleft := ha.length_eq
  have hleft' := hs'.ahead.length_eq
  rw [hacc.ahead, hacc'.ahead] at ha hleft
  simp only [List.length_append, List.length_cons] at hleft
  obtain ⟨huv, hpq⟩ := ha.split hlen (by omega)
  -- the form owns the same comments, so the same ones are left for the statement
  have hheld : values held = values held' := by
    have howned : values held ++ f.comments = values held' ++ f.comments := by
      rw [← hacc.owned_eq, ← hacc'.owned_eq, values_after huv]
    exact List.append_cancel_right howned
  obtain ⟨hbehind, hrest⟩ := values_while hpq.after
  rw [hacc.shareOut hq.1 hs.orderly.1, hacc'.shareOut hq.2 hs.orderly.2]
  exact ⟨hheld, hbehind, hrest⟩

mutual
theorem ReadsBlock.follows {c c' d : Cursor} {b : Body} (h : c.ReadsBlock b c')
    (hs : Similar C D c d) (hlen : C.length ≤ c'.left) :
    ∃ d', d.ReadsBlock b d' ∧ InStep C D c' d' := by
  match h with
  | @ReadsBlock.braces _ ss c₁ c₂ hopen hss hclose hc =>
    subst hc
    have hlen₁ : C.length ≤ c₁.left := Nat.le_trans hlen (moves_advance (c₁.withQueue [])).left_le
    have hs₁ := hs.emptied.advance hopen (hlen₁.trans hss.moves.left_le)
    obtain ⟨d₁, hss', hs₂⟩ := hss.follows hs₁.toSimilar hlen₁
    have hs₃ := hs₂.emptied.advance hclose hlen
    have hread := ReadsBlock.braces (hs.token?_eq.trans hopen) hss' (hs₂.token?_eq.trans hclose) rfl
    rw [comments_eq, ← hs₂.comments] at hread
    refine ⟨_, hread, hs₃.withQueue ?_⟩
    rw [values_append, values_append, hs.comments, hs₃.comments]

theorem ReadsForm.follows {c c' d : Cursor} {f : Form} (h : c.ReadsForm f c')
    (hs : Similar C D c d) (hlen : C.length ≤ c'.left) :
    ∃ d', d.ReadsForm f d' ∧ InStep C D c' d' := by
  match h with
  | .block hb =>
    obtain ⟨d', hb', hs'⟩ := hb.follows hs hlen
    exact ⟨d', .block hb', hs'⟩
  | .empty ht => exact ⟨_, .empty (hs.token?_eq.trans ht), hs.advance ht hlen⟩
  | .function hfun hname hnames hb =>
    have hlen₃ := hlen.trans hb.moves.left_le
    have hlen₂ := hlen₃.trans hnames.moves.left_le
    obtain ⟨hfun', hname', hs₂⟩ := hs.advance₂ hfun hname hlen₂
    obtain ⟨d₃, hnames', hs₃⟩ := hnames.follows hs₂.toSimilar hlen₃
    obtain ⟨d', hb', hs'⟩ := hb.follows hs₃.toSimilar hlen
    exact ⟨d', .function hfun' hname' hnames' hb', hs'⟩
  | .var hvar hds hend =>
    have hlen₂ := hlen.trans hend.moves.left_le
    have hs₁ := hs.advance hvar (hlen₂.trans hds.moves.left_le)
    obtain ⟨d₂, hds', hs₂⟩ := hds.follows hs₁.toSimilar hlen₂
    obtain ⟨d', hend', hs'⟩ := hend.follows hs₂ hlen
    exact ⟨d', .var (hs.token?_eq.trans hvar) hds' hend', hs'⟩
  | .expr he hend =>
    obtain ⟨d₁, he', hs₁⟩ := he.follows hs (hlen.trans hend.moves.left_le)
    obtain ⟨d', hend', hs'⟩ := hend.follows hs₁ hlen
    exact ⟨d', .expr he' hend', hs'⟩

theorem ReadsStmt.follows {c c' d : Cursor} {s : Stmt} (h : c.ReadsStmt s c')
    (hs : Similar C D c d) (hlen : C.length ≤ c'.left) :
    ∃ d', d.ReadsStmt s d' ∧ Similar C D c' d' := by
  match h with
  | .owning hf hshares =>
    subst hshares
    have hs₀ := hs.owning (.readingStmt c.here c.found) (.readingStmt d.here d.found)
    obtain ⟨d₁, hf', hs₁⟩ := hf.follows hs₀ hlen
    obtain ⟨hin, hbehind, hrest⟩ := shareOut_follows hf hf' hs₀ hs₁.toSimilar ⟨rfl, rfl⟩ hlen
    refine ⟨_, ?_, hs₁.toSimilar.withQueue hrest⟩
    rw [hin, hbehind, comments_eq, hs.comments]
    exact .owning hf' rfl

theorem ReadsStmts.follows {close : Option Token} {c c' d : Cursor} {ss : List Stmt}
    (h : c.ReadsStmts close ss c') (hs : Similar C D c d) (hlen : C.length ≤ c'.left) :
    ∃ d', d.ReadsStmts close ss d' ∧ Similar C D c' d' := by
  match h with
  | .nil ht => exact ⟨d, .nil (hs.token?_eq.trans ht), hs⟩
  | .cons ht hne hstmt hss =>
    obtain ⟨d₁, hstmt', hs₁⟩ := hstmt.follows hs (hlen.trans hss.moves.left_le)
    obtain ⟨d', hss', hs'⟩ := hss.follows hs₁ hlen
    exact ⟨d', .cons (hs.token?_eq.trans ht) hne hstmt' hss', hs'⟩
end

theorem ReadsHead.follows (h : c.ReadsHead c') (hs : Similar C D c d) (hlen : C.length ≤ c'.left) :
    ∃ d', d.ReadsHead d' ∧ Similar C D c' d' := by
  cases h with
  | bare hne => exact ⟨d, .bare (hs.token?_ne hne), hs⟩
  | named hfun hname hnames =>
    have hlen₂ := Nat.le_trans hlen hnames.moves.left_le
    obtain ⟨hfun', hname', hs₂⟩ := hs.advance₂ hfun hname hlen₂
    obtain ⟨d', hnames', hs'⟩ := hnames.follows hs₂.toSimilar hlen
    exact ⟨_, .named hfun' hname' hnames',
      hs'.toSimilar.record _ _⟩
  | anonymous hfun hnames =>
    have hs₁ := hs.advance hfun (Nat.le_trans hlen hnames.moves.left_le)
    obtain ⟨d', hnames', hs'⟩ := hnames.follows hs₁.toSimilar hlen
    exact ⟨_, .anonymous (hs.token?_eq.trans hfun) hnames', hs'.toSimilar.record _ _⟩

/-! ## Failing readings -/

variable {ex : Expected}

theorem FailsExpr.follows (h : c.FailsExpr ex c') (hs : Similar C D c d) (hlen : C.length ≤ c'.left) :
    ∃ d', d.FailsExpr ex d' ∧ Similar C D c' d' := by
  induction h generalizing d with
  | operand hnone => exact ⟨d, .operand fun t ht => hnone t (hs.token?_eq.symm.trans ht), hs⟩
  | inside hopen hin ih =>
    have hs₁ := hs.advance hopen (hlen.trans hin.moves.left_le)
    obtain ⟨d', hin', hs'⟩ := ih hs₁.toSimilar hlen
    exact ⟨d', .inside (hs.token?_eq.trans hopen) hin', hs'⟩
  | close hopen he hne =>
    have hs₁ := hs.advance hopen (hlen.trans he.moves.left_le)
    obtain ⟨d', he', hs'⟩ := he.follows hs₁.toSimilar hlen
    exact ⟨d', .close (hs.token?_eq.trans hopen) he' (hs'.token?_ne hne), hs'.toSimilar⟩
  | literalTarget ht hop hne heq =>
    have hs₁ := hs.advance ht hlen
    exact ⟨_, .literalTarget (hs.token?_eq.trans ht) hop hne (hs₁.token?_eq.trans heq), hs₁.toSimilar⟩
  | parenTarget hopen he hclose heq =>
    have hlen₁ := hlen.trans (moves_advance _).left_le
    have hs₁ := hs.advance hopen (hlen₁.trans he.moves.left_le)
    obtain ⟨d₁, he', hs₂⟩ := he.follows hs₁.toSimilar hlen₁
    have hs₃ := hs₂.advance hclose hlen
    exact ⟨_, .parenTarget (hs.token?_eq.trans hopen) he' (hs₂.token?_eq.trans hclose)
      (hs₃.token?_eq.trans heq), hs₃.toSimilar⟩
  | value hname heq hvalue ih =>
    have hlen₂ := hlen.trans hvalue.moves.left_le
    obtain ⟨hname', heq', hs₂⟩ := hs.advance₂ hname heq hlen₂
    obtain ⟨d', hvalue', hs'⟩ := ih hs₂.toSimilar hlen
    exact ⟨d', .value hname' heq' hvalue', hs'⟩

theorem FailsNames.follows (h : c.FailsNames ex c') (hs : Similar C D c d)
    (hlen : C.length ≤ c'.left) : ∃ d', d.FailsNames ex d' ∧ Similar C D c' d' := by
  induction h generalizing d with
  | name hne => exact ⟨d, .name fun name => hs.token?_ne (hne name), hs⟩
  | comma hname hclose hcomma =>
    have hs₁ := hs.advance hname hlen
    exact ⟨_, .comma (hs.token?_eq.trans hname) (hs₁.token?_ne hclose) (hs₁.token?_ne hcomma),
      hs₁.toSimilar⟩
  | more hname hcomma hnames ih =>
    have hlen₂ := hlen.trans hnames.moves.left_le
    obtain ⟨hname', hcomma', hs₂⟩ := hs.advance₂ hname hcomma hlen₂
    obtain ⟨d', hnames', hs'⟩ := ih hs₂.toSimilar hlen
    exact ⟨d', .more hname' hcomma' hnames', hs'⟩

theorem FailsParams.follows (h : c.FailsParams ex c') (hs : Similar C D c d)
    (hlen : C.length ≤ c'.left) : ∃ d', d.FailsParams ex d' ∧ Similar C D c' d' := by
  cases h with
  | opening hne => exact ⟨d, .opening (hs.token?_ne hne), hs⟩
  | names hopen hne hnames =>
    have hs₁ := hs.advance hopen (hlen.trans hnames.moves.left_le)
    obtain ⟨d', hnames', hs'⟩ := hnames.follows hs₁.toSimilar hlen
    exact ⟨d', .names (hs.token?_eq.trans hopen) (hs₁.token?_ne hne) hnames', hs'⟩

theorem FailsDeclarators.follows (h : c.FailsDeclarators ex c') (hs : Similar C D c d)
    (hlen : C.length ≤ c'.left) : ∃ d', d.FailsDeclarators ex d' ∧ Similar C D c' d' := by
  induction h generalizing d with
  | name hne => exact ⟨d, .name fun name => hs.token?_ne (hne name), hs⟩
  | init hname heq he =>
    have hlen₂ := hlen.trans he.moves.left_le
    obtain ⟨hname', heq', hs₂⟩ := hs.advance₂ hname heq hlen₂
    obtain ⟨d', he', hs'⟩ := he.follows hs₂.toSimilar hlen
    exact ⟨d', .init hname' heq' he', hs'⟩
  | more hname hinit hcomma hds ih =>
    have hlen₂ := hlen.trans hds.moves.left_le
    have hlen₁ := hlen₂.trans (moves_advance _).left_le
    have hs₁ := hs.advance hname (hlen₁.trans hinit.moves.left_le)
    obtain ⟨d₁, hinit', hs₂⟩ := hinit.follows hs₁ hlen₁
    obtain ⟨d', hds', hs'⟩ := ih (hs₂.advance hcomma hlen₂).toSimilar hlen
    exact ⟨d', .more (hs.token?_eq.trans hname) hinit' (hs₂.token?_eq.trans hcomma) hds', hs'⟩

theorem FailsEnd.follows (h : c.FailsEnd) (hs : InStep C D c d) : d.FailsEnd := by
  obtain ⟨⟨t, ht, hne⟩, hline⟩ := h
  exact ⟨⟨t, hs.token?_eq.trans ht, hne⟩, (hs.line_iff ht).not.mp hline⟩

theorem AtExpr.follows (h : c.AtExpr) (hs : Similar C D c d) : d.AtExpr := by
  unfold AtExpr at h ⊢
  rwa [hs.token?_eq]

mutual
theorem FailsBlock.follows {c c' d : Cursor} {ex : Expected} (h : c.FailsBlock ex c')
    (hs : Similar C D c d) (hlen : C.length ≤ c'.left) :
    ∃ d', d.FailsBlock ex d' ∧ Similar C D c' d' := by
  match h with
  | .opening hne => exact ⟨_, .opening (hs.token?_ne hne), hs.emptied⟩
  | .inside hopen hss =>
    have hs₁ := hs.emptied.advance hopen (hlen.trans hss.moves.left_le)
    obtain ⟨d', hss', hs'⟩ := hss.follows hs₁.toSimilar hlen
    exact ⟨d', .inside (hs.token?_eq.trans hopen) hss', hs'⟩

theorem FailsForm.follows {c c' d : Cursor} {ex : Expected} (h : c.FailsForm ex c')
    (hs : Similar C D c d) (hlen : C.length ≤ c'.left) :
    ∃ d', d.FailsForm ex d' ∧ Similar C D c' d' := by
  match h with
  | .block hopen hb =>
    obtain ⟨d', hb', hs'⟩ := hb.follows hs hlen
    exact ⟨d', .block (hs.token?_eq.trans hopen) hb', hs'⟩
  | .functionName hfun hne =>
    have hs₁ := hs.advance hfun hlen
    exact ⟨_, .functionName (hs.token?_eq.trans hfun) fun name => hs₁.token?_ne (hne name),
      hs₁.toSimilar⟩
  | .functionParams hfun hname hparams =>
    have hlen₂ := hlen.trans hparams.moves.left_le
    obtain ⟨hfun', hname', hs₂⟩ := hs.advance₂ hfun hname hlen₂
    obtain ⟨d', hparams', hs'⟩ := hparams.follows hs₂.toSimilar hlen
    exact ⟨d', .functionParams hfun' hname' hparams', hs'⟩
  | .functionBody hfun hname hnames hb =>
    have hlen₃ := hlen.trans hb.moves.left_le
    have hlen₂ := hlen₃.trans hnames.moves.left_le
    obtain ⟨hfun', hname', hs₂⟩ := hs.advance₂ hfun hname hlen₂
    obtain ⟨d₃, hnames', hs₃⟩ := hnames.follows hs₂.toSimilar hlen₃
    obtain ⟨d', hb', hs'⟩ := hb.follows hs₃.toSimilar hlen
    exact ⟨d', .functionBody hfun' hname' hnames' hb', hs'⟩
  | .declarators hvar hds =>
    have hs₁ := hs.advance hvar (hlen.trans hds.moves.left_le)
    obtain ⟨d', hds', hs'⟩ := hds.follows hs₁.toSimilar hlen
    exact ⟨d', .declarators (hs.token?_eq.trans hvar) hds', hs'⟩
  | .varEnd hvar hds hend =>
    have hs₁ := hs.advance hvar (hlen.trans hds.moves.left_le)
    obtain ⟨d', hds', hs'⟩ := hds.follows hs₁.toSimilar hlen
    exact ⟨d', .varEnd (hs.token?_eq.trans hvar) hds' (hend.follows hs'), hs'.toSimilar⟩
  | .expr hat he =>
    obtain ⟨d', he', hs'⟩ := he.follows hs hlen
    exact ⟨d', .expr (hat.follows hs) he', hs'⟩
  | .exprEnd he hend =>
    obtain ⟨d', he', hs'⟩ := he.follows hs hlen
    exact ⟨d', .exprEnd he' (hend.follows hs'), hs'.toSimilar⟩

theorem FailsStmts.follows {close : Option Token} {c c' d : Cursor} {ex : Expected}
    (h : c.FailsStmts close ex c') (hs : Similar C D c d) (hlen : C.length ≤ c'.left) :
    ∃ d', d.FailsStmts close ex d' ∧ Similar C D c' d' := by
  match h with
  | .unclosed ht => exact ⟨d, .unclosed (hs.token?_eq.trans ht), hs⟩
  | .now ht hne hf =>
    obtain ⟨d', hf', hs'⟩ := hf.follows (hs.owning _ (.readingStmt d.here d.found)) hlen
    exact ⟨d', .now (hs.token?_eq.trans ht) hne hf', hs'⟩
  | .later ht hne hstmt hss =>
    obtain ⟨d₁, hstmt', hs₁⟩ := hstmt.follows hs (hlen.trans hss.moves.left_le)
    obtain ⟨d', hss', hs'⟩ := hss.follows hs₁ hlen
    exact ⟨d', .later (hs.token?_eq.trans ht) hne hstmt' hss', hs'⟩
end

theorem FailsHead.follows (h : c.FailsHead ex c') (hs : Similar C D c d) (hlen : C.length ≤ c'.left) :
    ∃ d', d.FailsHead ex d' ∧ Similar C D c' d' := by
  cases h with
  | named hfun hname hparams =>
    have hlen₂ := hlen.trans hparams.moves.left_le
    obtain ⟨hfun', hname', hs₂⟩ := hs.advance₂ hfun hname hlen₂
    obtain ⟨d', hparams', hs'⟩ := hparams.follows hs₂.toSimilar hlen
    exact ⟨d', .named hfun' hname' hparams', hs'⟩
  | anonymous hfun hne hparams =>
    have hs₁ := hs.advance hfun (hlen.trans hparams.moves.left_le)
    obtain ⟨d', hparams', hs'⟩ := hparams.follows hs₁.toSimilar hlen
    exact ⟨d', .anonymous (hs.token?_eq.trans hfun) (fun name => hs₁.token?_ne (hne name)) hparams',
      hs'⟩

end Cursor

/-! ## Fragments -/

namespace Fragment

open Cursor

variable {f : Fragment} {C D : List Piece} {c c' d : Cursor}

theorem Fails.follows {ex : Expected} (h : f.Fails c ex c') (hs : Similar C D c d)
    (hlen : C.length ≤ c'.left) : ∃ d', f.Fails d ex d' ∧ Similar C D c' d' := by
  cases h with
  | program hss =>
    obtain ⟨d', hss', hs'⟩ := hss.follows hs hlen
    exact ⟨d', .program hss', hs'⟩
  | head hhead =>
    obtain ⟨d', hhead', hs'⟩ := hhead.follows hs hlen
    exact ⟨d', .head hhead', hs'⟩
  | block hhead hb =>
    obtain ⟨d₁, hhead', hs₁⟩ := hhead.follows hs (hlen.trans hb.moves.left_le)
    obtain ⟨d', hb', hs'⟩ := hb.follows hs₁.emptied hlen
    exact ⟨d', .block hhead' hb', hs'⟩
  | behind hhead hb ht =>
    obtain ⟨d₁, hhead', hs₁⟩ := hhead.follows hs (hlen.trans hb.moves.left_le)
    obtain ⟨d', hb', hs'⟩ := hb.follows hs₁.emptied hlen
    exact ⟨d', .behind hhead' hb' (hs'.token?_eq.trans ht), hs'.toSimilar⟩

/-- With nothing unknown ahead, the same tree is read. -/
theorem read_follows {b : Body} (h : f.read c = .ok b c') (hs : Similar [] [] c d) :
    ∃ d', f.read d = .ok b d' := by
  cases f with
  | program =>
    obtain ⟨ss, c₁, hss, rfl, -⟩ := read_program_iff.mp h
    obtain ⟨d₁, hss', hs'⟩ := hss.follows hs (Nat.zero_le _)
    refine ⟨_, read_program_iff.mpr ⟨ss, d₁, hss', ?_, rfl⟩⟩
    rw [comments_eq, comments_eq, hs'.comments]
  | function =>
    obtain ⟨c₁, inner, c₂, hhead, hb, hnone, rfl, -⟩ := read_function_iff.mp h
    obtain ⟨d₁, hhead', hs₁⟩ := hhead.follows hs (Nat.zero_le _)
    obtain ⟨d₂, hb', hs₂⟩ := hb.follows hs₁.emptied (Nat.zero_le _)
    refine ⟨_, read_function_iff.mpr
      ⟨d₁, inner, d₂, hhead', hb', hs₂.token?_eq.trans hnone, ?_, rfl⟩⟩
    simp only [comments_eq, hs₁.comments, hs₂.comments]

end Fragment

end Reprint
