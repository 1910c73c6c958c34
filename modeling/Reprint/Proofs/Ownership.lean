import Reprint.Proofs.Ranges

/-!
# Who owns a comment

A comment belongs to the statement that ends in front of it on its line; else it dangles in the body
that ends behind it; else it leads the statement that starts behind it; else it leads the innermost
statement around it. The lists of comments in the tree of a program are what this rule picks out of
the comments of the text, in their order (`comments_owned_by_neighbours`).
-/

namespace Reprint

/-! ## The rule -/

/-- A comment and the number of tokens in front of it. -/
structure Between where
  index : Nat
  comment : Located Comment

/-- The comments of a text behind its first `k` tokens. -/
def between (k : Nat) : List (Located Lexeme) → List Between
  | [] => []
  | ⟨.comment c, span⟩ :: ls => ⟨k, c, span⟩ :: between k ls
  | ⟨.token _, _⟩ :: ls => between (k + 1) ls

/-- The comments of a text that satisfy `P`, in the order of the text. -/
def picked (ls : List (Located Lexeme)) (P : Between → Prop) [DecidablePred P] : List Comment :=
  ((between 0 ls).filter P).map fun x => x.comment.value

/-- The token at `k` closes the body of the statement. -/
def Site.Closes (n : Site) (k : Nat) : Prop := n.stmt.form.body?.isSome = true ∧ n.stop = k + 1

/-- The tokens in front of `k` and at `k` are both of the statement. -/
def Site.Around (n : Site) (k : Nat) : Prop := n.start < k ∧ k < n.stop

def Site.Innermost (sites : List Site) (n : Site) (k : Nat) : Prop :=
  n.Around k ∧ ∀ m ∈ sites, m.Around k → m.start ≤ n.start ∧ n.stop ≤ m.stop

section
variable (toks : List (Located Token)) (sites : List Site)

/-- The token in front of the comment is the last one of the statement and ends on the line where the
comment starts. -/
def Between.Trails (x : Between) (n : Site) : Prop :=
  n.stop = x.index ∧ toks[n.stop - 1]?.map (fun l => l.span.stop.line) = some x.comment.span.start.line

def Between.Free (x : Between) : Prop := ∀ n ∈ sites, ¬ x.Trails toks n

/-- The token at `k`, which is behind the comment, ends a body. -/
def Between.Dangles (x : Between) (k : Nat) : Prop := x.Free toks sites ∧ x.index = k

def Between.Leads (x : Between) (n : Site) : Prop :=
  x.Free toks sites ∧ x.index < toks.length ∧ (∀ m ∈ sites, ¬ m.Closes x.index) ∧
    (n.start = x.index ∨ (∀ m ∈ sites, m.start ≠ x.index) ∧ n.Innermost sites x.index)

instance (n : Site) (k : Nat) : Decidable (n.Closes k) :=
  inferInstanceAs (Decidable (_ ∧ _))

instance (n : Site) (k : Nat) : Decidable (n.Around k) :=
  inferInstanceAs (Decidable (_ ∧ _))

instance (n : Site) (k : Nat) : Decidable (n.Innermost sites k) :=
  inferInstanceAs (Decidable (_ ∧ _))

instance (x : Between) (n : Site) : Decidable (x.Trails toks n) :=
  inferInstanceAs (Decidable (_ ∧ _))

instance (x : Between) : Decidable (x.Free toks sites) :=
  inferInstanceAs (Decidable (∀ n ∈ sites, ¬ x.Trails toks n))

instance (x : Between) (k : Nat) : Decidable (x.Dangles toks sites k) :=
  inferInstanceAs (Decidable (_ ∧ _))

instance (x : Between) (n : Site) : Decidable (x.Leads toks sites n) :=
  inferInstanceAs (Decidable (_ ∧ _ ∧ _ ∧ _))

end

/-! ## Gaps between tokens -/

/-- The comments in front of the first token and behind each token. -/
def gapsOf (before : List (Located Comment)) (ps : List Piece) : List (List (Located Comment)) :=
  before :: ps.map Piece.after

def numberGaps (k : Nat) : List (List (Located Comment)) → List Between
  | [] => []
  | g :: gs => g.map (Between.mk k) ++ numberGaps (k + 1) gs

theorem between_eq (k : Nat) (ls : List (Located Lexeme)) :
    between k ls = numberGaps k (gapsOf (pieces ls).1 (pieces ls).2) := by
  fun_induction pieces ls generalizing k with
  | case1 => rfl
  | case2 c span ls before ps h ih =>
    rw [h] at ih
    rw [between, ih]
    rfl
  | case3 t span ls after ps h ih =>
    rw [h] at ih
    rw [between, ih]
    rfl

theorem numberGaps_append (k : Nat) (gs hs : List (List (Located Comment))) :
    numberGaps k (gs ++ hs) = numberGaps k gs ++ numberGaps (k + gs.length) hs := by
  induction gs generalizing k with
  | nil => rfl
  | cons g gs ih =>
    rw [List.cons_append, numberGaps, numberGaps, ih, List.append_assoc, List.length_cons,
      Nat.add_right_comm, Nat.add_assoc]

theorem index_of_mem_numberGaps {k : Nat} {gs : List (List (Located Comment))} {x : Between}
    (h : x ∈ numberGaps k gs) : k ≤ x.index ∧ x.index < k + gs.length := by
  induction gs generalizing k with
  | nil => cases h
  | cons g gs ih =>
    rw [numberGaps] at h
    rw [List.length_cons]
    rcases List.mem_append.mp h with h | h
    · obtain ⟨c, -, rfl⟩ := List.mem_map.mp h
      simp only
      omega
    · have := ih h
      omega

theorem comments_numberGaps (k : Nat) (gs : List (List (Located Comment))) :
    (numberGaps k gs).map (fun x => x.comment.value) = values gs.flatten := by
  induction gs generalizing k with
  | nil => rfl
  | cons g gs ih => simp [numberGaps, ih, values, Function.comp_def]

/-- What holds of no comment outside some gaps picks comments of these gaps only. -/
theorem filter_numberGaps {gs : List (List (Located Comment))} {P : Between → Prop} [DecidablePred P]
    {i m : Nat} (hi : i ≤ gs.length) (hP : ∀ x, P x → i ≤ x.index ∧ x.index < i + m) :
    (numberGaps 0 gs).filter P = (numberGaps i ((gs.drop i).take m)).filter P := by
  have hbefore : (numberGaps 0 (gs.take i)).filter P = [] := by
    rw [List.filter_eq_nil_iff]
    intro x hx hPx
    have hindex := index_of_mem_numberGaps hx
    have := hP x (of_decide_eq_true hPx)
    rw [List.length_take] at hindex
    omega
  have hafter : (numberGaps (i + ((gs.drop i).take m).length) ((gs.drop i).drop m)).filter P = [] := by
    rw [List.filter_eq_nil_iff]
    intro x hx hPx
    have hindex := index_of_mem_numberGaps hx
    have := hP x (of_decide_eq_true hPx)
    simp only [List.length_take, List.length_drop] at hindex
    omega
  have hsplit : gs = gs.take i ++ ((gs.drop i).take m ++ (gs.drop i).drop m) := by
    rw [List.take_append_drop, List.take_append_drop]
  have hlen : 0 + (gs.take i).length = i := by
    rw [List.length_take]
    omega
  calc (numberGaps 0 gs).filter P
      = (numberGaps 0 (gs.take i) ++ (numberGaps i ((gs.drop i).take m) ++
          numberGaps (i + ((gs.drop i).take m).length) ((gs.drop i).drop m))).filter P := by
        rw [← numberGaps_append i, ← congrArg (numberGaps · _) hlen, ← numberGaps_append, ← hsplit]
    _ = (numberGaps i ((gs.drop i).take m)).filter P := by
        rw [List.filter_append, List.filter_append, hbefore, hafter, List.nil_append, List.append_nil]

theorem takeWhile_eq_filter {α : Type} {p : α → Bool} {l : List α}
    (h : l.Pairwise fun a b => p b = true → p a = true) :
    l.takeWhile p = l.filter p ∧ l.dropWhile p = l.filter (fun a => !p a) := by
  induction l with
  | nil => exact ⟨rfl, rfl⟩
  | cons a l ih =>
    obtain ⟨ha, hl⟩ := List.pairwise_cons.mp h
    by_cases hp : p a = true
    · simp [hp, ih hl]
    · have hnone : ∀ b ∈ l, p b = false := by
        intro b hb
        rw [Bool.eq_false_iff]
        exact fun hpb => hp (ha b hb hpb)
      have hnot : ∀ b ∈ l, (!p b) = true := fun b hb => by simp [hnone b hb]
      simpa [hp, List.filter_eq_self.mpr hnot] using hnone

/-! ## Sites that do not cross -/

namespace Laminar

variable {toks : List (Located Token)} {sites : List Site} {i j : Nat} {m n : Site}

theorem bounds (h : Laminar toks i j sites) (hn : n ∈ sites) :
    n.start ≤ n.head toks ∧ n.head toks < n.stop := by
  rw [h.stop_eq n hn]
  exact Form.head_bounds toks n.start n.stmt.form

theorem body_bounds (h : Laminar toks i j sites) (hn : n ∈ sites) {b : Body}
    (hb : n.stmt.form.body? = some b) : n.head toks + 1 < n.stop := by
  have := le_stmtsStop toks (n.head toks + 1) b.stmts
  have hstop := (Form.of_body? hb).2 ▸ h.stop_eq n hn
  unfold Site.head at *
  omega

/-- No statement ends at the opening brace of a body. -/
theorem stop_ne (h : Laminar toks i j sites) (hn : n ∈ sites) {b : Body}
    (hb : n.stmt.form.body? = some b) (hm : m ∈ sites) : m.stop ≠ n.head toks + 1 := by
  have hbody := h.body_bounds hn hb
  have hbn := h.bounds hn
  have hbm := h.bounds hm
  rcases h.eq_or_apart hm hn with rfl | hapart
  · omega
  · unfold Site.Apart at hapart
    omega

end Laminar

/-! ## What reading gives each statement -/

section
variable {before : List (Located Comment)} {ps : List Piece} {sites : List Site} {i j : Nat}

/-- The comments behind the first `k` tokens that trail no statement. -/
def freeAt (before : List (Located Comment)) (ps : List Piece) (sites : List Site) (k : Nat) :
    List (Located Comment) :=
  ((gapsOf before ps).getD k []).filter fun x =>
    decide ((Between.mk k x).Free (ps.map Piece.located) sites)

/-- What the statement at a site owns, told by gaps. -/
structure Served (before : List (Located Comment)) (ps : List Piece) (sites : List Site) (n : Site) :
    Prop where
  derives : DerivesForm (((ps.map Piece.located).drop n.start).take (n.stop - n.start))
    ((ps.map Piece.located).drop n.stop) n.stmt.form.bare
  leading : n.stmt.leading = values (freeAt before ps sites n.start ++
    ((ps.drop n.start).take (n.head (ps.map Piece.located) - n.start)).flatMap Piece.after)
  trailing : n.stmt.trailing = values (((gapsOf before ps).getD n.stop []).filter fun x =>
    decide ((Between.mk n.stop x).Trails (ps.map Piece.located) n))
  dangling : ∀ b, n.stmt.form.body? = some b → b.dangling = values (freeAt before ps sites (n.stop - 1))

/-- The comments behind a token start in the order of their lines. -/
structure InOrder (ps : List Piece) : Prop where
  orderly : Orderly ps
  lines : ∀ p ∈ ps, p.after.Pairwise fun x y =>
    startsOnLine p.span.stop y = true → startsOnLine p.span.stop x = true

theorem gap_eq {k : Nat} {p : Piece} (h : ps[k]? = some p) :
    (gapsOf before ps).getD (k + 1) [] = p.after := by
  simp [gapsOf, h]

theorem trails_iff {k : Nat} {p : Piece} {n : Site} {x : Located Comment} (h : ps[k]? = some p)
    (hn : n.stop = k + 1) : (Between.mk (k + 1) x).Trails (ps.map Piece.located) n ↔
      startsOnLine p.span.stop x = true := by
  unfold Between.Trails startsOnLine
  simp [hn, h, Piece.located, eq_comm]

/-- Behind a statement, the comments on its last line trail it and the others are free. -/
theorem freeAt_stop {k : Nat} {p : Piece} {n : Site} (hps : InOrder ps) (h : ps[k]? = some p)
    (hmem : n ∈ sites) (hn : n.stop = k + 1) :
    freeAt before ps sites (k + 1) = p.after.dropWhile (startsOnLine p.span.stop) := by
  have hp := hps.lines p (List.mem_of_getElem? h)
  rw [(takeWhile_eq_filter hp).2, freeAt, gap_eq h]
  apply List.filter_congr
  intro x _
  rw [Bool.eq_iff_iff, decide_eq_true_iff, Bool.not_eq_true']
  constructor
  · intro hfree
    have := hfree n hmem
    rwa [trails_iff h hn, Bool.not_eq_true] at this
  · intro hx m hm htrails
    rw [trails_iff h (show m.stop = k + 1 from htrails.1), hx] at htrails
    cases htrails

/-- Where no statement ends, all comments are free. -/
theorem freeAt_of_no_stop {k : Nat} (h : ∀ n ∈ sites, n.stop ≠ k) :
    freeAt before ps sites k = (gapsOf before ps).getD k [] := by
  unfold freeAt
  rw [List.filter_eq_self]
  intro x _
  rw [decide_eq_true_iff]
  exact fun n hn htrails => h n hn htrails.1

namespace Cursor

theorem Stands.split {c c' : Cursor} {us : List Piece} {p : Piece} (hc : Stands ps i c)
    (hc' : Stands ps j c') (h : c.ahead = us ++ p :: c'.ahead) :
    j = i + us.length + 1 ∧ ps[i + us.length]? = some p ∧ ps.drop i = us ++ p :: ps.drop j := by
  rw [hc.ahead, hc'.ahead] at h
  have hlen := congrArg List.length h
  have := hc.le
  have := hc'.le
  simp only [List.length_drop, List.length_append, List.length_cons] at hlen
  refine ⟨by omega, ?_, h⟩
  rw [← List.getElem?_drop, h]
  simp

theorem Stands.taken {c c' : Cursor} {ts : List (Located Token)} (hc : Stands ps i c)
    (hc' : Stands ps j c') (h : c.tokens = ts ++ c'.tokens) :
    ((ps.map Piece.located).drop i).take (j - i) = ts := by
  have hdrop : (ps.map Piece.located).drop i = ts ++ c'.tokens := by
    rw [← List.map_drop, ← hc.ahead]
    exact h
  have hlen := congrArg List.length hdrop
  have hle := hc'.le
  rw [tokens, hc'.ahead] at hlen
  simp only [List.length_drop, List.length_append, List.length_map] at hlen
  rw [hdrop, List.take_left' (by omega)]

/-- A form without a body holds back all but what stands behind its last token. -/
theorem Passes.holds {c c' : Cursor} {us : List Piece} {p : Piece} (h : c.Passes us p c')
    (hc : Stands ps i c) (hc' : Stands ps j c') :
    c.Accounts [] us (((ps.drop i).take (j - 1 - i)).flatMap Piece.after) p c' := by
  obtain ⟨hj, -, hdrop⟩ := hc.split hc' h.ahead
  rw [hdrop, List.take_left' (by omega)]
  exact h.accounts

/-- The comments that a form holds back for its statement are those in front of its head. -/
theorem ReadsForm.holds {c c' : Cursor} {f : Form} (h : c.ReadsForm f c') (hps : Orderly ps)
    (hc : Stands ps i c) : ∃ passed last, c.Accounts f.comments passed
      (((ps.drop i).take (f.head (ps.map Piece.located) i - i)).flatMap Piece.after) last c' := by
  have ho : Orderly c.ahead := hc.ahead ▸ hps.sublist (List.drop_sublist ..)
  have hstop := h.stands hc
  match h with
  | .block hb =>
    obtain ⟨passed, last, hacc⟩ := hb.account ho
    refine ⟨passed, last, ?_⟩
    rw [Form.head, Nat.sub_self, List.take_zero, List.flatMap_nil, Form.comments_block]
    exact hacc
  | @ReadsForm.function _ _ names _ b _ hfun hname hnames hb =>
    obtain ⟨us, p, hp⟩ := (advances_advance hfun).trans ((advances_advance hname).trans hnames.advances)
    have ho₁ := ho.sublist (hp.ahead ▸ (List.sublist_cons_self ..).trans (List.sublist_append_right ..))
    obtain ⟨passed, last, hacc⟩ := hb.account ho₁
    obtain ⟨hj, -, hdrop⟩ := hc.split (hnames.stands ((hc.advance hfun).advance hname)) hp.ahead
    have htake : (ps.drop i).take (headWidth names) = us ++ [p] := by
      rw [hdrop, List.append_cons]
      refine List.take_left' ?_
      rw [List.length_append, List.length_singleton, headWidth]
      omega
    have hacc := hp.trans_accounts hacc
    rw [List.append_nil, ← List.flatMap_singleton Piece.after p, ← List.flatMap_append] at hacc
    refine ⟨us ++ p :: passed, last, ?_⟩
    rw [Form.head, Form.comments_function, Nat.add_sub_cancel_left, htake]
    exact hacc
  | .empty ht =>
    obtain ⟨last, -, hp⟩ := passes_advance ht
    rw [Form.comments_empty]
    exact ⟨_, _, hp.holds hc hstop⟩
  | .var hvar hds hend =>
    have hadv := (advances_advance hvar).trans hds.advances
    rw [Form.comments_var]
    rcases hend.advances with rfl | hend
    · obtain ⟨us, p, hp⟩ := hadv
      exact ⟨us, p, hp.holds hc hstop⟩
    · obtain ⟨us, p, hp⟩ := hadv.trans hend
      exact ⟨us, p, hp.holds hc hstop⟩
  | .expr he hend =>
    rw [Form.comments_expr]
    rcases hend.advances with rfl | hend
    · obtain ⟨us, p, hp⟩ := he.advances
      exact ⟨us, p, hp.holds hc hstop⟩
    · obtain ⟨us, p, hp⟩ := he.advances.trans hend
      exact ⟨us, p, hp.holds hc hstop⟩

/-- What one statement of a row is given, and what it leaves for the next. -/
theorem ReadsForm.serves {c c' : Cursor} {f : Form} (h : c.ReadsForm f c') (hps : InOrder ps)
    (hc : Stands ps i c) (hq : c.queue = []) {s : Stmt} {shares : Shares}
    (hshares : shareOut c'.prevStop c'.queue = shares)
    (hs : s = ⟨values (freeAt before ps sites i) ++ shares.inside, f, shares.behind⟩)
    (hmem : ⟨i, f.stop (ps.map Piece.located) i, s⟩ ∈ sites)
    (hbody : ∀ b, f.body? = some b →
      b.dangling = values (freeAt before ps sites (f.stop (ps.map Piece.located) i - 1))) :
    Served before ps sites ⟨i, f.stop (ps.map Piece.located) i, s⟩ ∧
      shares.rest = freeAt before ps sites (f.stop (ps.map Piece.located) i) := by
  obtain ⟨passed, last, hacc⟩ := h.holds hps.orderly hc
  have hstop := h.stands hc
  obtain ⟨hj, hlast, -⟩ := hc.split hstop hacc.ahead
  have ho : Orderly c.ahead := hc.ahead ▸ hps.orderly.sublist (List.drop_sublist ..)
  rw [hacc.shareOut hq ho] at hshares
  subst hshares hs
  refine ⟨⟨?_, ?_, ?_, hbody⟩, ?_⟩
  · obtain ⟨ts, htakes, hderives⟩ := h.derives
    rw [tokens, hstop.ahead, List.map_drop] at hderives
    rw [hc.taken hstop htakes.tokens]
    exact hderives
  · rw [values_append]
    rfl
  · rw [(takeWhile_eq_filter (hps.lines last (List.mem_of_getElem? hlast))).1]
    simp only [hj, gap_eq hlast, trails_iff hlast, Bool.decide_eq_true]
  · simp only [hj] at hmem ⊢
    exact (freeAt_stop hps hlast hmem rfl).symm

mutual
theorem ReadsStmts.served {close : Option Token} {c c' : Cursor} {ss : List Stmt} {i : Nat}
    (h : c.ReadsStmts close ss c') (hps : InOrder ps) (hsites : Laminar (ps.map Piece.located) 0 j sites)
    (hc : Stands ps i c) (hq : c.queue = freeAt before ps sites i)
    (hsub : ∀ n ∈ stmtsSites (ps.map Piece.located) i ss, n ∈ sites) :
    (∀ n ∈ stmtsSites (ps.map Piece.located) i ss, Served before ps sites n) ∧
      c'.queue = freeAt before ps sites (stmtsStop (ps.map Piece.located) i ss) := by
  match h with
  | .nil _ =>
    rw [stmtsSites, stmtsStop]
    exact ⟨by simp, hq⟩
  | .cons _ _ (@ReadsStmt.owning _ f c₁ shares hf hshares) hss =>
    rw [comments_eq, hq] at hsub ⊢
    rw [stmtsSites, Stmt.sites] at hsub ⊢
    rw [List.forall_mem_append, List.forall_mem_cons] at hsub ⊢
    obtain ⟨⟨hself, hinner⟩, hrest⟩ := hsub
    have hc₀ : Stands ps i ((c.withQueue []).record (.readingStmt c.here c.found)) := ⟨hc.ahead, hc.le⟩
    have hform := hf.served hps hsites hc₀ rfl hself hinner
    obtain ⟨hserved, hshare⟩ := hf.serves hps hc₀ rfl hshares rfl hself hform.2
    have hstop := hf.stands hc₀
    obtain ⟨hlater, hlast⟩ := hss.served hps hsites ⟨hstop.ahead, hstop.le⟩ hshare hrest
    rw [stmtsStop]
    exact ⟨⟨⟨hserved, hform.1⟩, hlater⟩, hlast⟩

theorem ReadsForm.served {c c' : Cursor} {f : Form} {s : Stmt} {i : Nat} (h : c.ReadsForm f c')
    (hps : InOrder ps) (hsites : Laminar (ps.map Piece.located) 0 j sites) (hc : Stands ps i c)
    (hs : s.form = f) (hself : ⟨i, f.stop (ps.map Piece.located) i, s⟩ ∈ sites)
    (hsub : ∀ n ∈ f.sites (ps.map Piece.located) i, n ∈ sites) :
    (∀ n ∈ f.sites (ps.map Piece.located) i, Served before ps sites n) ∧
      ∀ b, f.body? = some b →
        b.dangling = values (freeAt before ps sites (f.stop (ps.map Piece.located) i - 1)) := by
  have hopen : ∀ b, f.body? = some b → ∀ m ∈ sites, m.stop ≠ f.head (ps.map Piece.located) i + 1 := by
    intro b hb m hm
    have hne := hsites.stop_ne hself (hs ▸ hb) hm
    rwa [Site.head, hs] at hne
  match h with
  | .block (b := b) hb =>
    rw [Form.sites] at hsub ⊢
    obtain ⟨hserved, hdangling⟩ := hb.served hps hsites hc (hopen b rfl) hsub
    rw [Form.stop]
    refine ⟨hserved, fun b' hb' => ?_⟩
    cases hb'
    exact hdangling
  | @ReadsForm.function _ _ names _ b _ hfun hname hnames hb =>
    have hhead := hnames.stands ((hc.advance hfun).advance hname)
    rw [Form.sites] at hsub ⊢
    obtain ⟨hserved, hdangling⟩ := hb.served hps hsites
      (hhead.of_eq (show _ = i + headWidth names by rw [headWidth]; omega)) (hopen b rfl) hsub
    rw [Form.stop]
    refine ⟨hserved, fun b' hb' => ?_⟩
    cases hb'
    exact hdangling
  | .empty _ | .var _ _ _ | .expr _ _ =>
    rw [Form.sites]
    exact ⟨by simp, fun b hb => by cases hb⟩

theorem ReadsBlock.served {c c' : Cursor} {b : Body} {i : Nat} (h : c.ReadsBlock b c')
    (hps : InOrder ps) (hsites : Laminar (ps.map Piece.located) 0 j sites) (hc : Stands ps i c)
    (hopen : ∀ m ∈ sites, m.stop ≠ i + 1)
    (hsub : ∀ n ∈ b.sites (ps.map Piece.located) i, n ∈ sites) :
    (∀ n ∈ b.sites (ps.map Piece.located) i, Served before ps sites n) ∧
      b.dangling = values (freeAt before ps sites (b.stop (ps.map Piece.located) i - 1)) := by
  match h with
  | @ReadsBlock.braces _ ss c₁ c₂ hbrace hss _ _ =>
    have hopened : Stands ps (i + 1) (c.withQueue []).advance :=
      Stands.advance (c := c.withQueue []) ⟨hc.ahead, hc.le⟩ hbrace
    have hqueue : (c.withQueue []).advance.queue = freeAt before ps sites (i + 1) := by
      obtain ⟨p, -, hp⟩ := passes_advance (c := c.withQueue []) hbrace
      obtain ⟨-, hget, -⟩ := Stands.split (c := c.withQueue []) ⟨hc.ahead, hc.le⟩ hopened hp.ahead
      have hget : ps[i]? = some p := hget
      rw [freeAt_of_no_stop hopen, gap_eq hget, hp.queue]
      rfl
    rw [Body.sites] at hsub ⊢
    obtain ⟨hserved, hlast⟩ := hss.served hps hsites hopened hqueue hsub
    rw [Body.stop, Nat.add_sub_cancel]
    exact ⟨hserved, by rw [comments_eq, hlast]⟩
end

end Cursor

/-! ## Comments picked by their gap -/

theorem picked_eq {ls : List (Located Lexeme)} {P : Between → Prop} [DecidablePred P] :
    picked ls P = ((numberGaps 0 (gapsOf (pieces ls).1 (pieces ls).2)).filter P).map
      fun x => x.comment.value := by
  rw [picked, between_eq]

theorem filter_gap {g : List (Located Comment)} {P : Between → Prop} [DecidablePred P] {k : Nat} :
    ((g.map (Between.mk k)).filter P).map (fun x => x.comment.value) =
      values (g.filter fun x => decide (P ⟨k, x⟩)) := by
  rw [List.filter_map, List.map_map]
  rfl

/-- What holds only of comments behind the first `k` tokens picks comments of this gap. -/
theorem picked_gap {ls : List (Located Lexeme)} {P : Between → Prop} [DecidablePred P] {k : Nat}
    (hk : k ≤ (pieces ls).2.length) (hP : ∀ x, P x → x.index = k) :
    picked ls P = values (((gapsOf (pieces ls).1 (pieces ls).2).getD k []).filter fun x =>
      decide (P ⟨k, x⟩)) := by
  have hlen : k < (gapsOf (pieces ls).1 (pieces ls).2).length := by
    rw [gapsOf, List.length_cons, List.length_map]
    omega
  have hgap : ((gapsOf (pieces ls).1 (pieces ls).2).drop k).take 1 =
      [(gapsOf (pieces ls).1 (pieces ls).2).getD k []] := by
    rw [List.drop_eq_getElem_cons hlen, List.take_succ_cons, List.take_zero,
      List.getElem_eq_getD []]
  have hone : ∀ x, P x → k ≤ x.index ∧ x.index < k + 1 := by
    intro x hx
    rw [hP x hx]
    omega
  rw [picked_eq, filter_numberGaps (Nat.le_of_lt hlen) hone, hgap]
  simp only [numberGaps, List.append_nil, filter_gap]

/-- The same for the gaps from `i` to `j`, where all comments but those of the first gap are picked. -/
theorem picked_gaps {ls : List (Located Lexeme)} {P : Between → Prop} [DecidablePred P] {i j : Nat}
    (hij : i ≤ j) (hj : j ≤ (pieces ls).2.length) (hP : ∀ x, P x → i ≤ x.index ∧ x.index ≤ j)
    (hall : ∀ x : Between, i < x.index → x.index ≤ j → P x) :
    picked ls P = values (((gapsOf (pieces ls).1 (pieces ls).2).getD i []).filter fun x =>
      decide (P ⟨i, x⟩)) ++ values ((((pieces ls).2.drop i).take (j - i)).flatMap Piece.after) := by
  have hlen : i < (gapsOf (pieces ls).1 (pieces ls).2).length := by
    rw [gapsOf, List.length_cons, List.length_map]
    omega
  have hbetween : ∀ x, P x → i ≤ x.index ∧ x.index < i + (j - i + 1) := by
    intro x hx
    have := hP x hx
    omega
  have hgaps : ((gapsOf (pieces ls).1 (pieces ls).2).drop i).take (j - i + 1) =
      (gapsOf (pieces ls).1 (pieces ls).2).getD i [] ::
        (((pieces ls).2.drop i).take (j - i)).map Piece.after := by
    rw [List.drop_eq_getElem_cons hlen, List.take_succ_cons, List.getElem_eq_getD [], gapsOf,
      List.drop_succ_cons, ← List.map_drop, ← List.map_take]
  have hrest : (numberGaps (i + 1) ((((pieces ls).2.drop i).take (j - i)).map Piece.after)).filter P =
      numberGaps (i + 1) ((((pieces ls).2.drop i).take (j - i)).map Piece.after) := by
    rw [List.filter_eq_self]
    intro x hx
    have hindex := index_of_mem_numberGaps hx
    rw [List.length_map, List.length_take, List.length_drop] at hindex
    exact decide_eq_true (hall x (by omega) (by omega))
  rw [picked_eq, filter_numberGaps (Nat.le_of_lt hlen) hbetween, hgaps, numberGaps, List.filter_append,
    List.map_append, filter_gap, hrest, comments_numberGaps, ← List.flatMap_def]

end

/-! ## Which statement a comment leads -/

section
variable {toks : List (Located Token)} {ss : List Stmt} {m n : Site} {k : Nat}

theorem laminar_sites (hstop : stmtsStop toks 0 ss = toks.length) :
    Laminar toks 0 toks.length (stmtsSites toks 0 ss) :=
  hstop ▸ laminar_stmts 0 ss

/-- A token in a body that does not close it is of a statement of the body. -/
theorem exists_site_inside (hstop : stmtsStop toks 0 ss = toks.length)
    (hn : n ∈ stmtsSites toks 0 ss) (hhead : n.head toks < k) (hk : k < n.stop) (hclose : ¬ n.Closes k) :
    ∃ m ∈ stmtsSites toks 0 ss, n.head toks < m.start ∧ m.start ≤ k ∧ k < m.stop ∧ m.stop < n.stop := by
  have hstop := (laminar_sites hstop).stop_eq n hn
  cases hb : n.stmt.form.body? with
  | none =>
    have hlast : n.head toks = n.stop - 1 := by
      rw [Site.head, (Form.of_body?_none hb).2, hstop]
    omega
  | some b =>
    have hsites : n.stmt.form.sites toks n.start = stmtsSites toks (n.head toks + 1) b.stmts :=
      (Form.of_body? hb).1
    have hend : n.stop = stmtsStop toks (n.head toks + 1) b.stmts + 1 :=
      hstop.trans (Form.of_body? hb).2
    have hlast : n.stop ≠ k + 1 := fun heq => hclose ⟨by rw [hb]; rfl, heq⟩
    have hk : k < stmtsStop toks (n.head toks + 1) b.stmts := by omega
    obtain ⟨m, hm, hstart, hstop'⟩ := exists_site_of_lt (Nat.succ_le_of_lt hhead) hk
    have hwithin := (laminar_stmts (n.head toks + 1) b.stmts).within m hm
    refine ⟨m, sites_subset_stmts 0 ss n hn m (hsites ▸ hm), ?_, hstart, hstop', ?_⟩
    · exact hwithin.1
    · omega

/-- A comment leads the statement with the tokens around it, up to the head of that statement. -/
theorem Between.leads_iff (hstop : stmtsStop toks 0 ss = toks.length) (hn : n ∈ stmtsSites toks 0 ss)
    (x : Between) : x.Leads toks (stmtsSites toks 0 ss) n ↔
      x.Free toks (stmtsSites toks 0 ss) ∧ n.start ≤ x.index ∧ x.index ≤ n.head toks := by
  have hsites := laminar_sites hstop
  have hbounds := hsites.bounds hn
  constructor
  · intro h
    obtain ⟨hfree, hlt, hclose, howner⟩ := h
    refine ⟨hfree, ?_⟩
    rcases howner with heq | ⟨hfirst, ⟨hstart, hend⟩, hinner⟩
    · omega
    · refine ⟨by omega, Nat.le_of_not_lt fun hhead => ?_⟩
      -- past the head, a statement of the body is around the comment and further in
      obtain ⟨m, hm, hin, hle, hgt, -⟩ := exists_site_inside hstop hn hhead hend (hclose n hn)
      have hne := hfirst m hm
      have := hinner m hm ⟨by omega, hgt⟩
      omega
  · intro h
    obtain ⟨hfree, hstart, hhead⟩ := h
    have hwithin := hsites.within n hn
    refine ⟨hfree, by omega, ?_, ?_⟩
    · intro m hm hclose
      obtain ⟨hbody, hlast⟩ := hclose
      obtain ⟨b, hb⟩ := Option.isSome_iff_exists.mp hbody
      have hbm := hsites.body_bounds hm hb
      have hbm' := hsites.bounds hm
      rcases hsites.eq_or_apart hm hn with rfl | hapart
      · omega
      · unfold Site.Apart at hapart
        omega
    · by_cases heq : n.start = x.index
      · exact .inl heq
      · refine .inr ⟨?_, ⟨by omega, by omega⟩, ?_⟩
        · intro m hm
          have hbm := hsites.bounds hm
          rcases hsites.eq_or_apart hm hn with rfl | hapart
          · exact heq
          · unfold Site.Apart at hapart
            omega
        · intro m hm haround
          obtain ⟨hlo, hhi⟩ := haround
          have hbm := hsites.bounds hm
          rcases hsites.eq_or_apart hm hn with rfl | hapart
          · exact ⟨Nat.le_refl _, Nat.le_refl _⟩
          · unfold Site.Apart at hapart
            omega

/-- From any statement around a token the way inwards ends at one with the token in its head. -/
theorem exists_head_of_not_closes {n : Site} (hstop : stmtsStop toks 0 ss = toks.length)
    (hclose : ∀ m ∈ stmtsSites toks 0 ss, ¬ m.Closes k) (hn : n ∈ stmtsSites toks 0 ss)
    (hstart : n.start ≤ k) (hk : k < n.stop) :
    ∃ m ∈ stmtsSites toks 0 ss, m.start ≤ k ∧ k ≤ m.head toks := by
  by_cases hhead : k ≤ n.head toks
  · exact ⟨n, hn, hstart, hhead⟩
  · obtain ⟨m, hm, hin, hle, hgt, hlt⟩ :=
      exists_site_inside hstop hn (Nat.lt_of_not_le hhead) hk (hclose n hn)
    exact exists_head_of_not_closes hstop hclose hm hle hgt
termination_by n.stop

/-- Up to its head, a statement has no end of another one. -/
theorem Laminar.free_in_head {j : Nat} {sites : List Site} (h : Laminar toks 0 j sites) (hn : n ∈ sites)
    {x : Between} (hstart : n.start < x.index) (hhead : x.index ≤ n.head toks) : x.Free toks sites := by
  intro m hm htrails
  have hlast := htrails.1
  have hbn := h.bounds hn
  have hbm := h.bounds hm
  rcases h.eq_or_apart hm hn with rfl | hapart
  · omega
  · unfold Site.Apart at hapart
    omega

end

/-! ## Programs -/

theorem Lexed.inOrder {p : Position} {cs : List Char} {ls : List (Located Lexeme)} (h : Lexed p cs ls) :
    InOrder (pieces ls).2 := by
  refine ⟨h.orderly, fun p hp => ?_⟩
  have hin := (Lexed.pairwise_pieces h.ordered).1 p hp
  rw [Piece.lexemes, List.pairwise_cons] at hin
  refine (List.pairwise_map.mp hin.2).imp_of_mem fun {x y} hx _ hxy hy => ?_
  have hbefore := (hin.1 x.lexeme (List.mem_map_of_mem hx)).line_le
  have hmem : x.lexeme ∈ p.lexemes := List.mem_cons_of_mem _ (List.mem_map_of_mem hx)
  have hlines : x.span.start.line ≤ x.span.stop.line :=
    Position.Reaches.line_le ⟨_, (h.span _ (mem_of_mem_pieces hp _ hmem)).1⟩
  have hafter := hxy.line_le
  simp only [startsOnLine, decide_eq_true_eq, Located.lexeme, Piece.lexeme] at *
  omega

section
variable {ls : List (Located Lexeme)} {ss : List Stmt}

/-- A statement owns the comments that the rule gives it. -/
theorem Served.owns (hstop : stmtsStop (significant ls) 0 ss = (significant ls).length) {n : Site}
    (hn : n ∈ stmtsSites (significant ls) 0 ss)
    (h : Served (pieces ls).1 (pieces ls).2 (stmtsSites (significant ls) 0 ss) n) :
    n.stmt.leading = picked ls (·.Leads (significant ls) (stmtsSites (significant ls) 0 ss) n) ∧
      n.stmt.trailing = picked ls (·.Trails (significant ls) n) ∧
      ∀ b, n.stmt.form.body? = some b →
        b.dangling =
          picked ls (·.Dangles (significant ls) (stmtsSites (significant ls) 0 ss) (n.stop - 1)) := by
  have hsites := laminar_sites hstop
  have hwithin := hsites.within n hn
  have hbounds := hsites.bounds hn
  have hlen : (significant ls).length = (pieces ls).2.length := by
    rw [significant_eq, List.length_map]
  obtain ⟨-, hleading, htrailing, hdangling⟩ := h
  rw [← significant_eq] at hleading
  simp only [freeAt, ← significant_eq] at hleading htrailing hdangling
  refine ⟨?_, ?_, fun b hb => ?_⟩
  · rw [hleading, values_append, picked_gaps hbounds.1 (by omega)]
    · congr 2
      refine List.filter_congr fun x _ => ?_
      rw [decide_eq_decide, Between.leads_iff hstop hn]
      exact ⟨fun hfree => ⟨hfree, Nat.le_refl _, hbounds.1⟩, fun h => h.1⟩
    · exact fun x hx => ((Between.leads_iff hstop hn x).mp hx).2
    · intro x hlo hhi
      exact (Between.leads_iff hstop hn x).mpr ⟨hsites.free_in_head hn hlo hhi, by omega, hhi⟩
  · rw [htrailing, picked_gap (by omega) fun x hx => hx.1.symm]
  · rw [hdangling b hb, picked_gap (by omega) fun x hx => hx.2]
    simp only [Between.Dangles, and_true]

/-- The rule finds an owner for every comment. -/
theorem exists_owner (hstop : stmtsStop (significant ls) 0 ss = (significant ls).length) {x : Between}
    (hx : x ∈ between 0 ls) :
    (∃ n ∈ stmtsSites (significant ls) 0 ss, x.Trails (significant ls) n) ∨
      (x.Dangles (significant ls) (stmtsSites (significant ls) 0 ss) (significant ls).length) ∨
      (∃ n ∈ stmtsSites (significant ls) 0 ss, n.stmt.form.body?.isSome = true ∧
        x.Dangles (significant ls) (stmtsSites (significant ls) 0 ss) (n.stop - 1)) ∨
      ∃ n ∈ stmtsSites (significant ls) 0 ss,
        x.Leads (significant ls) (stmtsSites (significant ls) 0 ss) n := by
  have hindex : x.index ≤ (significant ls).length := by
    rw [between_eq] at hx
    have := (index_of_mem_numberGaps hx).2
    rw [gapsOf, List.length_cons, List.length_map] at this
    rw [significant_eq, List.length_map]
    omega
  by_cases hfree : x.Free (significant ls) (stmtsSites (significant ls) 0 ss)
  · right
    by_cases hend : x.index = (significant ls).length
    · exact .inl ⟨hfree, hend⟩
    by_cases hclose : ∃ n ∈ stmtsSites (significant ls) 0 ss, n.Closes x.index
    · obtain ⟨n, hn, hbody, hlast⟩ := hclose
      exact .inr (.inl ⟨n, hn, hbody, hfree, by omega⟩)
    · have hclose : ∀ m ∈ stmtsSites (significant ls) 0 ss, ¬ m.Closes x.index :=
        fun m hm hcloses => hclose ⟨m, hm, hcloses⟩
      have hlt : x.index < stmtsStop (significant ls) 0 ss := by omega
      obtain ⟨m, hm, hlo, hhi⟩ := exists_site_of_lt (Nat.zero_le _) hlt
      obtain ⟨n, hn, hrange⟩ := exists_head_of_not_closes hstop hclose hm hlo hhi
      exact .inr (.inr ⟨n, hn, (Between.leads_iff hstop hn x).mpr ⟨hfree, hrange⟩⟩)
  · left
    unfold Between.Free at hfree
    push Not at hfree
    exact hfree

end

/-- The neighbours of a comment decide who owns it. Each statement of a program stands at a range of
tokens that derive it; its leading and its trailing comments, and the dangling ones of its body, are
the comments of the text that the rule gives them, in the order of the text, and the rule finds an
owner for every comment. -/
theorem comments_owned_by_neighbours {text : String} {b : Body}
    (h : Fragment.program.parse text = .ok b) :
    ∃ ls toks sites, tokenize text = .ok ls ∧ significant ls = toks ∧
      stmtsSites toks 0 b.stmts = sites ∧
      (∀ n ∈ sites,
        DerivesForm ((toks.drop n.start).take (n.stop - n.start)) (toks.drop n.stop)
          n.stmt.form.bare ∧
        n.stmt.leading = picked ls (·.Leads toks sites n) ∧
        n.stmt.trailing = picked ls (·.Trails toks n) ∧
        ∀ inner, n.stmt.form.body? = some inner →
          inner.dangling = picked ls (·.Dangles toks sites (n.stop - 1))) ∧
      b.dangling = picked ls (·.Dangles toks sites toks.length) ∧
      ∀ x ∈ between 0 ls, (∃ n ∈ sites, x.Trails toks n) ∨ x.Dangles toks sites toks.length ∨
        (∃ n ∈ sites, n.stmt.form.body?.isSome = true ∧ x.Dangles toks sites (n.stop - 1)) ∨
        ∃ n ∈ sites, x.Leads toks sites n := by
  obtain ⟨ls, hls, c', hread⟩ := Fragment.parse_eq_ok_iff.mp h
  obtain ⟨ss, c₁, hss, rfl, -⟩ := Fragment.read_program_iff.mp hread
  have hlexed := tokenize_eq_ok_iff.mp hls
  have hstart : Cursor.Stands (pieces ls).2 0 (Cursor.start text ls) := ⟨rfl, Nat.zero_le _⟩
  have hlen : (significant ls).length = (pieces ls).2.length := by
    rw [significant_eq, List.length_map]
  have hstop : stmtsStop (significant ls) 0 ss = (significant ls).length := by
    have hend := hss.stands hstart
    have hnil := Cursor.ahead_eq_nil hss.token?_eq
    rw [hend.ahead, List.drop_eq_nil_iff, ← significant_eq] at hnil
    have hle := hend.le
    rw [← significant_eq] at hle
    omega
  have hsites := laminar_sites hstop
  have hqueue : (Cursor.start text ls).queue =
      freeAt (pieces ls).1 (pieces ls).2 (stmtsSites (significant ls) 0 ss) 0 := by
    rw [freeAt_of_no_stop]
    · rfl
    · intro n hn
      have := hsites.bounds hn
      omega
  rw [significant_eq] at hsites hqueue
  obtain ⟨hserved, hlast⟩ :=
    hss.served hlexed.inOrder hsites hstart hqueue fun n hn => hn
  rw [← significant_eq] at hserved hlast
  rw [hstop] at hlast
  refine ⟨ls, _, _, hls, rfl, rfl, fun n hn => ⟨?_, (hserved n hn).owns hstop hn⟩, ?_, ?_⟩
  · rw [significant_eq]
    exact (hserved n hn).derives
  · rw [picked_gap (Nat.le_of_eq hlen) fun x hx => hx.2, Cursor.comments_eq, hlast, freeAt,
      significant_eq]
    simp only [Between.Dangles, and_true]
  · exact fun x hx => exists_owner hstop hx

/-- Comments around an assignment, in a block behind its only statement, and at the end. -/
theorem comments_owned_by_neighbours_nested :
    ∃ ls toks sites, tokenize "/*a*/ q /*b*/ = 1; // c\n\x7b p\n/*d*/ \x7d\n/*e*/" = .ok ls ∧
      significant ls = toks ∧
      stmtsSites toks 0 [⟨[⟨.block, "/*a*/"⟩, ⟨.block, "/*b*/"⟩],
        .expr (.assign "q" (.number ⟨"1"⟩)), [⟨.line, "// c"⟩]⟩,
        ⟨[], .block ⟨[⟨[], .expr (.ident "p"), []⟩], [⟨.block, "/*d*/"⟩]⟩, []⟩] = sites ∧
      (∀ n ∈ sites, n.stmt.leading = picked ls (·.Leads toks sites n) ∧
        n.stmt.trailing = picked ls (·.Trails toks n)) ∧
      [⟨.block, "/*e*/"⟩] = picked ls (·.Dangles toks sites toks.length) := by
  have h : Fragment.program.parse "/*a*/ q /*b*/ = 1; // c\n\x7b p\n/*d*/ \x7d\n/*e*/" =
      .ok ⟨[⟨[⟨.block, "/*a*/"⟩, ⟨.block, "/*b*/"⟩], .expr (.assign "q" (.number ⟨"1"⟩)),
        [⟨.line, "// c"⟩]⟩, ⟨[], .block ⟨[⟨[], .expr (.ident "p"), []⟩], [⟨.block, "/*d*/"⟩]⟩, []⟩],
        [⟨.block, "/*e*/"⟩]⟩ := by cbv
  obtain ⟨ls, toks, sites, hls, htoks, hsites, hstmts, hend, -⟩ := comments_owned_by_neighbours h
  refine ⟨ls, toks, sites, hls, htoks, hsites, fun n hn => ?_, hend⟩
  obtain ⟨-, hleading, htrailing, -⟩ := hstmts n hn
  exact ⟨hleading, htrailing⟩

end Reprint
