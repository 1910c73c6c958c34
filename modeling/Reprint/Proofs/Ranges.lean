import Reprint.Proofs.Grammar

/-!
# Where statements stand

The tokens of a text are counted from zero. From its first token on, a statement has as many tokens
as its tree asks for, and one more when the semicolon that may end it is there (`Form.stop`). The
`sites` of a tree are its statements at any depth with the range of their tokens. Of two statements
one is inside the body of the other or the ranges are disjoint (`laminar_stmts`), the statements of a
body leave no token out (`exists_site_of_lt`), and reading a statement passes the tokens of its range
(`ReadsStmts.stands`).
-/

namespace Reprint

/-! ## Counting tokens -/

def Expr.width : Expr → Nat
  | .paren inner => inner.width + 2
  | .assign _ value => value.width + 2
  | _ => 1

def Declarator.width (d : Declarator) : Nat :=
  match d.init with
  | none => 1
  | some e => e.width + 2

/-- Items with commas between them. -/
def commaWidth {α : Type} (width : α → Nat) : List α → Nat
  | [] => 0
  | [a] => width a
  | a :: as => width a + 1 + commaWidth width as

/-- The tokens of a function in front of its body. -/
def headWidth (params : List String) : Nat := commaWidth (fun _ => 1) params + 4

section
variable (toks : List (Located Token))

/-- Behind the semicolon at `i`, if there is one. -/
def behindSemicolon (i : Nat) : Nat :=
  if toks[i]?.map Located.value = some .semicolon then i + 1 else i

mutual
/-- The place behind the last token of a form whose first token is at `i`. -/
def Form.stop (i : Nat) : Form → Nat
  | .block b => b.stop i
  | .empty => i + 1
  | .function _ params b => b.stop (i + headWidth params)
  | .var ds => behindSemicolon toks (i + 1 + commaWidth Declarator.width ds)
  | .expr e => behindSemicolon toks (i + e.width)
/-- The same for a body whose opening brace is at `i`. -/
def Body.stop (i : Nat) : Body → Nat
  | ⟨ss, _⟩ => stmtsStop (i + 1) ss + 1
def stmtsStop (i : Nat) : List Stmt → Nat
  | [] => i
  | ⟨_, f, _⟩ :: ss => stmtsStop (f.stop i) ss
end

/-- A statement with the range of its tokens: the first is at `start`, and `stop` is behind the
last. -/
structure Site where
  start : Nat
  stop : Nat
  stmt : Stmt

mutual
def Stmt.sites (i : Nat) : Stmt → List Site
  | ⟨leading, f, trailing⟩ => ⟨i, f.stop toks i, ⟨leading, f, trailing⟩⟩ :: f.sites i
def Form.sites (i : Nat) : Form → List Site
  | .block b => b.sites i
  | .function _ params b => b.sites (i + headWidth params)
  | .empty | .var _ | .expr _ => []
def Body.sites (i : Nat) : Body → List Site
  | ⟨ss, _⟩ => stmtsSites (i + 1) ss
/-- The statements at any depth, in the order of their first tokens. -/
def stmtsSites (i : Nat) : List Stmt → List Site
  | [] => []
  | ⟨leading, f, trailing⟩ :: ss =>
    Stmt.sites i ⟨leading, f, trailing⟩ ++ stmtsSites (f.stop toks i) ss
end

def Form.body? : Form → Option Body
  | .block b => some b
  | .function _ _ b => some b
  | .empty | .var _ | .expr _ => none

/-- The opening brace of the body, or the last token where there is no body. -/
def Form.head (i : Nat) : Form → Nat
  | .block _ => i
  | .function _ params _ => i + headWidth params
  | f => f.stop toks i - 1

def Site.head (n : Site) : Nat := n.stmt.form.head toks n.start

theorem le_behindSemicolon (i : Nat) : i ≤ behindSemicolon toks i := by
  unfold behindSemicolon
  split <;> omega

theorem Expr.width_pos (e : Expr) : 0 < e.width := by
  cases e <;> simp [Expr.width]

mutual
theorem Form.lt_stop (i : Nat) (f : Form) : i < f.stop toks i := by
  match f with
  | .block b =>
    have := b.lt_stop i
    rw [Form.stop]
    omega
  | .empty => simp [Form.stop]
  | .function name params b =>
    have := b.lt_stop (i + headWidth params)
    rw [Form.stop]
    omega
  | .var ds =>
    have := le_behindSemicolon toks (i + 1 + commaWidth Declarator.width ds)
    rw [Form.stop]
    omega
  | .expr e =>
    have := le_behindSemicolon toks (i + e.width)
    have := e.width_pos
    rw [Form.stop]
    omega

theorem Body.lt_stop (i : Nat) (b : Body) : i + 1 < b.stop toks i := by
  match b with
  | ⟨ss, dangling⟩ =>
    have := le_stmtsStop (i + 1) ss
    rw [Body.stop]
    omega

theorem le_stmtsStop (i : Nat) (ss : List Stmt) : i ≤ stmtsStop toks i ss := by
  match ss with
  | [] => simp [stmtsStop]
  | ⟨leading, f, trailing⟩ :: ss =>
    have := f.lt_stop i
    have := le_stmtsStop (f.stop toks i) ss
    rw [stmtsStop]
    omega
end

variable {toks} {i j k : Nat}

theorem Form.of_body? {f : Form} {b : Body} (h : f.body? = some b) :
    f.sites toks i = stmtsSites toks (f.head toks i + 1) b.stmts ∧
      f.stop toks i = stmtsStop toks (f.head toks i + 1) b.stmts + 1 := by
  obtain ⟨ss, dangling⟩ := b
  cases f with
  | block _ =>
    cases h
    rw [Form.sites, Body.sites, Form.stop, Body.stop]
    exact ⟨rfl, rfl⟩
  | function name params _ =>
    cases h
    rw [Form.sites, Body.sites, Form.stop, Body.stop]
    exact ⟨rfl, rfl⟩
  | _ => cases h

theorem Form.of_body?_none {f : Form} (h : f.body? = none) :
    f.sites toks i = [] ∧ f.head toks i = f.stop toks i - 1 := by
  cases f with
  | block b' => cases h
  | function name params b' => cases h
  | _ =>
    rw [Form.sites]
    exact ⟨rfl, rfl⟩

theorem Form.head_bounds (toks : List (Located Token)) (i : Nat) (f : Form) :
    i ≤ f.head toks i ∧ f.head toks i < f.stop toks i := by
  have hlt := f.lt_stop toks i
  cases hb : f.body? with
  | none =>
    rw [(Form.of_body?_none hb).2]
    omega
  | some b =>
    have hle := le_stmtsStop toks (f.head toks i + 1) b.stmts
    rw [(Form.of_body? hb).2]
    refine ⟨?_, by omega⟩
    cases f with
    | block b' => exact Nat.le_refl _
    | function name params b' => exact Nat.le_add_right ..
    | _ => cases hb

/-! ## Ranges are nested or disjoint -/

/-- Where one of two statements stands from the other: before it, behind it, in its body, or around
it. -/
def Site.Apart (toks : List (Located Token)) (m n : Site) : Prop :=
  m.stop ≤ n.start ∨ n.stop ≤ m.start ∨ (m.head toks < n.start ∧ n.stop < m.stop) ∨
    (n.head toks < m.start ∧ m.stop < n.stop)

instance : Std.Symm (Site.Apart toks) := by
  constructor
  intro m n h
  unfold Site.Apart at h ⊢
  omega

/-- The sites are ranges between `i` and `j` that do not cross. -/
structure Laminar (toks : List (Located Token)) (i j : Nat) (sites : List Site) : Prop where
  within : ∀ n ∈ sites, i ≤ n.start ∧ n.stop ≤ j
  stop_eq : ∀ n ∈ sites, n.stop = n.stmt.form.stop toks n.start
  apart : sites.Pairwise (Site.Apart toks)

theorem Laminar.nil : Laminar toks i j [] :=
  ⟨by simp, by simp, .nil⟩

theorem Laminar.append {as bs : List Site} (ha : Laminar toks i j as) (hb : Laminar toks j k bs)
    (hij : i ≤ j) (hjk : j ≤ k) : Laminar toks i k (as ++ bs) := by
  refine ⟨?_, ?_, List.pairwise_append.mpr ⟨ha.apart, hb.apart, ?_⟩⟩
  · intro n hn
    rcases List.mem_append.mp hn with hn | hn
    · have := ha.within n hn
      omega
    · have := hb.within n hn
      omega
  · intro n hn
    rcases List.mem_append.mp hn with hn | hn
    · exact ha.stop_eq n hn
    · exact hb.stop_eq n hn
  · intro m hm n hn
    have h₁ := ha.within m hm
    have h₂ := hb.within n hn
    exact .inl (by omega)

mutual
theorem laminar_stmts (i : Nat) (ss : List Stmt) :
    Laminar toks i (stmtsStop toks i ss) (stmtsSites toks i ss) := by
  match ss with
  | [] =>
    rw [stmtsSites]
    exact .nil
  | ⟨leading, f, trailing⟩ :: ss =>
    have hlt := f.lt_stop toks i
    have hle := le_stmtsStop toks (f.stop toks i) ss
    have hrest := laminar_stmts (f.stop toks i) ss
    have hform := laminar_form i f
    have hhead := f.head_bounds toks i
    rw [stmtsSites, Stmt.sites, stmtsStop]
    refine Laminar.append ⟨?_, ?_, List.pairwise_cons.mpr ⟨?_, hform.apart⟩⟩ hrest (by omega) hle
    · refine List.forall_mem_cons.mpr ⟨⟨Nat.le_refl _, Nat.le_refl _⟩, fun n hn => ?_⟩
      have := hform.within n hn
      omega
    · exact List.forall_mem_cons.mpr ⟨rfl, hform.stop_eq⟩
    · intro n hn
      have hwithin := hform.within n hn
      have hn : f.head toks i < n.start ∧ n.stop < f.stop toks i := by omega
      exact .inr (.inr (.inl hn))

theorem laminar_form (i : Nat) (f : Form) :
    Laminar toks (f.head toks i + 1) (f.stop toks i - 1) (f.sites toks i) := by
  match f with
  | .block ⟨ss, dangling⟩ =>
    rw [Form.stop, Form.sites, Body.stop, Body.sites]
    exact laminar_stmts (i + 1) ss
  | .function name params ⟨ss, dangling⟩ =>
    rw [Form.stop, Form.sites, Body.stop, Body.sites]
    exact laminar_stmts (i + headWidth params + 1) ss
  | .empty | .var _ | .expr _ =>
    rw [Form.sites]
    exact .nil
end

/-- Any two sites of a laminar list are the same or apart. -/
theorem Laminar.eq_or_apart {sites : List Site} (h : Laminar toks i j sites) {m n : Site}
    (hm : m ∈ sites) (hn : n ∈ sites) : m = n ∨ m.Apart toks n := by
  by_cases heq : m = n
  · exact .inl heq
  · exact .inr (h.apart.forall hm hn heq)

/-- The statements in a row leave out no token. -/
theorem exists_site_of_lt {ss : List Stmt} (hi : i ≤ k) (hk : k < stmtsStop toks i ss) :
    ∃ m ∈ stmtsSites toks i ss, m.start ≤ k ∧ k < m.stop := by
  induction ss generalizing i with
  | nil =>
    rw [stmtsStop] at hk
    omega
  | cons s ss ih =>
    obtain ⟨leading, f, trailing⟩ := s
    rw [stmtsStop] at hk
    rw [stmtsSites, Stmt.sites]
    by_cases hf : k < f.stop toks i
    · exact ⟨_, List.mem_cons_self .., hi, hf⟩
    · obtain ⟨m, hm, hmk⟩ := ih (Nat.le_of_not_lt hf) hk
      exact ⟨m, List.mem_append_right _ hm, hmk⟩

mutual
theorem sites_subset_stmts (i : Nat) (ss : List Stmt) : ∀ n ∈ stmtsSites toks i ss,
    ∀ m ∈ n.stmt.form.sites toks n.start, m ∈ stmtsSites toks i ss := by
  match ss with
  | [] => simp [stmtsSites]
  | ⟨leading, f, trailing⟩ :: ss =>
    rw [stmtsSites, Stmt.sites]
    intro n hn m hm
    rcases List.mem_append.mp hn with hn | hn
    · refine List.mem_append_left _ (List.mem_cons_of_mem _ ?_)
      rcases List.mem_cons.mp hn with rfl | hn
      · exact hm
      · exact sites_subset_form i f n hn m hm
    · exact List.mem_append_right _ (sites_subset_stmts (f.stop toks i) ss n hn m hm)

/-- The statements inside a statement of the list are on the list too. -/
theorem sites_subset_form (i : Nat) (f : Form) : ∀ n ∈ f.sites toks i,
    ∀ m ∈ n.stmt.form.sites toks n.start, m ∈ f.sites toks i := by
  match f with
  | .block ⟨ss, dangling⟩ =>
    rw [Form.sites, Body.sites]
    exact sites_subset_stmts (i + 1) ss
  | .function name params ⟨ss, dangling⟩ =>
    rw [Form.sites, Body.sites]
    exact sites_subset_stmts (i + headWidth params + 1) ss
  | .empty | .var _ | .expr _ => simp [Form.sites]
end

end

/-! ## Reading passes the tokens of a range -/

namespace Cursor

variable {ps : List Piece} {i : Nat} {c c' : Cursor}

/-- The cursor is in front of the token at `i`. -/
structure Stands (ps : List Piece) (i : Nat) (c : Cursor) : Prop where
  ahead : c.ahead = ps.drop i
  le : i ≤ ps.length

theorem Stands.of_eq {j : Nat} (h : Stands ps i c) (hij : i = j) : Stands ps j c := hij ▸ h

theorem Stands.token? (h : Stands ps i c) :
    c.token? = ((ps.map Piece.located)[i]?).map Located.value := by
  rw [token?_eq, tokens, h.ahead, List.map_drop, List.head?_drop]

theorem Stands.advance {t : Token} (h : Stands ps i c) (ht : c.token? = some t) :
    Stands ps (i + 1) c.advance := by
  obtain ⟨p, -, hp⟩ := passes_advance ht
  have hcons : ps.drop i = p :: c.advance.ahead := h.ahead.symm.trans hp.ahead
  have hlen := congrArg List.length hcons
  rw [List.length_drop, List.length_cons] at hlen
  refine ⟨?_, by omega⟩
  rw [← List.drop_drop, hcons]
  rfl

theorem ReadsExpr.stands {e : Expr} (h : c.ReadsExpr e c') (hc : Stands ps i c) :
    Stands ps (i + e.width) c' := by
  induction h generalizing i with
  | @operand _ t e ht hop _ =>
    have hwidth : e.width = 1 := by cases t <;> cases hop <;> rfl
    rw [hwidth]
    exact hc.advance ht
  | paren hopen _ hclose _ ih =>
    refine ((ih (hc.advance hopen)).advance hclose).of_eq ?_
    simp only [Expr.width]
    omega
  | assign hname heq _ ih =>
    refine (ih ((hc.advance hname).advance heq)).of_eq ?_
    simp only [Expr.width]
    omega

theorem ReadsNames.stands {names : List String} (h : c.ReadsNames names c') (hc : Stands ps i c) :
    Stands ps (i + commaWidth (fun _ => 1) names + 1) c' := by
  induction h generalizing i with
  | last hname hclose => exact (hc.advance hname).advance hclose
  | @more _ name names _ hname hcomma hrest ih =>
    have hnames := ih ((hc.advance hname).advance hcomma)
    have hwidth : commaWidth (fun _ => 1) (name :: names) =
        2 + commaWidth (fun _ : String => 1) names := by
      cases hrest <;> rfl
    exact hnames.of_eq (by omega)

theorem ReadsParams.stands {names : List String} (h : c.ReadsParams names c') (hc : Stands ps i c) :
    Stands ps (i + commaWidth (fun _ => 1) names + 2) c' := by
  cases h with
  | none hopen hclose => exact (hc.advance hopen).advance hclose
  | some hopen hnames => exact (hnames.stands (hc.advance hopen)).of_eq (by omega)

theorem stands_declarator {name : String} {init : Option Expr} (hname : c.token? = some (.ident name))
    (h : c.advance.ReadsInit init c') (hc : Stands ps i c) :
    Stands ps (i + Declarator.width ⟨name, init⟩) c' := by
  have hc₁ := hc.advance hname
  cases h with
  | none _ => exact hc₁
  | some heq he =>
    refine (he.stands (hc₁.advance heq)).of_eq ?_
    simp only [Declarator.width]
    omega

theorem ReadsDeclarators.stands {ds : List Declarator} (h : c.ReadsDeclarators ds c')
    (hc : Stands ps i c) : Stands ps (i + commaWidth Declarator.width ds) c' := by
  induction h generalizing i with
  | last hname hinit _ => exact stands_declarator hname hinit hc
  | @more _ name init _ ds _ hname hinit hcomma hrest ih =>
    have hds := ih ((stands_declarator hname hinit hc).advance hcomma)
    have hwidth : commaWidth Declarator.width (⟨name, init⟩ :: ds) =
        Declarator.width ⟨name, init⟩ + 1 + commaWidth Declarator.width ds := by
      cases hrest <;> rfl
    exact hds.of_eq (by omega)

theorem ReadsEnd.stands (h : c.ReadsEnd c') (hc : Stands ps i c) :
    Stands ps (behindSemicolon (ps.map Piece.located) i) c' := by
  unfold behindSemicolon
  rw [← hc.token?]
  cases h with
  | semicolon ht =>
    rw [if_pos ht]
    exact hc.advance ht
  | closeBrace ht => rwa [ht, if_neg (by simp)]
  | endOfInput ht => rwa [ht, if_neg (by simp)]
  | laterLine hne _ => rwa [if_neg hne]

mutual
theorem ReadsBlock.stands {c c' : Cursor} {b : Body} {i : Nat} (h : c.ReadsBlock b c')
    (hc : Stands ps i c) : Stands ps (b.stop (ps.map Piece.located) i) c' := by
  match h with
  | @ReadsBlock.braces _ ss c₁ c₂ hopen hss hclose hadv =>
    have hopened : Stands ps (i + 1) (c.withQueue []).advance :=
      Stands.advance (c := c.withQueue []) ⟨hc.ahead, hc.le⟩ hopen
    have hinside := hss.stands hopened
    have hclosed := Stands.advance (c := c₁.withQueue []) ⟨hinside.ahead, hinside.le⟩ hclose
    rw [hadv] at hclosed
    rw [Body.stop]
    exact ⟨hclosed.ahead, hclosed.le⟩

theorem ReadsForm.stands {c c' : Cursor} {f : Form} {i : Nat} (h : c.ReadsForm f c')
    (hc : Stands ps i c) : Stands ps (f.stop (ps.map Piece.located) i) c' := by
  match h with
  | .block hb =>
    rw [Form.stop]
    exact hb.stands hc
  | .empty ht =>
    rw [Form.stop]
    exact hc.advance ht
  | .function hfun hname hnames hb =>
    have hhead := hnames.stands ((hc.advance hfun).advance hname)
    rw [Form.stop]
    exact hb.stands (hhead.of_eq (by simp only [headWidth]; omega))
  | .var hvar hds hend =>
    rw [Form.stop]
    exact hend.stands (hds.stands (hc.advance hvar))
  | .expr he hend =>
    rw [Form.stop]
    exact hend.stands (he.stands hc)

theorem ReadsStmts.stands {close : Option Token} {c c' : Cursor} {ss : List Stmt} {i : Nat}
    (h : c.ReadsStmts close ss c') (hc : Stands ps i c) :
    Stands ps (stmtsStop (ps.map Piece.located) i ss) c' := by
  match h with
  | .nil _ =>
    rw [stmtsStop]
    exact hc
  | .cons _ _ (@ReadsStmt.owning _ f c₁ _ hf _) hss =>
    have hform := hf.stands (i := i) ⟨hc.ahead, hc.le⟩
    rw [stmtsStop]
    exact hss.stands ⟨hform.ahead, hform.le⟩
end

end Cursor

end Reprint
