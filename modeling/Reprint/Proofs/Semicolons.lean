import Reprint.Proofs.Ownership
import Reprint.Proofs.Relexing

/-!
# Semicolons that a text leaves out

Printing the tree of a text writes the tokens of the text again, in order. Nothing is added but a
semicolon behind each declaration and each expression that the text ends without one
(`Fragment.printWith_adds_semicolons`). The comments are written in order, too.
-/

namespace Reprint

/-! ## The tokens among parts -/

def Part.token? : Part → Option Token
  | lexeme (.token t) => some t
  | _ => none

def partTokens (ps : List Part) : List Token := ps.filterMap Part.token?

@[simp] theorem partTokens_nil : partTokens [] = [] := rfl

@[simp] theorem partTokens_append (ps qs : List Part) :
    partTokens (ps ++ qs) = partTokens ps ++ partTokens qs :=
  List.filterMap_append

@[simp] theorem partTokens_space (ps : List Part) : partTokens (.space :: ps) = partTokens ps := rfl

@[simp] theorem partTokens_newline (ps : List Part) : partTokens (.newline :: ps) = partTokens ps := rfl

@[simp] theorem partTokens_indent (n : Nat) (ps : List Part) :
    partTokens (.indent n :: ps) = partTokens ps := rfl

@[simp] theorem partTokens_token (t : Token) (ps : List Part) :
    partTokens (.token t :: ps) = t :: partTokens ps := rfl

@[simp] theorem partTokens_comment (c : Comment) (ps : List Part) :
    partTokens (.comment c :: ps) = partTokens ps := rfl

@[simp] theorem partTokens_lines (n : Nat) (cs : List Comment) : partTokens (lineParts n cs) = [] := by
  induction cs with
  | nil => rfl
  | cons c cs ih => simpa [lineParts] using ih

@[simp] theorem partTokens_behind (cs : List Comment) : partTokens (behindParts cs) = [] := by
  induction cs with
  | nil => rfl
  | cons c cs ih => simpa [behindParts] using ih

theorem partTokens_comma {α : Type} {item : α → List Part} (a : α) {as : List α} (h : as ≠ []) :
    partTokens (commaParts item (a :: as)) =
      partTokens (item a) ++ .comma :: partTokens (commaParts item as) := by
  obtain ⟨b, bs, rfl⟩ := List.exists_cons_of_ne_nil h
  simp [commaParts, commaTail]

theorem Body.partTokens (w d : Nat) (b : Body) : partTokens (b.blockParts w d) =
    .openBrace :: (partTokens (stmtsParts w (d + 1) b.stmts) ++ [.closeBrace]) := by
  obtain ⟨ss, dangling⟩ := b
  rcases Body.blockParts_cases w d ss dangling with ⟨rfl, rfl, h⟩ | h
  · simp [h, stmtsParts]
  · simp [h]

theorem significant_locate (p : Position) (ps : List Part) :
    (significant (locate p ps)).map Located.value = partTokens ps := by
  fun_induction locate p ps with
  | case1 p => rfl
  | case2 p x ps ih =>
    cases x with
    | token t => exact congrArg (t :: ·) ih
    | comment c => exact ih
  | case3 p ps ih => exact ih
  | case4 p ps ih => exact ih
  | case5 p n ps ih => exact ih

theorem lexemeComments_locate (p : Position) (ps : List Part) :
    lexemeComments (locate p ps) = partComments ps := by
  fun_induction locate p ps with
  | case1 p => rfl
  | case2 p x ps ih =>
    cases x with
    | token t => exact ih
    | comment c => exact congrArg (c :: ·) ih
  | case3 p ps ih => exact ih
  | case4 p ps ih => exact ih
  | case5 p n ps ih => exact ih

theorem semicolon_not_mem_expr (e : Expr) : .semicolon ∉ partTokens e.parts := by
  induction e with
  | paren inner ih => simpa [Expr.parts] using ih
  | assign target value ih => simpa [Expr.parts] using ih
  | _ => simp [Expr.parts]

theorem semicolon_not_mem_declarators (ds : List Declarator) :
    .semicolon ∉ partTokens (commaParts Declarator.parts ds) := by
  have hone (d : Declarator) : .semicolon ∉ partTokens d.parts := by
    unfold Declarator.parts
    cases d.init with
    | none => simp
    | some e => simpa using semicolon_not_mem_expr e
  match ds with
  | [] => simp [commaParts]
  | [d] => simpa [commaParts, commaTail] using hone d
  | d :: d' :: ds =>
    have ih := semicolon_not_mem_declarators (d' :: ds)
    rw [partTokens_comma d (by simp)]
    simp [hone d, ih]

/-! ## Tokens and the semicolons behind them -/

/-- A semicolon ends declarations and expressions. -/
def Form.takesSemicolon : Form → Bool
  | .var _ | .expr _ => true
  | .block _ | .empty | .function .. => false

section
variable (toks : List (Located Token))

/-- The statement should end in a semicolon and ends without. -/
def Site.Unended (n : Site) : Prop :=
  n.stmt.form.takesSemicolon = true ∧ toks[n.stop - 1]?.map Located.value ≠ some .semicolon

instance (n : Site) : Decidable (n.Unended toks) := inferInstanceAs (Decidable (_ ∧ _))

/-- A semicolon for each unended statement whose last token is in front of `k`. -/
def leftOut (sites : List Site) (k : Nat) : List Token :=
  (sites.filter fun n => n.stop = k ∧ n.Unended toks).map fun _ => .semicolon

def completed (sites : List Site) (x : Located Token × Nat) : List Token :=
  x.1.value :: leftOut toks sites (x.2 + 1)

/-- The tokens of a text in order, and what is left out behind each of them. -/
def withSemicolons (sites : List Site) : List Token := toks.zipIdx.flatMap (completed toks sites)

/-- The same from the token at `i` up to the token at `j`. -/
def stretch (sites : List Site) (i j : Nat) : List Token :=
  ((toks.zipIdx.drop i).take (j - i)).flatMap (completed toks sites)

variable {toks} {sites sites' : List Site} {n : Site} {i j k : Nat} {t : Token}

theorem withSemicolons_eq : withSemicolons toks sites = stretch toks sites 0 toks.length := by
  rw [stretch, Nat.sub_zero, List.drop_zero, ← List.length_zipIdx (l := toks) (i := 0), List.take_length]
  rfl

@[simp] theorem leftOut_nil : leftOut toks [] k = [] := rfl

theorem leftOut_append :
    leftOut toks (sites ++ sites') k = leftOut toks sites k ++ leftOut toks sites' k := by
  simp [leftOut]

theorem leftOut_of_stop_ne (h : ∀ n ∈ sites, n.stop ≠ k) : leftOut toks sites k = [] := by
  rw [leftOut, List.map_eq_nil_iff, List.filter_eq_nil_iff]
  intro n hn hk
  exact h n hn (of_decide_eq_true hk).1

theorem leftOut_cons_of_ended (h : ¬ n.Unended toks) :
    leftOut toks (n :: sites) k = leftOut toks sites k := by
  simp [leftOut, h]

theorem stretch_self : stretch toks sites i i = [] := by
  simp [stretch]

theorem stretch_append (hij : i ≤ j) (hjk : j ≤ k) :
    stretch toks sites i k = stretch toks sites i j ++ stretch toks sites j k := by
  have hlen : k - i = (j - i) + (k - j) := by omega
  rw [stretch, hlen, List.take_add, List.flatMap_append, List.drop_drop, Nat.add_sub_cancel' hij]
  rfl

theorem stretch_one (h : toks[i]?.map Located.value = some t) :
    stretch toks sites i (i + 1) = t :: leftOut toks sites (i + 1) := by
  obtain ⟨l, hl, rfl⟩ := Option.map_eq_some_iff.mp h
  have hget : toks.zipIdx[i]? = some (l, i) := by simp [hl]
  have hdrop : (toks.zipIdx.drop i).take 1 = [(l, i)] := by
    rw [List.take_one, List.head?_drop, hget]
    rfl
  rw [stretch, Nat.add_sub_cancel_left, hdrop]
  simp [completed]

theorem stretch_congr (h : ∀ k, i < k → k ≤ j → leftOut toks sites k = leftOut toks sites' k) :
    stretch toks sites i j = stretch toks sites' i j := by
  unfold stretch
  apply List.flatMap_congr
  intro x hx
  obtain ⟨m, hm⟩ := List.mem_iff_getElem?.mp hx
  rw [List.getElem?_take, List.getElem?_drop, List.getElem?_zipIdx] at hm
  split at hm
  · obtain ⟨l, -, rfl⟩ := Option.map_eq_some_iff.mp hm
    rw [completed, completed, h _ (by omega) (by omega)]
  · cases hm

/-- Statements that do not end on a stretch leave nothing out there. -/
theorem leftOut_outside (h : ∀ n ∈ sites, n.stop ≤ i ∨ j < n.stop) (hik : i < k) (hkj : k ≤ j) :
    leftOut toks sites k = [] := by
  apply leftOut_of_stop_ne
  intro n hn hk
  have := h n hn
  omega

theorem stretch_append_left (h : ∀ n ∈ sites', n.stop ≤ i ∨ j < n.stop) :
    stretch toks (sites ++ sites') i j = stretch toks sites i j := by
  apply stretch_congr
  intro k hik hkj
  rw [leftOut_append, leftOut_outside h hik hkj, List.append_nil]

theorem stretch_append_right (h : ∀ n ∈ sites, n.stop ≤ i ∨ j < n.stop) :
    stretch toks (sites ++ sites') i j = stretch toks sites' i j := by
  apply stretch_congr
  intro k hik hkj
  rw [leftOut_append, leftOut_outside h hik hkj, List.nil_append]

theorem stretch_outside (h : ∀ n ∈ sites, n.stop ≤ i ∨ j < n.stop) :
    stretch toks sites i j = stretch toks [] i j := by
  rw [← List.nil_append sites]
  exact stretch_append_left h

theorem stretch_cons_of_ended (h : ¬ n.Unended toks) :
    stretch toks (n :: sites) i j = stretch toks sites i j := by
  apply stretch_congr
  intro k _ _
  exact leftOut_cons_of_ended h

/-- A statement that takes a semicolon is completed with one, unless the text has it. -/
theorem stretch_of_takesSemicolon (hform : n.stmt.form.takesSemicolon = true)
    (hstop : n.stop = behindSemicolon toks j) (hij : i < j) (hj : j ≤ toks.length)
    (hno : .semicolon ∉ stretch toks [] i j) :
    stretch toks [n] i (behindSemicolon toks j) = stretch toks [] i j ++ [.semicolon] := by
  unfold behindSemicolon at hstop ⊢
  by_cases hsemi : toks[j]?.map Located.value = some .semicolon
  · rw [if_pos hsemi] at hstop ⊢
    have hclosed : ¬ n.Unended toks := by
      intro hun
      apply hun.2
      rwa [hstop, Nat.add_sub_cancel]
    rw [stretch_cons_of_ended hclosed, stretch_append (Nat.le_of_lt hij) (Nat.le_add_right j 1),
      stretch_one hsemi, leftOut_nil]
  · -- the last token is no semicolon, so the statement is unended and one is left out behind it
    rw [if_neg hsemi] at hstop ⊢
    obtain ⟨last, rfl⟩ : ∃ last, j = last + 1 := ⟨j - 1, by omega⟩
    obtain ⟨t, ht⟩ : ∃ t, toks[last]?.map Located.value = some t := by
      rw [List.getElem?_eq_getElem hj]
      exact ⟨_, rfl⟩
    have hsplit (sites : List Site) : stretch toks sites i (last + 1) =
        stretch toks sites i last ++ t :: leftOut toks sites (last + 1) := by
      rw [stretch_append (Nat.le_of_lt_succ hij) (Nat.le_add_right last 1), stretch_one ht]
    rw [hsplit, leftOut_nil] at hno
    have hun : n.Unended toks := by
      refine ⟨hform, ?_⟩
      rw [hstop, Nat.add_sub_cancel, ht]
      intro heq
      simp [Option.some.inj heq] at hno
    have hbefore : stretch toks [n] i last = stretch toks [] i last := by
      apply stretch_outside
      simp [hstop]
    rw [hsplit, hsplit, hbefore, leftOut_nil]
    simp [leftOut, hstop, hun]

mutual
theorem stmt_sites (i : Nat) (s : Stmt) : (s.sites toks i).map Site.stmt = s.within := by
  match s with
  | ⟨leading, f, trailing⟩ => simp [Stmt.sites, Stmt.within, stmt_formSites i f]

theorem stmt_formSites (i : Nat) (f : Form) : (f.sites toks i).map Site.stmt = f.within := by
  match f with
  | .block b => simp [Form.sites, Form.within, stmt_bodySites i b]
  | .function name params b =>
    simp [Form.sites, Form.within, stmt_bodySites (i + headWidth params) b]
  | .empty | .var _ | .expr _ => simp [Form.sites, Form.within]

theorem stmt_bodySites (i : Nat) (b : Body) : (b.sites toks i).map Site.stmt = b.within := by
  match b with
  | ⟨ss, dangling⟩ => simp [Body.sites, Body.within, stmt_stmtsSites (i + 1) ss]

theorem stmt_stmtsSites (i : Nat) (ss : List Stmt) :
    (stmtsSites toks i ss).map Site.stmt = stmtsWithin ss := by
  match ss with
  | [] => simp [stmtsSites, stmtsWithin]
  | ⟨leading, f, trailing⟩ :: ss =>
    simp [stmtsSites, stmtsWithin, stmt_sites i ⟨leading, f, trailing⟩,
      stmt_stmtsSites (f.stop toks i) ss]
end

end

/-! ## What is read is printed again -/

namespace Cursor

variable {ps : List Piece} {i j : Nat} {c c' : Cursor} {t : Token}

theorem Stands.stretch_cons (hc : Stands ps i c) (ht : c.token? = some t) (hij : i + 1 ≤ j) :
    stretch (ps.map Piece.located) [] i j = t :: stretch (ps.map Piece.located) [] (i + 1) j := by
  rw [stretch_append (Nat.le_add_right i 1) hij, stretch_one (hc.token?.symm.trans ht)]
  rfl

theorem Stands.stretch_concat (hc : Stands ps j c) (ht : c.token? = some t) (hij : i ≤ j) :
    stretch (ps.map Piece.located) [] i (j + 1) = stretch (ps.map Piece.located) [] i j ++ [t] := by
  rw [stretch_append hij (Nat.le_add_right j 1), stretch_one (hc.token?.symm.trans ht)]
  rfl

theorem ReadsExpr.stretch_eq {e : Expr} (h : c.ReadsExpr e c') (hc : Stands ps i c) :
    stretch (ps.map Piece.located) [] i (i + e.width) = partTokens e.parts := by
  induction h generalizing i with
  | @operand _ t e ht hop _ =>
    have hone : e.width = 1 ∧ partTokens e.parts = [t] := by cases t <;> cases hop <;> exact ⟨rfl, rfl⟩
    rw [hone.1, hone.2, hc.stretch_cons ht (Nat.le_refl _), stretch_self]
  | @paren _ e _ hopen hread hclose _ ih =>
    have hc₁ := hc.advance hopen
    have hwidth : i + (Expr.paren e).width = i + 1 + e.width + 1 := by
      rw [Expr.width]
      omega
    rw [hwidth, hc.stretch_cons hopen (by omega), (hread.stands hc₁).stretch_concat hclose (by omega),
      ih hc₁]
    simp [Expr.parts]
  | @assign _ name e _ hname heq _ ih =>
    have hc₁ := hc.advance hname
    have hwidth : i + (Expr.assign name e).width = i + 1 + 1 + e.width := by
      rw [Expr.width]
      omega
    rw [hwidth, hc.stretch_cons hname (by omega), hc₁.stretch_cons heq (by omega),
      ih (hc₁.advance heq)]
    simp [Expr.parts]

theorem ReadsNames.stretch_eq {names : List String} (h : c.ReadsNames names c') (hc : Stands ps i c) :
    stretch (ps.map Piece.located) [] i (i + commaWidth (fun _ => 1) names + 1) =
      partTokens (commaParts nameParts names) ++ [.closeParen] := by
  induction h generalizing i with
  | @last _ name hname hclose =>
    have hc₁ := hc.advance hname
    have hwidth : i + commaWidth (fun _ => 1) [name] + 1 = i + 1 + 1 := rfl
    rw [hwidth, hc.stretch_cons hname (by omega), hc₁.stretch_cons hclose (Nat.le_refl _), stretch_self]
    rfl
  | @more _ name names _ hname hcomma hrest ih =>
    have hc₁ := hc.advance hname
    have hne : names ≠ [] := by cases hrest <;> simp
    have hwidth : i + commaWidth (fun _ => 1) (name :: names) + 1 =
        i + 1 + 1 + commaWidth (fun _ => 1) names + 1 := by
      obtain ⟨name', names, rfl⟩ := List.exists_cons_of_ne_nil hne
      simp only [commaWidth]
      omega
    rw [hwidth, hc.stretch_cons hname (by omega), hc₁.stretch_cons hcomma (by omega),
      ih (hc₁.advance hcomma), partTokens_comma name hne]
    rfl

theorem ReadsParams.stretch_eq {names : List String} (h : c.ReadsParams names c')
    (hc : Stands ps i c) :
    stretch (ps.map Piece.located) [] i (i + commaWidth (fun _ => 1) names + 2) =
      .openParen :: (partTokens (commaParts nameParts names) ++ [.closeParen]) := by
  cases h with
  | none hopen hclose =>
    have hc₁ := hc.advance hopen
    have hwidth : i + commaWidth (fun _ : String => 1) [] + 2 = i + 1 + 1 := rfl
    rw [hwidth, hc.stretch_cons hopen (by omega), hc₁.stretch_cons hclose (Nat.le_refl _), stretch_self]
    rfl
  | some hopen hnames =>
    have hwidth : i + commaWidth (fun _ => 1) names + 2 = i + 1 + commaWidth (fun _ => 1) names + 1 := by
      omega
    rw [hwidth, hc.stretch_cons hopen (by omega), hnames.stretch_eq (hc.advance hopen)]

theorem stretch_declarator {name : String} {init : Option Expr} (hname : c.token? = some (.ident name))
    (h : c.advance.ReadsInit init c') (hc : Stands ps i c) :
    stretch (ps.map Piece.located) [] i (i + Declarator.width ⟨name, init⟩) =
      partTokens (Declarator.parts ⟨name, init⟩) := by
  have hc₁ := hc.advance hname
  cases h with
  | none _ =>
    rw [Declarator.width, hc.stretch_cons hname (Nat.le_refl _), stretch_self]
    rfl
  | @some e _ heq he =>
    have hwidth : i + Declarator.width ⟨name, Option.some e⟩ = i + 1 + 1 + e.width := by
      simp only [Declarator.width]
      omega
    rw [hwidth, hc.stretch_cons hname (by omega), hc₁.stretch_cons heq (by omega),
      he.stretch_eq (hc₁.advance heq)]
    simp [Declarator.parts]

theorem ReadsDeclarators.stretch_eq {ds : List Declarator} (h : c.ReadsDeclarators ds c')
    (hc : Stands ps i c) :
    stretch (ps.map Piece.located) [] i (i + commaWidth Declarator.width ds) =
      partTokens (commaParts Declarator.parts ds) := by
  induction h generalizing i with
  | last hname hinit _ =>
    simpa [commaWidth, commaParts, commaTail] using stretch_declarator hname hinit hc
  | @more _ name init _ ds _ hname hinit hcomma hrest ih =>
    have hc₁ := stands_declarator hname hinit hc
    have hne : ds ≠ [] := by cases hrest <;> simp
    have hwidth : i + commaWidth Declarator.width (⟨name, init⟩ :: ds) =
        i + Declarator.width ⟨name, init⟩ + 1 + commaWidth Declarator.width ds := by
      obtain ⟨d, ds, rfl⟩ := List.exists_cons_of_ne_nil hne
      simp only [commaWidth]
      omega
    rw [hwidth, stretch_append (by omega : i ≤ i + Declarator.width ⟨name, init⟩) (by omega),
      stretch_declarator hname hinit hc, hc₁.stretch_cons hcomma (by omega), ih (hc₁.advance hcomma),
      partTokens_comma _ hne]

mutual
theorem ReadsBlock.stretch_eq {c c' : Cursor} {b : Body} {i : Nat} (w d : Nat) (h : c.ReadsBlock b c')
    (hc : Stands ps i c) :
    stretch (ps.map Piece.located) (b.sites (ps.map Piece.located) i) i
      (b.stop (ps.map Piece.located) i) = partTokens (b.blockParts w d) := by
  match h with
  | @ReadsBlock.braces _ ss c₁ c₂ hopen hss hclose _ =>
    have hc₁ : Stands ps (i + 1) (c.withQueue []).advance :=
      Stands.advance (c := c.withQueue []) ⟨hc.ahead, hc.le⟩ hopen
    have hend := hss.stands hc₁
    have hsites : Laminar (ps.map Piece.located) _ _ _ := laminar_stmts (i + 1) ss
    have hle := le_stmtsStop (ps.map Piece.located) (i + 1) ss
    rw [Body.sites, Body.stop, Body.partTokens, stretch_append (Nat.le_add_right i 1) (by omega),
      stretch_append hle (Nat.le_add_right _ 1), stretch_one (hc.token?.symm.trans hopen),
      stretch_one (hend.token?.symm.trans hclose), hss.stretch_eq w (d + 1) hc₁]
    -- no statement of the body ends with one of its braces
    rw [leftOut_of_stop_ne, leftOut_of_stop_ne]
    · rfl
    · intro n hn
      have := hsites.within n hn
      omega
    · intro n hn
      have := hsites.within n hn
      have := hsites.bounds hn
      omega

theorem ReadsForm.stretch_eq {c c' : Cursor} {f : Form} {i : Nat} (w d : Nat)
    (leading trailing : List Comment) (h : c.ReadsForm f c') (hc : Stands ps i c) :
    stretch (ps.map Piece.located) (Stmt.sites (ps.map Piece.located) i ⟨leading, f, trailing⟩) i
      (f.stop (ps.map Piece.located) i) = partTokens (f.parts w d) := by
  have hended (hf : f.takesSemicolon = false) : ¬ Site.Unended (ps.map Piece.located)
      ⟨i, f.stop (ps.map Piece.located) i, ⟨leading, f, trailing⟩⟩ := by
    intro hun
    exact Bool.false_ne_true (hf.symm.trans hun.1)
  rw [Stmt.sites]
  match h with
  | .block hb =>
    rw [stretch_cons_of_ended (hended rfl), Form.sites, Form.stop, Form.parts]
    exact hb.stretch_eq w d hc
  | .empty ht =>
    rw [stretch_cons_of_ended (hended rfl), Form.sites, Form.stop, Form.parts,
      hc.stretch_cons ht (Nat.le_refl _), stretch_self]
    rfl
  | @ReadsForm.function _ name names c₁ b _ hfun hname hnames hb =>
    have hc₁ := hc.advance hfun
    have hc₂ := hc₁.advance hname
    have hwidth : i + headWidth names = i + 1 + 1 + commaWidth (fun _ => 1) names + 2 := by
      rw [headWidth]
      omega
    have hhead : stretch (ps.map Piece.located) [] i (i + headWidth names) =
        .function :: .ident name :: .openParen ::
          (partTokens (commaParts nameParts names) ++ [.closeParen]) := by
      rw [hwidth, hc.stretch_cons hfun (by omega), hc₁.stretch_cons hname (by omega),
        hnames.stretch_eq hc₂]
    have hsites : Laminar (ps.map Piece.located) (i + headWidth names + 1) _ _ :=
      laminar_form i (.function name names b)
    have hlt := b.lt_stop (ps.map Piece.located) (i + headWidth names)
    rw [stretch_cons_of_ended (hended rfl), Form.stop,
      stretch_append (Nat.le_add_right i (headWidth names)) (by omega), stretch_outside, hhead]
    · rw [Form.sites, hb.stretch_eq w d ((hnames.stands hc₂).of_eq hwidth.symm)]
      simp [Form.parts]
    · -- the statements of the body end behind the head
      intro n hn
      have := hsites.within n hn
      have := hsites.bounds hn
      omega
  | @ReadsForm.var _ ds _ _ hvar hds _ =>
    have hc₁ := hc.advance hvar
    have hj := (hds.stands hc₁).le
    have hplain := hc.stretch_cons hvar (Nat.le_add_right (i + 1) (commaWidth Declarator.width ds))
    rw [hds.stretch_eq hc₁] at hplain
    rw [Form.sites, Form.stop, stretch_of_takesSemicolon rfl rfl (by omega) (by simpa using hj), hplain]
    · simp [Form.parts]
    · simp [hplain, semicolon_not_mem_declarators]
  | @ReadsForm.expr _ e _ _ he _ =>
    have hj := (he.stands hc).le
    have hpos := e.width_pos
    have hplain := he.stretch_eq hc
    rw [Form.sites, Form.stop, stretch_of_takesSemicolon rfl rfl (by omega) (by simpa using hj), hplain]
    · simp [Form.parts]
    · simp [hplain, semicolon_not_mem_expr]

theorem ReadsStmts.stretch_eq {close : Option Token} {c c' : Cursor} {ss : List Stmt} {i : Nat}
    (w d : Nat) (h : c.ReadsStmts close ss c') (hc : Stands ps i c) :
    stretch (ps.map Piece.located) (stmtsSites (ps.map Piece.located) i ss) i
      (stmtsStop (ps.map Piece.located) i ss) = partTokens (stmtsParts w d ss) := by
  match h with
  | .nil _ =>
    rw [stmtsStop, stretch_self, stmtsParts]
    rfl
  | @ReadsStmts.cons _ _ _ _ _ rest _ _ _ (@ReadsStmt.owning _ f c₁ shares hf _) hss =>
    have hc₀ : Stands ps i ((c.withQueue []).record (.readingStmt c.here c.found)) := ⟨hc.ahead, hc.le⟩
    have hend := hf.stands hc₀
    have hlt := f.lt_stop (ps.map Piece.located) i
    have hle := le_stmtsStop (ps.map Piece.located) (f.stop (ps.map Piece.located) i) rest
    have hinner : Laminar (ps.map Piece.located) _ _ _ := laminar_form i f
    have hlater : Laminar (ps.map Piece.located) _ _ _ :=
      laminar_stmts (f.stop (ps.map Piece.located) i) rest
    -- what the first statement leaves out stands where the others have not begun
    rw [stmtsSites, stmtsStop, stretch_append (Nat.le_of_lt hlt) hle, stretch_append_left,
      stretch_append_right, hf.stretch_eq w d _ _ hc₀, hss.stretch_eq w d ⟨hend.ahead, hend.le⟩]
    · simp [stmtsParts, Stmt.parts]
    · rw [Stmt.sites]
      refine List.forall_mem_cons.mpr ⟨.inl (Nat.le_refl _), ?_⟩
      intro n hn
      have := hinner.within n hn
      omega
    · intro n hn
      have := hlater.within n hn
      have := hlater.bounds hn
      omega
end

end Cursor

/-- The statements of a text fill it, and the tokens on the range of each of them derive it. -/
theorem derives_sites {text : String} {ls : List (Located Lexeme)} {ss : List Stmt} {c' : Cursor}
    (hls : tokenize text = .ok ls) (hss : (Cursor.start text ls).ReadsStmts none ss c') :
    stmtsStop (significant ls) 0 ss = (significant ls).length ∧
      ∀ n ∈ stmtsSites (significant ls) 0 ss,
        DerivesForm (((significant ls).drop n.start).take (n.stop - n.start))
          ((significant ls).drop n.stop) n.stmt.form.bare := by
  rw [significant_eq]
  have hstart : Cursor.Stands (pieces ls).2 0 (Cursor.start text ls) := ⟨rfl, Nat.zero_le _⟩
  have hend := hss.stands hstart
  have hstop : stmtsStop ((pieces ls).2.map Piece.located) 0 ss =
      ((pieces ls).2.map Piece.located).length := by
    have hnil := Cursor.ahead_eq_nil hss.token?_eq
    rw [hend.ahead, List.drop_eq_nil_iff] at hnil
    rw [List.length_map]
    exact Nat.le_antisymm hend.le hnil
  have hsites := laminar_sites hstop
  have hqueue : (Cursor.start text ls).queue = freeAt (pieces ls).1 (pieces ls).2
      (stmtsSites ((pieces ls).2.map Piece.located) 0 ss) 0 := by
    rw [freeAt_of_no_stop]
    · rfl
    · intro n hn
      have := hsites.bounds hn
      omega
  obtain ⟨hserved, -⟩ :=
    hss.served (tokenize_eq_ok_iff.mp hls).inOrder hsites hstart hqueue fun n hn => hn
  exact ⟨hstop, fun n hn => (hserved n hn).derives⟩

/-- Printing the tree of a text changes only white space, the places of comments and missing
semicolons: the printed text has the tokens of the text and one semicolon behind each statement that
the text ends without one, and it has the comments of the text. -/
theorem Fragment.printWith_adds_semicolons {text : String} {b : Body}
    (h : program.parse text = .ok b) (hlast : ∀ s ∈ b.within, s.LineLast) (w : Nat) :
    ∃ ls ls' toks sites, tokenize text = .ok ls ∧ tokenize (program.printWith w b) = .ok ls' ∧
      significant ls = toks ∧ stmtsSites toks 0 b.stmts = sites ∧ sites.map Site.stmt = b.within ∧
      (∀ n ∈ sites, DerivesForm ((toks.drop n.start).take (n.stop - n.start)) (toks.drop n.stop)
        n.stmt.form.bare) ∧
      (significant ls').map Located.value = withSemicolons toks sites ∧
      lexemeComments ls' = lexemeComments ls := by
  obtain ⟨ls, hls, c', hread⟩ := parse_eq_ok_iff.mp h
  have hprint := program.tokenize_printWith w ((wellFormed_iff_of_parse h).mpr hlast)
  have hcomments := program.comments_of_parse hls h
  obtain ⟨ss, c₁, hss, rfl, -⟩ := read_program_iff.mp hread
  obtain ⟨hstop, hderives⟩ := derives_sites hls hss
  refine ⟨ls, _, _, _, hls, hprint, rfl, rfl, stmt_stmtsSites 0 ss, hderives, ?_, ?_⟩
  · have hstart : Cursor.Stands (pieces ls).2 0 (Cursor.start text ls) := ⟨rfl, Nat.zero_le _⟩
    rw [significant_locate, withSemicolons_eq, ← hstop, significant_eq, hss.stretch_eq w 0 hstart]
    simp [parts]
  · rw [lexemeComments_locate, program.partComments, hcomments]

/-- Of four statements two end without a semicolon, one before a closing brace and one at the end of
the text. -/
theorem Fragment.printWith_adds_semicolons_nested :
    ∃ ls ls' sites, tokenize "var p = 1, q; \x7b /*a*/ p \x7d\n(q) // b" = .ok ls ∧
      tokenize "var p = 1, q;\n\x7b\n  /*a*/\n  p;\n\x7d\n(q); // b\n" = .ok ls' ∧
      sites.length = 4 ∧
      (∀ n ∈ sites, DerivesForm (((significant ls).drop n.start).take (n.stop - n.start))
        ((significant ls).drop n.stop) n.stmt.form.bare) ∧
      (significant ls').map Located.value = withSemicolons (significant ls) sites ∧
      lexemeComments ls' = lexemeComments ls := by
  have h : program.parse "var p = 1, q; \x7b /*a*/ p \x7d\n(q) // b" =
      .ok ⟨[⟨[], .var [⟨"p", some (.number ⟨"1"⟩)⟩, ⟨"q", none⟩], []⟩,
        ⟨[], .block ⟨[⟨[⟨.block, "/*a*/"⟩], .expr (.ident "p"), []⟩], []⟩, []⟩,
        ⟨[], .expr (.paren (.ident "q")), [⟨.line, "// b"⟩]⟩], []⟩ := by cbv
  obtain ⟨ls, ls', toks, sites, hls, hls', rfl, rfl, hstmts, hderives, htokens, hcomments⟩ :=
    printWith_adds_semicolons h
      (by simp [Body.within, stmtsWithin, Stmt.within, Form.within, Stmt.LineLast]) 2
  refine ⟨ls, ls', _, hls, ?_, ?_, hderives, htokens, hcomments⟩
  · refine (congrArg tokenize ?_).trans hls'
    cbv
  · rw [← List.length_map (f := Site.stmt), hstmts]
    rfl

end Reprint
