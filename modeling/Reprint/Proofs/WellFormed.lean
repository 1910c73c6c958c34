import Reprint.Proofs.Conservation

/-!
# Well-formed trees

A tree is well-formed when its names, literals and comments are spelled as lexemes, every `var` has
a declarator, and in every list of trailing comments only the last one may be a line comment or
span lines. Every tree that was read is well-formed but for one thing: a line comment may stand in
front of another trailing comment (`forms_of_parse`, `comments_spelled_of_parse`,
`trailing_of_parse`).
-/

namespace Reprint

mutual
def Stmt.within : Stmt → List Stmt
  | ⟨leading, f, trailing⟩ => ⟨leading, f, trailing⟩ :: f.within
def Form.within : Form → List Stmt
  | .block b => b.within
  | .function _ _ b => b.within
  | .empty | .var _ | .expr _ => []
/-- The statements of a body at any depth, in the order of the text. -/
def Body.within : Body → List Stmt
  | ⟨ss, _⟩ => stmtsWithin ss
def stmtsWithin : List Stmt → List Stmt
  | [] => []
  | s :: ss => s.within ++ stmtsWithin ss
end

def Expr.Spelled : Expr → Prop
  | .number n => IsNumeral n.raw.toList
  | .string raw => IsQuoted raw.toList
  | .ident name => IsIdentifier name
  | .paren inner => inner.Spelled
  | .assign target value => IsIdentifier target ∧ value.Spelled
  | .bool _ | .null | .this => True

def Declarator.Spelled (d : Declarator) : Prop :=
  IsIdentifier d.name ∧ ∀ e ∈ d.init, e.Spelled

/-- The names and literals of a form are lexemes; the statements of a body inside it are not looked
at. -/
def Form.Spelled : Form → Prop
  | .function name params _ => IsIdentifier name ∧ ∀ p ∈ params, IsIdentifier p
  | .var ds => ds ≠ [] ∧ ∀ d ∈ ds, d.Spelled
  | .expr e => e.Spelled
  | .block _ | .empty => True

structure Body.WellFormed (b : Body) : Prop where
  forms : ∀ s ∈ b.within, s.form.Spelled
  comments : ∀ c ∈ b.comments, c.Spelled
  /-- All comments of a trailing list but the last leave the line open. -/
  trailing : ∀ s ∈ b.within, ∀ c ∈ s.trailing.dropLast, c.kind = .block ∧ '\n' ∉ c.text.toList

/-- The last comment of a trailing list is the only one that may be a line comment. -/
def Stmt.LineLast (s : Stmt) : Prop := ∀ c ∈ s.trailing.dropLast, c.kind = .block

/-! ## Tokens ahead -/

/-- What the pieces of a text are like: tokens spelled, comments in order, and `P` of each comment
that another one follows on the line where it starts. -/
structure Sound (P : Comment → Prop) (ps : List Piece) : Prop where
  token : ∀ p ∈ ps, p.token.Spelled
  orderly : Orderly ps
  line : ∀ p ∈ ps, p.after.Pairwise fun x y => x.span.start.line = y.span.start.line → P x.value

theorem Sound.sublist {P : Comment → Prop} {ps qs : List Piece} (h : Sound P qs)
    (hs : ps.Sublist qs) : Sound P ps :=
  ⟨fun p hp => h.token p (hs.subset hp), h.orderly.sublist hs, fun p hp => h.line p (hs.subset hp)⟩

theorem exists_of_mem_dropLast {α : Type} {R : α → α → Prop} {l : List α} (h : l.Pairwise R) {a : α}
    (ha : a ∈ l.dropLast) : ∃ b ∈ l, R a b := by
  rcases List.eq_nil_or_concat l with rfl | ⟨init, last, rfl⟩
  · simp at ha
  · rw [List.concat_eq_append] at h ha ⊢
    rw [List.dropLast_concat] at ha
    exact ⟨last, by simp, (List.pairwise_append.mp h).2.2 a ha last (by simp)⟩

/-- The comments on the line of a position, in front of any other, satisfy `P` but for the last. -/
theorem forall_dropLast_onLine {P : Comment → Prop} {xs : List (Located Comment)} {stop : Position}
    (h : xs.Pairwise fun x y => x.span.start.line = y.span.start.line → P x.value) :
    ∀ c ∈ (values (xs.takeWhile (startsOnLine stop))).dropLast, P c := by
  intro c hc
  rw [values, ← List.map_dropLast] at hc
  obtain ⟨x, hx, rfl⟩ := List.mem_map.mp hc
  have hline : ∀ y ∈ xs.takeWhile (startsOnLine stop), y.span.start.line = stop.line := by
    intro y hy
    have := List.mem_takeWhile_imp hy
    simpa [startsOnLine] using this
  obtain ⟨y, hy, hxy⟩ := exists_of_mem_dropLast (h.sublist (List.takeWhile_sublist _)) hx
  exact hxy ((hline x (List.dropLast_subset _ hx)).trans (hline y hy).symm)

/-- A statement as reading makes it, without what is inside it. -/
structure Stmt.Sound (P : Comment → Prop) (s : Stmt) : Prop where
  form : s.form.Spelled
  trailing : ∀ c ∈ s.trailing.dropLast, P c

namespace Cursor

variable {P : Comment → Prop} {c c' : Cursor}

theorem spelled_of_token? {t : Token} (h : c.token? = some t) (hc : Sound P c.ahead) :
    t.Spelled := by
  obtain ⟨last, rfl, hp⟩ := passes_advance h
  exact hc.token last (by rw [hp.ahead]; simp)

theorem Advances.sound (h : c.Advances c') (hc : Sound P c.ahead) : Sound P c'.ahead := by
  obtain ⟨ps, p, hp⟩ := h
  exact hc.sublist (hp.ahead ▸ (List.sublist_cons_self ..).trans (List.sublist_append_right ..))

theorem Keeps.sound {owned : List Comment} (h : c.Keeps owned c') (hc : Sound P c.ahead) :
    Sound P c'.ahead := by
  obtain ⟨ps, hps, -⟩ := h
  exact hc.sublist (hps ▸ List.sublist_append_right ..)

/-! ## What was read is spelled -/

theorem spelled_of_operand? {t : Token} {e : Expr} (h : t.operand? = some e) (ht : t.Spelled) :
    e.Spelled := by
  cases t <;> cases h <;> exact ht

theorem ReadsExpr.spelled {e : Expr} (h : c.ReadsExpr e c') (hc : Sound P c.ahead) : e.Spelled := by
  induction h with
  | operand ht hop _ => exact spelled_of_operand? hop (spelled_of_token? ht hc)
  | paren hopen _ _ _ ih => exact ih ((advances_advance hopen).sound hc)
  | assign hname heq _ ih =>
    have hc₁ := (advances_advance hname).sound hc
    exact ⟨spelled_of_token? hname hc, ih ((advances_advance heq).sound hc₁)⟩

theorem ReadsNames.spelled {names : List String} (h : c.ReadsNames names c')
    (hc : Sound P c.ahead) : ∀ x ∈ names, IsIdentifier x := by
  induction h with
  | last hname _ => exact List.forall_mem_singleton.mpr (spelled_of_token? hname hc)
  | more hname hcomma _ ih =>
    have hc₁ := (advances_advance hname).sound hc
    refine List.forall_mem_cons.mpr ⟨spelled_of_token? hname hc, ?_⟩
    exact ih ((advances_advance hcomma).sound hc₁)

theorem ReadsParams.spelled {names : List String} (h : c.ReadsParams names c')
    (hc : Sound P c.ahead) : ∀ x ∈ names, IsIdentifier x := by
  cases h with
  | none _ _ => simp
  | some hopen hnames => exact hnames.spelled ((advances_advance hopen).sound hc)

theorem ReadsInit.spelled {init : Option Expr} (h : c.ReadsInit init c') (hc : Sound P c.ahead) :
    ∀ e ∈ init, e.Spelled := by
  cases h with
  | none _ => simp
  | some heq he => simpa using he.spelled ((advances_advance heq).sound hc)

theorem ReadsInit.sound {init : Option Expr} (h : c.ReadsInit init c') (hc : Sound P c.ahead) :
    Sound P c'.ahead := by
  rcases h.advances with rfl | hadv
  · exact hc
  · exact hadv.sound hc

theorem ReadsDeclarators.spelled {ds : List Declarator} (h : c.ReadsDeclarators ds c')
    (hc : Sound P c.ahead) : ds ≠ [] ∧ ∀ d ∈ ds, d.Spelled := by
  induction h with
  | last hname hinit _ =>
    have hc₁ := (advances_advance hname).sound hc
    exact ⟨by simp, by simpa using ⟨spelled_of_token? hname hc, hinit.spelled hc₁⟩⟩
  | more hname hinit hcomma _ ih =>
    have hc₁ := (advances_advance hname).sound hc
    have hc₂ := (advances_advance hcomma).sound (hinit.sound hc₁)
    refine ⟨by simp, List.forall_mem_cons.mpr ⟨?_, (ih hc₂).2⟩⟩
    exact ⟨spelled_of_token? hname hc, hinit.spelled hc₁⟩

mutual
theorem ReadsBlock.within {c c' : Cursor} {b : Body} (h : c.ReadsBlock b c') (hc : Sound P c.ahead) :
    ∀ s ∈ b.within, s.Sound P := by
  match h with
  | @ReadsBlock.braces _ ss c₁ c₂ hopen hss _ _ =>
    have hadv : (c.withQueue []).Advances (c.withQueue []).advance := advances_advance hopen
    rw [Body.within]
    exact hss.within (hadv.sound hc)

theorem ReadsForm.within {c c' : Cursor} {f : Form} (h : c.ReadsForm f c') (hc : Sound P c.ahead) :
    f.Spelled ∧ ∀ s ∈ f.within, s.Sound P := by
  match h with
  | .block hb =>
    rw [Form.within]
    exact ⟨trivial, hb.within hc⟩
  | .empty _ => simp [Form.within, Form.Spelled]
  | .function hfun hname hnames hb =>
    have hc₁ := (advances_advance hfun).sound hc
    have hc₂ := (advances_advance hname).sound hc₁
    rw [Form.within]
    exact ⟨⟨spelled_of_token? hname hc₁, hnames.spelled hc₂⟩, hb.within (hnames.advances.sound hc₂)⟩
  | .var hvar hds _ =>
    rw [Form.within]
    exact ⟨hds.spelled ((advances_advance hvar).sound hc), by simp⟩
  | .expr he _ =>
    rw [Form.within]
    exact ⟨he.spelled hc, by simp⟩

theorem ReadsStmt.within {c c' : Cursor} {s : Stmt} (h : c.ReadsStmt s c') (hc : Sound P c.ahead) :
    ∀ s' ∈ s.within, s'.Sound P := by
  match h with
  | @ReadsStmt.owning _ f c₁ _ hf hshares =>
    -- trailing comments stand behind the last token of the form, in one piece with it
    obtain ⟨hform, hinner⟩ := hf.within hc
    obtain ⟨passed, held, last, hacc⟩ := hf.account hc.orderly
    have hlast : last ∈ c.ahead := by
      rw [show c.ahead = _ from hacc.ahead]
      simp
    subst hshares
    rw [hacc.shareOut rfl hc.orderly, Stmt.within]
    exact List.forall_mem_cons.mpr ⟨⟨hform, forall_dropLast_onLine (hc.line last hlast)⟩, hinner⟩

theorem ReadsStmts.within {close : Option Token} {c c' : Cursor} {ss : List Stmt}
    (h : c.ReadsStmts close ss c') (hc : Sound P c.ahead) : ∀ s ∈ stmtsWithin ss, s.Sound P := by
  match h with
  | .nil _ => simp [stmtsWithin]
  | .cons _ _ hs hss =>
    rw [stmtsWithin, List.forall_mem_append]
    exact ⟨hs.within hc, hss.within ((hs.keeps hc.orderly).sound hc)⟩
end

end Cursor

theorem Body.within_lead {P : Comment → Prop} {b : Body} (before : List Comment)
    (h : ∀ s ∈ b.within, s.Sound P) : ∀ s ∈ (b.lead before).within, s.Sound P := by
  obtain ⟨ss, dangling⟩ := b
  cases ss with
  | nil => simpa [Body.lead, Body.within] using h
  | cons s ss =>
    obtain ⟨leading, f, trailing⟩ := s
    simp only [Body.lead, Body.within, stmtsWithin, Stmt.within, List.forall_mem_append,
      List.forall_mem_cons] at h ⊢
    exact ⟨⟨⟨h.1.1.form, h.1.1.trailing⟩, h.1.2⟩, h.2⟩

theorem Body.within_trail (after : List Comment) (b : Body) : (b.trail after).within = b.within := by
  obtain ⟨ss, dangling⟩ := b
  simp [Body.trail, Body.within]

theorem Fragment.within_of_read (f : Fragment) {P : Comment → Prop} {c c' : Cursor} {b : Body}
    (h : f.read c = .ok b c') (hc : Sound P c.ahead) : ∀ s ∈ b.within, s.Sound P := by
  cases f with
  | program =>
    obtain ⟨ss, c₁, hss, rfl, -⟩ := read_program_iff.mp h
    rw [Body.within]
    exact hss.within hc
  | function =>
    obtain ⟨c₁, inner, c₂, hhead, hblock, -, rfl, -⟩ := read_function_iff.mp h
    rw [Body.within_trail]
    exact Body.within_lead _ (hblock.within (hhead.keeps.sound hc))

/-! ## Trees of texts -/

section
variable {text : String} {ls : List (Located Lexeme)}

theorem sound_of_lexed {P : Comment → Prop} {p : Position} {cs : List Char} (h : Lexed p cs ls)
    (hP : ls.Pairwise fun a b => ∀ c, a.value = .comment c →
      a.span.start.line = b.span.start.line → P c) : Sound P (pieces ls).2 := by
  refine ⟨fun p hp => ?_, h.orderly, fun p hp => ?_⟩
  · exact h.spelled p.lexeme (mem_of_mem_pieces hp _ (List.mem_cons_self ..))
  · have hin := (List.pairwise_cons.mp ((Lexed.pairwise_pieces hP).1 p hp)).2
    exact (List.pairwise_map.mp hin).imp fun h => h _ rfl

/-- A comment that spans lines is over on a later line than the one where it starts. -/
theorem Lexed.oneLine {p : Position} {cs : List Char} (h : Lexed p cs ls) :
    ls.Pairwise fun a b => ∀ c, a.value = .comment c →
      a.span.start.line = b.span.start.line → '\n' ∉ c.text.toList := by
  refine h.ordered.imp_of_mem fun {a b} ha _ hab c hc hline => ?_
  have hle := hab.line_le
  rw [(h.span a ha).1, hc, Lexeme.spelling, Position.line_after] at hle
  rw [← List.count_eq_zero]
  omega

variable {f : Fragment} {b : Body}

theorem forms_of_parse (h : f.parse text = .ok b) : ∀ s ∈ b.within, s.form.Spelled := by
  obtain ⟨ls, hls, c', hread⟩ := Fragment.parse_eq_ok_iff.mp h
  have hlexed := tokenize_eq_ok_iff.mp hls
  exact fun s hs => (f.within_of_read hread (sound_of_lexed hlexed hlexed.oneLine) s hs).form

theorem trailing_of_parse {P : Comment → Prop} (hls : tokenize text = .ok ls)
    (h : f.parse text = .ok b) (hP : ls.Pairwise fun x y => ∀ c, x.value = .comment c →
      x.span.start.line = y.span.start.line → P c) :
    ∀ s ∈ b.within, ∀ c ∈ s.trailing.dropLast, P c := by
  obtain ⟨ls', hls', c', hread⟩ := Fragment.parse_eq_ok_iff.mp h
  obtain rfl : ls' = ls := Except.ok.inj (hls'.symm.trans hls)
  exact fun s hs => (f.within_of_read hread (sound_of_lexed (tokenize_eq_ok_iff.mp hls) hP) s hs).trailing

theorem comments_spelled_of_parse (h : f.parse text = .ok b) : ∀ c ∈ b.comments, c.Spelled := by
  obtain ⟨ls, hls, -⟩ := Fragment.parse_eq_ok_iff.mp h
  rw [f.comments_of_parse hls h]
  intro c hc
  obtain ⟨l, hl, hlc⟩ := List.mem_filterMap.mp hc
  have hspelled := (tokenize_eq_ok_iff.mp hls).spelled l hl
  cases hv : l.value with
  | token t => simp [hv, Lexeme.comment?] at hlc
  | comment c' =>
    rw [hv] at hspelled hlc
    cases hlc
    exact hspelled

/-- A tree that was read is well-formed exactly when no line comment stands in front of another
trailing comment. -/
theorem wellFormed_iff_of_parse (h : f.parse text = .ok b) :
    b.WellFormed ↔ ∀ s ∈ b.within, s.LineLast := by
  constructor
  · exact fun hb s hs c hc => (hb.trailing s hs c hc).1
  · intro hblock
    obtain ⟨ls, hls, -⟩ := Fragment.parse_eq_ok_iff.mp h
    have hlines := trailing_of_parse hls h (tokenize_eq_ok_iff.mp hls).oneLine
    exact ⟨forms_of_parse h, comments_spelled_of_parse h,
      fun s hs c hc => ⟨hblock s hs c hc, hlines s hs c hc⟩⟩

end

end Reprint
