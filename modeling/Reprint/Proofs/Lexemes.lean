import Reprint.Cursor
import Reprint.Proofs.Spelling

/-!
# The lexemes of a text

`Lexed` says how a text is cut into lexemes, one step to a constructor. Lexemes are spelled as their
languages ask, stand in the order of the text and do not overlap; grouping them by token (`pieces`)
loses no comment and keeps that order.
-/

namespace Reprint

/-! ## Positions -/

theorem Position.line_next (p : Position) (c : Char) :
    (p.next c).line = p.line + if c = '\n' then 1 else 0 := by
  unfold next
  split <;> rfl

theorem Position.offset_next (p : Position) (c : Char) :
    (p.next c).offset = p.offset + c.utf8Size := by
  unfold next
  split <;> rfl

theorem Position.line_after (p : Position) (cs : List Char) :
    (p.after cs).line = p.line + cs.count '\n' := by
  induction cs generalizing p with
  | nil => rfl
  | cons c cs ih =>
    rw [after_cons, ih, line_next, List.count_cons]
    simp only [beq_iff_eq]
    omega

theorem Position.offset_le_after (p : Position) (cs : List Char) :
    p.offset ≤ (p.after cs).offset := by
  induction cs generalizing p with
  | nil => exact Nat.le_refl _
  | cons c cs ih =>
    have := ih (p.next c)
    rw [offset_next] at this
    rw [after_cons]
    omega

theorem Position.offset_lt_after (p : Position) {cs : List Char} (h : cs ≠ []) :
    p.offset < (p.after cs).offset := by
  obtain ⟨c, cs, rfl⟩ := List.exists_cons_of_ne_nil h
  have := offset_le_after (p.next c) cs
  have := c.utf8Size_pos
  rw [offset_next] at *
  rw [after_cons]
  omega

theorem Position.eq_nil_of_after_append {p : Position} {as bs : List Char}
    (h : p.after (as ++ bs) = p.after as) : bs = [] := by
  rw [after_append] at h
  by_contra hne
  have hlt := (p.after as).offset_lt_after hne
  rw [h] at hlt
  exact Nat.lt_irrefl _ hlt

/-- A position tells where a text is cut. -/
theorem Position.rest_eq_of_after_eq {p : Position} {as as' bs bs' : List Char}
    (h : as ++ bs = as' ++ bs') (hp : p.after as = p.after as') : bs = bs' := by
  rcases List.append_eq_append_iff.mp h with ⟨cs, rfl, rfl⟩ | ⟨cs, rfl, rfl⟩
  · rw [eq_nil_of_after_append hp.symm, List.nil_append]
  · rw [eq_nil_of_after_append hp, List.nil_append]

/-- `q` is `p` or stands behind it. -/
def Position.Reaches (p q : Position) : Prop := ∃ cs, q = p.after cs

theorem Position.Reaches.refl (p : Position) : p.Reaches p := ⟨[], rfl⟩

theorem Position.Reaches.trans {p q r : Position} (h₁ : p.Reaches q) (h₂ : q.Reaches r) :
    p.Reaches r := by
  obtain ⟨cs, rfl⟩ := h₁
  obtain ⟨ds, rfl⟩ := h₂
  exact ⟨cs ++ ds, (after_append p cs ds).symm⟩

theorem Position.Reaches.offset_le {p q : Position} (h : p.Reaches q) : p.offset ≤ q.offset := by
  obtain ⟨cs, rfl⟩ := h
  exact offset_le_after p cs

theorem Position.Reaches.line_le {p q : Position} (h : p.Reaches q) : p.line ≤ q.line := by
  obtain ⟨cs, rfl⟩ := h
  rw [line_after]
  exact Nat.le_add_right ..

theorem Position.reaches_after (p : Position) (cs : List Char) : p.Reaches (p.after cs) := ⟨cs, rfl⟩

theorem Position.reaches_next (p : Position) (c : Char) : p.Reaches (p.next c) := ⟨[c], rfl⟩

/-! ## Cutting a text -/

inductive Lexed : Position → List Char → List (Located Lexeme) → Prop
  | nil {p} : Lexed p [] []
  | space {p c cs ls} : isSpace c = true → Lexed (p.next c) cs ls → Lexed p (c :: cs) ls
  | lexeme {p c cs x rest ls} : isSpace c = false → scan c cs = some (x, rest) →
      Lexed (p.after x.spelling.toList) rest ls →
      Lexed p (c :: cs) (⟨x, p, p.after x.spelling.toList⟩ :: ls)

theorem lexFrom_eq_ok_iff {p : Position} {cs : List Char} {ls : List (Located Lexeme)} :
    lexFrom p cs = .ok ls ↔ Lexed p cs ls := by
  constructor
  · intro h
    fun_induction lexFrom p cs generalizing ls with
    | case1 p => cases h; exact .nil
    | case2 p c cs hc ih => exact .space hc (ih h)
    | case3 => cases h
    | case4 p c cs hc x rest hscan stop =>
      rename_i ih
      cases hrest : lexFrom stop rest with
      | error e => rw [hrest] at h; cases h
      | ok ls' =>
        rw [hrest] at h
        cases h
        exact .lexeme (by simpa using hc) hscan (ih hrest)
  · intro h
    induction h with
    | nil => rw [lexFrom]
    | space hc _ ih => rw [lexFrom, if_pos hc, ih]
    | lexeme hc hscan _ ih =>
      rw [lexFrom, if_neg (by simp [hc])]
      split
      · simp_all
      · rename_i h
        rw [hscan] at h
        cases h
        simp only [ih, Except.map]

theorem tokenize_eq_ok_iff {text : String} {ls : List (Located Lexeme)} :
    tokenize text = .ok ls ↔ Lexed .origin text.toList ls :=
  lexFrom_eq_ok_iff

theorem Lexed.spelled {p : Position} {cs : List Char} {ls : List (Located Lexeme)}
    (h : Lexed p cs ls) : ∀ l ∈ ls, l.value.Spelled := by
  induction h with
  | nil => simp
  | space _ _ ih => exact ih
  | lexeme _ hscan _ ih => exact List.forall_mem_cons.mpr ⟨spelled_of_scan hscan, ih⟩

theorem Lexed.reaches {p : Position} {cs : List Char} {ls : List (Located Lexeme)}
    (h : Lexed p cs ls) : ∀ l ∈ ls, p.Reaches l.span.start := by
  induction h with
  | nil => simp
  | space _ _ ih => exact fun l hl => (Position.reaches_next ..).trans (ih l hl)
  | lexeme _ _ _ ih =>
    refine List.forall_mem_cons.mpr ⟨.refl _, fun l hl => ?_⟩
    exact (Position.reaches_after ..).trans (ih l hl)

theorem Lexed.span {p : Position} {cs : List Char} {ls : List (Located Lexeme)}
    (h : Lexed p cs ls) : ∀ l ∈ ls, l.span.stop = l.span.start.after l.value.spelling.toList ∧
      l.span.start.offset < l.span.stop.offset := by
  induction h with
  | nil => simp
  | space _ _ ih => exact ih
  | lexeme _ hscan _ ih =>
    refine List.forall_mem_cons.mpr ⟨⟨rfl, ?_⟩, ih⟩
    exact Position.offset_lt_after _ (spelling_ne_nil_of_scan hscan)

/-- Each lexeme is scanned at the place where its span starts. -/
theorem Lexed.scanned {p : Position} {cs : List Char} {ls : List (Located Lexeme)}
    (h : Lexed p cs ls) : ∀ l ∈ ls, ∃ before c tail rest, cs = before ++ c :: tail ∧
      l.span.start = p.after before ∧ scan c tail = some (l.value, rest) := by
  induction h with
  | nil => simp
  | @space p d cs ls _ _ ih =>
    intro l hl
    obtain ⟨before, c, tail, rest, rfl, hstart, hscan⟩ := ih l hl
    exact ⟨d :: before, c, tail, rest, rfl, hstart, hscan⟩
  | @lexeme p d cs x rest ls _ hx _ ih =>
    intro l hl
    rcases List.mem_cons.mp hl with rfl | hl
    · exact ⟨[], d, cs, rest, rfl, rfl, hx⟩
    · obtain ⟨before, c, tail, rest, rfl, hstart, hscan⟩ := ih l hl
      refine ⟨x.spelling.toList ++ before, c, tail, rest, ?_, ?_, hscan⟩
      · rw [List.append_assoc, spelling_of_scan hx]
      · rw [hstart, Position.after_append]

/-- Each lexeme stops where the later ones have not started yet. -/
theorem Lexed.ordered {p : Position} {cs : List Char} {ls : List (Located Lexeme)}
    (h : Lexed p cs ls) : ls.Pairwise fun a b => a.span.stop.Reaches b.span.start := by
  induction h with
  | nil => exact .nil
  | space _ _ ih => exact ih
  | lexeme _ _ hrest ih => exact .cons hrest.reaches ih

/-! ## Comments and pieces -/

def Lexeme.comment? : Lexeme → Option Comment
  | .comment c => some c
  | .token _ => none

def lexemeComments (ls : List (Located Lexeme)) : List Comment :=
  ls.filterMap fun l => l.value.comment?

def Located.lexeme (x : Located Comment) : Located Lexeme := ⟨.comment x.value, x.span⟩

def Piece.lexeme (p : Piece) : Located Lexeme := ⟨.token p.token, p.span⟩

def Piece.lexemes (p : Piece) : List (Located Lexeme) := p.lexeme :: p.after.map Located.lexeme

theorem lexemes_of_pieces (ls : List (Located Lexeme)) :
    (pieces ls).1.map Located.lexeme ++ (pieces ls).2.flatMap Piece.lexemes = ls := by
  fun_induction pieces ls with
  | case1 => rfl
  | case2 c span ls before ps h ih =>
    rw [h] at ih
    simpa [Located.lexeme] using ih
  | case3 t span ls after ps h ih =>
    rw [h] at ih
    simpa [Piece.lexemes, Piece.lexeme] using ih

theorem comments_of_pieces (ls : List (Located Lexeme)) :
    ((pieces ls).1 ++ (pieces ls).2.flatMap Piece.after).map Located.value = lexemeComments ls := by
  fun_induction pieces ls with
  | case1 => rfl
  | case2 c span ls before ps h ih =>
    rw [h] at ih
    simpa [lexemeComments, Lexeme.comment?] using ih
  | case3 t span ls after ps h ih =>
    rw [h] at ih
    simpa [lexemeComments, Lexeme.comment?] using ih

/-- The comments behind a token start where it has stopped, and before any later token stops. -/
structure Orderly (ps : List Piece) : Prop where
  stop_le : ∀ p ∈ ps, ∀ x ∈ p.after, p.span.stop.offset ≤ x.span.start.offset
  lt_stop : ps.Pairwise fun p q => ∀ x ∈ p.after, x.span.start.offset < q.span.stop.offset

theorem Orderly.sublist {ps qs : List Piece} (h : Orderly qs) (hs : ps.Sublist qs) : Orderly ps :=
  ⟨fun p hp => h.stop_le p (hs.subset hp), h.lt_stop.sublist hs⟩

section
variable {p : Position} {cs : List Char} {ls : List (Located Lexeme)}

theorem Lexed.pairwise_pieces {R : Located Lexeme → Located Lexeme → Prop} (h : ls.Pairwise R) :
    (∀ p ∈ (pieces ls).2, p.lexemes.Pairwise R) ∧
      (pieces ls).2.Pairwise fun p q => ∀ a ∈ p.lexemes, ∀ b ∈ q.lexemes, R a b := by
  rw [← lexemes_of_pieces ls, List.pairwise_append, List.pairwise_flatMap] at h
  exact h.2.1

theorem mem_of_mem_pieces {p : Piece} (hp : p ∈ (pieces ls).2) : ∀ l ∈ p.lexemes, l ∈ ls := by
  intro l hl
  rw [← lexemes_of_pieces ls]
  exact List.mem_append_right _ (List.mem_flatMap.mpr ⟨p, hp, hl⟩)

theorem Lexed.orderly (h : Lexed p cs ls) : Orderly (pieces ls).2 := by
  obtain ⟨hin, hbetween⟩ := Lexed.pairwise_pieces h.ordered
  constructor
  · intro p hp x hx
    exact ((List.pairwise_cons.mp (hin p hp)).1 x.lexeme (List.mem_map_of_mem hx)).offset_le
  · refine hbetween.imp_of_mem fun {p q} hp hq hpq x hx => ?_
    have hxl : x.lexeme ∈ p.lexemes := List.mem_cons_of_mem _ (List.mem_map_of_mem hx)
    have hql : q.lexeme ∈ q.lexemes := List.mem_cons_self ..
    have h₁ := (h.span _ (mem_of_mem_pieces hp _ hxl)).2
    have h₂ := (hpq _ hxl _ hql).offset_le
    have h₃ := (h.span _ (mem_of_mem_pieces hq _ hql)).2
    simp only [Located.lexeme, Piece.lexeme] at h₁ h₂ h₃
    omega

end

end Reprint
