import Reprint.Proofs.Spelling

/-!
# Lines of a text

`lines` undoes writing lines one below the other (`lines_unlines`). To trim a text is to leave the one
piece of it that stands between white space and has none at its own ends (`trimmed_trimBlank`,
`Trimmed.eq`). A text is flattened by trimming its lines, and for that it makes no difference whether
the carriage return in front of a line feed is taken for a part of the line or of its end
(`Comment.text_flattened`). A token never spans lines (`Token.Spelled.newline_not_mem`).
-/

namespace Reprint

/-- Lines written one below the other, each with a line feed behind it. -/
def unlines (ls : List (List Char)) : List Char := ls.flatMap (· ++ ['\n'])

@[simp] theorem unlines_nil : unlines [] = [] := rfl

@[simp] theorem unlines_cons (l : List Char) (ls : List (List Char)) :
    unlines (l :: ls) = l ++ '\n' :: unlines ls := by
  simp [unlines]

theorem lines_append_newline {l : List Char} (h : '\n' ∉ l) (rest : List Char) :
    lines (l ++ '\n' :: rest) = l :: lines rest := by
  induction l with
  | nil => simp [lines]
  | cons c cs ih =>
    have hc : c ≠ '\n' := fun hc => h (hc ▸ List.mem_cons_self ..)
    have hcs : '\n' ∉ cs := fun hcs => h (List.mem_cons_of_mem _ hcs)
    simp [lines, hc, ih hcs]

theorem lines_unlines {ls : List (List Char)} (h : ∀ l ∈ ls, '\n' ∉ l) : lines (unlines ls) = ls := by
  induction ls with
  | nil => rfl
  | cons l ls ih =>
    obtain ⟨hl, hls⟩ := List.forall_mem_cons.mp h
    rw [unlines_cons, lines_append_newline hl, ih hls]

theorem not_mem_of_mem_lines {cs l : List Char} (h : l ∈ lines cs) : '\n' ∉ l := by
  induction cs generalizing l with
  | nil => simp [lines] at h
  | cons c cs ih =>
    rw [lines] at h
    by_cases hc : c = '\n'
    · rw [if_pos hc] at h
      rcases List.mem_cons.mp h with rfl | h
      · simp
      · exact ih h
    · rw [if_neg hc] at h
      cases hcs : lines cs with
      | nil =>
        rw [hcs] at h
        simp at h
        simp [h, Ne.symm hc]
      | cons l' ls =>
        rw [hcs] at h ih
        rcases List.mem_cons.mp h with rfl | h
        · have hl' := ih (List.mem_cons_self ..)
          simp [hl', Ne.symm hc]
        · exact ih (List.mem_cons_of_mem _ h)

/-! ## Tokens -/

theorem IsIdentifier.not_mem {name : String} (h : IsIdentifier name) {c : Char}
    (hc : isIdentPart c = false) : c ∉ name.toList := by
  obtain ⟨⟨d, ds, hname, hd, hds⟩, -⟩ := h
  have hpart : isIdentPart d = true := by
    simp only [isIdentStart, isIdentPart, Char.isAlphanum, Bool.or_eq_true] at hd ⊢
    tauto
  rw [hname, List.mem_cons]
  rintro (rfl | hmem)
  · exact ne_of_class hpart hc rfl
  · exact ne_of_class (hds c hmem) hc rfl

theorem IsFraction.newline_not_mem {cs : List Char} (h : IsFraction cs) : '\n' ∉ cs := by
  rcases h with rfl | ⟨ds, rfl, hds⟩
  · simp
  · rw [List.mem_cons]
    rintro (h | h)
    · simp at h
    · exact ne_of_class (hds _ h) (by decide) rfl

theorem IsExponent.newline_not_mem {cs : List Char} (h : IsExponent cs) : '\n' ∉ cs := by
  rcases h with rfl | ⟨mark, sign, ds, rfl, hmark, hsign, -, hds⟩
  · simp
  · rw [List.mem_cons, List.mem_append]
    rintro (h | h | h)
    · rcases hmark with rfl | rfl <;> simp at h
    · rcases hsign with rfl | rfl | rfl <;> simp at h
    · exact ne_of_class (hds _ h) (by decide) rfl

theorem IsNumeral.newline_not_mem {cs : List Char} (h : IsNumeral cs) : '\n' ∉ cs := by
  obtain ⟨whole, fraction, exponent, rfl, hwhole, hfraction, hexponent, -⟩ := h
  rw [List.mem_append, List.mem_append]
  rintro ((h | h) | h)
  · exact ne_of_class (hwhole _ h) (by decide) rfl
  · exact hfraction.newline_not_mem h
  · exact hexponent.newline_not_mem h

theorem QuotedTail.newline_not_mem {quote : Char} (hquote : quote ≠ '\n') {cs : List Char}
    (h : QuotedTail quote cs) : '\n' ∉ cs := by
  induction h with
  | close => simpa using hquote.symm
  | plain hc _ _ _ ih => simp [Ne.symm hc, ih]
  | escape hd _ ih => simp [Ne.symm hd, ih]

theorem IsQuoted.newline_not_mem {cs : List Char} (h : IsQuoted cs) : '\n' ∉ cs := by
  obtain ⟨quote, tail, rfl, hquote, htail⟩ := h
  have hne : quote ≠ '\n' := ne_of_class hquote (by decide)
  simp [Ne.symm hne, htail.newline_not_mem hne]

theorem Token.Spelled.newline_not_mem {t : Token} (h : t.Spelled) : '\n' ∉ t.spelling.toList := by
  cases t with
  | number n => exact IsNumeral.newline_not_mem h
  | string raw => exact IsQuoted.newline_not_mem h
  | ident name => exact IsIdentifier.not_mem h (by decide)
  | bool b => cases b <;> decide
  | _ => decide

/-! ## Trimming -/

/-- The piece stands between white space and has none at its own ends. -/
structure Trimmed (cs piece : List Char) : Prop where
  between : ∃ front back, cs = front ++ (piece ++ back) ∧ (∀ c ∈ front, isBlank c = true) ∧
    ∀ c ∈ back, isBlank c = true
  first : ∀ c ∈ piece.head?, isBlank c = false
  last : ∀ c ∈ piece.getLast?, isBlank c = false

theorem trimmed_trimBlank (cs : List Char) : Trimmed cs (trimBlank cs) := by
  obtain ⟨back, hcut, hback⟩ : ∃ back, cs.dropWhile isBlank = trimBlank cs ++ back ∧
      ∀ c ∈ back, isBlank c = true := by
    refine ⟨((cs.dropWhile isBlank).reverse.takeWhile isBlank).reverse, ?_, ?_⟩
    · rw [trimBlank, ← List.reverse_append, List.takeWhile_append_dropWhile, List.reverse_reverse]
    · intro c hc
      exact List.mem_takeWhile_imp (List.mem_reverse.mp hc)
  refine ⟨⟨cs.takeWhile isBlank, back, ?_, fun _ => List.mem_takeWhile_imp, hback⟩, ?_, ?_⟩
  · rw [← hcut, List.takeWhile_append_dropWhile]
  · intro c hc
    apply not_head_dropWhile isBlank cs c
    rw [hcut, List.head?_append, Option.mem_def.mp hc]
    rfl
  · intro c hc
    rw [trimBlank, List.getLast?_reverse] at hc
    exact not_head_dropWhile isBlank _ c hc

/-- There is one piece like that. -/
theorem Trimmed.eq {cs piece : List Char} (h : Trimmed cs piece) : trimBlank cs = piece := by
  obtain ⟨front, back, rfl, hfront, hback⟩ := h.between
  unfold trimBlank
  by_cases hpiece : piece = []
  · have hnil : (front ++ back).dropWhile isBlank = [] := by
      apply List.dropWhile_eq_nil_iff.mpr
      intro c hc
      exact (List.mem_append.mp hc).elim (hfront c) (hback c)
    simp [hpiece, hnil]
  · have hhead : ∀ c ∈ (piece ++ back).head?, isBlank c = false := by
      rw [List.head?_append_of_ne_nil _ hpiece]
      exact h.first
    have hlast : ∀ c ∈ piece.reverse.head?, isBlank c = false := by
      rw [List.head?_reverse]
      exact h.last
    rw [dropWhile_append_of_head hfront hhead, List.reverse_append,
      dropWhile_append_of_head (by simpa using hback) hlast, List.reverse_reverse]

theorem mem_of_mem_trimBlank {c : Char} {l : List Char} (h : c ∈ trimBlank l) : c ∈ l := by
  obtain ⟨front, back, hl, -⟩ := (trimmed_trimBlank l).between
  rw [hl]
  simp [h]

theorem Trimmed.concat {c : Char} {cs piece : List Char} (h : Trimmed cs piece)
    (hc : isBlank c = true) : Trimmed (cs ++ [c]) piece := by
  obtain ⟨front, back, rfl, hfront, hback⟩ := h.between
  refine ⟨⟨front, back ++ [c], by simp, hfront, ?_⟩, h.first, h.last⟩
  rw [List.forall_mem_append]
  exact ⟨hback, by simp [hc]⟩

theorem mem_of_mem_intercalate {α : Type} {a : α} {sep : List α} {ls : List (List α)}
    (h : a ∈ sep.intercalate ls) : a ∈ sep ∨ ∃ l ∈ ls, a ∈ l := by
  induction ls with
  | nil => simp at h
  | cons l ls ih =>
    cases ls with
    | nil => exact .inr ⟨l, by simp, by simpa using h⟩
    | cons l' ls =>
      rw [List.intercalate_cons_cons, List.mem_append, List.mem_append] at h
      rcases h with (h | h) | h
      · exact .inr ⟨l, by simp, h⟩
      · exact .inl h
      · rcases ih h with h | ⟨m, hm, ha⟩
        · exact .inl h
        · exact .inr ⟨m, List.mem_cons_of_mem _ hm, ha⟩

theorem newline_not_mem_flatten (text : String) : '\n' ∉ (flatten text).toList := by
  intro h
  rw [flatten, String.toList_intercalate, List.map_map] at h
  rcases mem_of_mem_intercalate h with h | ⟨l, hl, h⟩
  · simp at h
  · obtain ⟨line, hline, rfl⟩ := List.mem_map.mp hl
    have hmem : '\n' ∈ trimBlank line := by simpa using h
    exact not_mem_of_mem_lines hline (mem_of_mem_trimBlank hmem)

/-! ## Line ends of two characters -/

/-- Cuts at every line feed, and a carriage return in front of it goes with it. A line end that
stands last opens no new line. -/
def crlfLines : List Char → List (List Char)
  | [] => []
  | c :: cs =>
    if c = '\n' then [] :: crlfLines cs
    else if c = '\r' ∧ cs.head? = some '\n' then crlfLines cs
    else match crlfLines cs with
      | [] => [[c]]
      | l :: ls => (c :: l) :: ls

theorem lines_crlf (cs : List Char) :
    List.Forall₂ (fun l m => l = m ∨ l = m ++ ['\r']) (lines cs) (crlfLines cs) := by
  induction cs with
  | nil => exact .nil
  | cons c cs ih =>
    rw [lines, crlfLines]
    by_cases hc : c = '\n'
    · rw [if_pos hc, if_pos hc]
      exact .cons (.inl rfl) ih
    · rw [if_neg hc, if_neg hc]
      by_cases hcr : c = '\r' ∧ cs.head? = some '\n'
      · -- the line that the line feed ends is empty, so that the carriage return is all of it
        obtain ⟨rfl, hhead⟩ := hcr
        obtain ⟨rest, rfl⟩ := List.head?_eq_some_iff.mp hhead
        rw [if_pos ⟨rfl, rfl⟩]
        simp only [lines, crlfLines, if_true] at ih ⊢
        cases ih with
        | cons _ htail => exact .cons (.inr rfl) htail
      · rw [if_neg hcr]
        generalize lines cs = ls, crlfLines cs = ms at ih
        cases ih with
        | nil => exact .cons (.inl rfl) .nil
        | cons hhead htail =>
          refine .cons ?_ htail
          rcases hhead with rfl | rfl
          · exact .inl rfl
          · exact .inr rfl

theorem map_trimBlank_crlf (cs : List Char) :
    (lines cs).map trimBlank = (crlfLines cs).map trimBlank := by
  have h := lines_crlf cs
  generalize lines cs = ls, crlfLines cs = ms at h ⊢
  induction h with
  | nil => rfl
  | cons hhead _ ih =>
    rw [List.map_cons, List.map_cons, ih]
    rcases hhead with rfl | rfl
    · rfl
    · -- the carriage return that is left on the line is blank
      have hblank : isBlank '\r' = true := by decide
      rw [((trimmed_trimBlank _).concat hblank).eq]

/-- The comment on one line: its lines trimmed of white space and joined by single spaces. -/
def Comment.flattened (c : Comment) : Comment :=
  ⟨c.kind, " ".intercalate ((crlfLines c.text.toList).map fun l => String.ofList (trimBlank l))⟩

theorem Comment.text_flattened (c : Comment) : c.flattened.text = c.flat := by
  have h := congrArg (List.map String.ofList) (map_trimBlank_crlf c.text.toList)
  rw [List.map_map, List.map_map] at h
  exact congrArg (" ".intercalate ·) h.symm

end Reprint
