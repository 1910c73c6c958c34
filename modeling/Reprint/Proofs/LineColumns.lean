import Reprint.Proofs.Positions

/-!
# Lines and columns

A position found by its offset counts the line feeds before it and the characters behind the last of
them, and inside a character there is none (`Source.position?_counts`). Line and column together order
the places of a text as their offsets do, and so they tell them apart
(`Source.positions_ordered_by_lineColumn`).
-/

namespace Reprint

open String (utf8Len)

/-! ## Places between characters -/

/-- The offset is an end of the text or stands between two of its characters. -/
def IsBoundary (text : String) (o : Nat) : Prop :=
  (⟨o⟩ : String.Pos.Raw).IsValid text

instance {text : String} {o : Nat} : Decidable (IsBoundary text o) :=
  inferInstanceAs (Decidable (String.Pos.Raw.IsValid text ⟨o⟩))

theorem isBoundary_iff_strings {text : String} {o : Nat} : IsBoundary text o ↔
    ∃ before rest : String, text = before ++ rest ∧ before.utf8ByteSize = o := by
  unfold IsBoundary
  rw [String.Pos.Raw.isValid_iff_exists_append]
  simp only [String.Pos.Raw.ext_iff, String.byteIdx_rawEndPos, eq_comm (a := o)]

theorem isBoundary_iff {text : String} {o : Nat} : IsBoundary text o ↔
    ∃ before rest, text.toList = before ++ rest ∧ utf8Len before = o := by
  rw [isBoundary_iff_strings]
  constructor
  · rintro ⟨before, rest, rfl, ho⟩
    exact ⟨before.toList, rest.toList, String.toList_append, by rw [String.utf8Len_toList, ho]⟩
  · rintro ⟨before, rest, htext, ho⟩
    refine ⟨String.ofList before, String.ofList rest, ?_, ?_⟩
    · rw [← String.ofList_append, ← htext, String.ofList_toList]
    · rw [String.utf8ByteSize_ofList, ho]

/-- Of two cuts of a text, the one at the smaller offset is the shorter one. -/
theorem exists_between {before₁ rest₁ before₂ rest₂ : List Char}
    (h : before₁ ++ rest₁ = before₂ ++ rest₂) (hle : utf8Len before₁ ≤ utf8Len before₂) :
    ∃ between, before₂ = before₁ ++ between ∧ rest₁ = between ++ rest₂ := by
  rcases List.append_eq_append_iff.mp h with ⟨between, h₂, h₁⟩ | ⟨between, h₁, h₂⟩
  · exact ⟨between, h₂, h₁⟩
  · have hnil : between = [] := by
      rw [h₁, String.utf8Len_append] at hle
      exact String.utf8Len_eq_zero.mp (by omega)
    rw [hnil, List.append_nil] at h₁
    rw [hnil, List.nil_append] at h₂
    exact ⟨[], by rw [h₁, List.append_nil], h₂.symm⟩

/-! ## Counting -/

theorem Position.column_origin_after (cs : List Char) :
    (origin.after cs).column = (cs.rtakeWhile (· ≠ '\n')).length + 1 := by
  induction cs using List.reverseRecOn with
  | nil => rfl
  | append_singleton cs c ih =>
    rw [after_append, after_cons, after_nil, List.rtakeWhile_concat]
    unfold next
    by_cases hc : c = '\n'
    · simp [hc]
    · simp [hc, ih]

theorem Position.origin_after_eq (cs : List Char) : origin.after cs =
    ⟨utf8Len cs, cs.count '\n' + 1, (cs.rtakeWhile (· ≠ '\n')).length + 1⟩ := by
  calc origin.after cs
      = ⟨(origin.after cs).offset, (origin.after cs).line, (origin.after cs).column⟩ := rfl
    _ = ⟨utf8Len cs, cs.count '\n' + 1, (cs.rtakeWhile (· ≠ '\n')).length + 1⟩ := by
      rw [offset_origin_after, line_after, column_origin_after, origin, Nat.add_comm]

/-- The search moves its lower end only behind an entry that is not larger. -/
theorem le_of_countUpToBetween {table : Array Nat} {x lo hi : Nat} (h : hi ≤ table.size)
    (hlo : ∀ y, table[lo - 1]? = some y → y ≤ x) :
    ∀ y, table[countUpToBetween table x lo hi h - 1]? = some y → y ≤ x := by
  fun_induction countUpToBetween table x lo hi h with
  | case1 lo hi h hlt mid hle ih =>
    apply ih
    intro y hy
    have hmid : mid < table.size := by omega
    rw [Nat.add_sub_cancel, Array.getElem?_eq_getElem hmid] at hy
    exact Option.some.inj hy ▸ hle
  | case2 lo hi h hlt mid hle ih => exact ih hlo
  | case3 lo hi h hlt => exact hlo

namespace Source

theorem lineStart_le {text : String} {o start : Nat}
    (h : (ofString text).lineStarts[countUpTo (ofString text).lineStarts o - 1]? = some start) :
    start ≤ o := by
  refine le_of_countUpToBetween _ ?_ start h
  intro y hy
  have hzero : y = 0 := by simpa [ofString, eq_comm] using hy
  omega

theorem position?_min (s : Source) (o : Nat) : s.position? (min o s.byteCount) = s.position? o := by
  unfold position?
  rw [Nat.min_assoc, Nat.min_self]

theorem isBoundary_of_position? {text : String} {o : Nat} {p : Position}
    (h : (ofString text).position? o = some p) : IsBoundary text (min o text.utf8ByteSize) := by
  unfold position? sliceBytes? at h
  simp only [Option.bind_eq_bind, Option.bind_eq_some_iff, Prod.exists] at h
  obtain ⟨start, hstart, line, ⟨before, rest, hbefore, line', rest', hline, -⟩, -⟩ := h
  have hle := lineStart_le hstart
  obtain ⟨htext, hlen⟩ := splitBytes?_eq_some_iff.mp hbefore
  obtain ⟨rfl, hlen'⟩ := splitBytes?_eq_some_iff.mp hline
  refine isBoundary_iff.mpr ⟨before ++ line', rest', ?_, ?_⟩
  · rw [List.append_assoc]
    exact htext
  · rw [String.utf8Len_append, hlen, hlen']
    exact Nat.add_sub_cancel' hle

theorem position?_counts (text : String) (o : Nat) :
    (IsBoundary text (min o text.utf8ByteSize) → ∃ before rest : String, text = before ++ rest ∧
      before.utf8ByteSize = min o text.utf8ByteSize ∧
      (ofString text).position? o = some ⟨min o text.utf8ByteSize, before.toList.count '\n' + 1,
        (before.toList.rtakeWhile (· ≠ '\n')).length + 1⟩) ∧
    (¬ IsBoundary text (min o text.utf8ByteSize) → (ofString text).position? o = none) ∧
    (ofString text).lineCount = text.toList.count '\n' + 1 ∧
    (ofString text).position? text.utf8ByteSize = some (ofString text).stop := by
  refine ⟨?_, ?_, ?_, ?_⟩
  · intro hboundary
    obtain ⟨before, rest, htext, ho⟩ := isBoundary_iff_strings.mp hboundary
    have hsplit : text.toList = before.toList ++ rest.toList := by rw [htext, String.toList_append]
    refine ⟨before, rest, htext, ho, ?_⟩
    rw [← position?_min, show (ofString text).byteCount = text.utf8ByteSize from rfl, ← ho,
      ← String.utf8Len_toList, position?_of_append hsplit, Position.origin_after_eq]
  · intro hinside
    rw [Option.eq_none_iff_forall_ne_some]
    intro p hp
    exact hinside (isBoundary_of_position? hp)
  · simp [lineCount, ofString, length_lineStartsFrom]
  · have hsplit : text.toList = text.toList ++ [] := by rw [List.append_nil]
    rw [← String.utf8Len_toList, position?_of_append hsplit]
    rfl

/-- An offset past the end, and one inside the last character. -/
theorem position?_counts_multibyte :
    (ofString "é\nxü").position? 9 = some ⟨6, 2, 3⟩ ∧ (ofString "é\nxü").position? 5 = none := by
  constructor
  · obtain ⟨before, rest, htext, hsize, hposition⟩ :=
      (position?_counts "é\nxü" 9).1 (by decide +kernel)
    -- the offset is that of the end, so nothing is left behind it
    have hrest : rest = "" := by
      have hbytes := congrArg String.utf8ByteSize htext
      have hsix : "é\nxü".utf8ByteSize = 6 := by decide +kernel
      rw [String.utf8ByteSize_append, hsize, hsix] at hbytes
      exact String.utf8ByteSize_eq_zero_iff.mp (by omega)
    rw [hrest, String.append_empty] at htext
    rw [hposition, ← htext]
    decide +kernel
  · exact (position?_counts "é\nxü" 5).2.1 (by decide +kernel)

end Source

/-! ## Order -/

namespace Position

def lineColumn (p : Position) : ℕ ×ₗ ℕ := toLex (p.line, p.column)

theorem lineColumn_lt_next (p : Position) (c : Char) : p.lineColumn < (p.next c).lineColumn := by
  unfold lineColumn next
  rw [Prod.Lex.toLex_lt_toLex]
  by_cases hc : c = '\n'
  · simp [hc]
  · simp [hc]

theorem lineColumn_lt_after (p : Position) {cs : List Char} (h : cs ≠ []) :
    p.lineColumn < (p.after cs).lineColumn := by
  induction cs generalizing p with
  | nil => exact absurd rfl h
  | cons c cs ih =>
    rw [after_cons]
    by_cases hcs : cs = []
    · rw [hcs, after_nil]
      exact p.lineColumn_lt_next c
    · exact (p.lineColumn_lt_next c).trans (ih (p.next c) hcs)

theorem text_inj {p q : Position} : p.text = q.text ↔ p.lineColumn = q.lineColumn := by
  have hchars : ∀ p : Position,
      p.text.toList = p.line.repr.toList ++ ':' :: p.column.repr.toList := by
    intro p
    simp [text]
  -- no digit is a colon, so the text is cut at its only one
  have hcolon : ∀ n : Nat, ':' ∉ n.repr.toList := by
    intro n hn
    rw [Nat.toList_repr] at hn
    have hdigit := Nat.isDigit_of_mem_toDigits (by decide) (by decide) hn
    revert hdigit
    decide
  rw [← String.toList_inj, hchars, hchars, List.append_cons_inj_of_notMem (hcolon _) (hcolon _),
    String.toList_inj, String.toList_inj, Nat.repr_inj, Nat.repr_inj]
  simp [lineColumn]

section
variable {before₁ rest₁ before₂ rest₂ : List Char} (h : before₁ ++ rest₁ = before₂ ++ rest₂)
include h

theorem lineColumn_lt_of_offset_lt (hlt : utf8Len before₁ < utf8Len before₂) :
    (origin.after before₁).lineColumn < (origin.after before₂).lineColumn := by
  obtain ⟨between, rfl, -⟩ := exists_between h (Nat.le_of_lt hlt)
  rw [after_append]
  apply lineColumn_lt_after
  rintro rfl
  simp at hlt

theorem lineColumn_eq_of_offset_eq (heq : utf8Len before₁ = utf8Len before₂) :
    (origin.after before₁).lineColumn = (origin.after before₂).lineColumn := by
  obtain ⟨between, rfl, -⟩ := exists_between h (Nat.le_of_eq heq)
  have hnil : between = [] := by
    rw [String.utf8Len_append] at heq
    exact String.utf8Len_eq_zero.mp (by omega)
  rw [hnil, List.append_nil]

theorem lineColumn_lt_iff : utf8Len before₁ < utf8Len before₂ ↔
    (origin.after before₁).lineColumn < (origin.after before₂).lineColumn := by
  constructor
  · exact lineColumn_lt_of_offset_lt h
  · intro hlt
    rcases Nat.lt_trichotomy (utf8Len before₁) (utf8Len before₂) with ho | ho | ho
    · exact ho
    · exact absurd (lineColumn_eq_of_offset_eq h ho) hlt.ne
    · exact absurd (lineColumn_lt_of_offset_lt h.symm ho) hlt.asymm

end

end Position

namespace Source

theorem positions_ordered_by_lineColumn {text : String} {o₁ o₂ : Nat} (h₁ : IsBoundary text o₁)
    (h₂ : IsBoundary text o₂) : ∃ p₁ p₂, (ofString text).position? o₁ = some p₁ ∧
      (ofString text).position? o₂ = some p₂ ∧
      (o₁ < o₂ ↔ toLex (p₁.line, p₁.column) < toLex (p₂.line, p₂.column)) ∧
      (o₁ ≠ o₂ → p₁.text ≠ p₂.text) ∧
      (o₁ ≤ o₂ → ∃ between, sliceBytes? o₁ o₂ text.toList = some between ∧
        (p₁.line < p₂.line ↔ '\n' ∈ between)) := by
  obtain ⟨before₁, rest₁, htext₁, rfl⟩ := isBoundary_iff.mp h₁
  obtain ⟨before₂, rest₂, htext₂, rfl⟩ := isBoundary_iff.mp h₂
  have hcuts : before₁ ++ rest₁ = before₂ ++ rest₂ := htext₁.symm.trans htext₂
  refine ⟨_, _, position?_of_append htext₁, position?_of_append htext₂,
    Position.lineColumn_lt_iff hcuts, ?_, ?_⟩
  · intro hne htext
    have heq := Position.text_inj.mp htext
    rcases Nat.lt_or_gt_of_ne hne with hlt | hlt
    · exact absurd heq (Position.lineColumn_lt_of_offset_lt hcuts hlt).ne
    · exact absurd heq (Position.lineColumn_lt_of_offset_lt hcuts.symm hlt).ne'
  · intro hle
    obtain ⟨between, rfl, rfl⟩ := exists_between hcuts hle
    refine ⟨between, ?_, ?_⟩
    · rw [htext₁, sliceBytes?_append]
    · rw [Position.after_append, Position.line_after _ between, Nat.lt_add_right_iff_pos,
        List.count_pos_iff]

/-- Two places with an empty line between them. -/
theorem positions_ordered_by_lineColumn_empty_line :
    IsBoundary "é\n\nü" 2 ∧ IsBoundary "é\n\nü" 6 ∧
      ∃ p₁ p₂, (ofString "é\n\nü").position? 2 = some p₁ ∧ (ofString "é\n\nü").position? 6 = some p₂ ∧
        toLex (p₁.line, p₁.column) < toLex (p₂.line, p₂.column) ∧ p₁.text ≠ p₂.text ∧
        p₁.line < p₂.line := by
  have h₁ : IsBoundary "é\n\nü" 2 := by decide +kernel
  have h₂ : IsBoundary "é\n\nü" 6 := by decide +kernel
  obtain ⟨p₁, p₂, hp₁, hp₂, horder, htext, hline⟩ := positions_ordered_by_lineColumn h₁ h₂
  obtain ⟨between, hslice, hline⟩ := hline (by decide)
  have hbetween : sliceBytes? 2 6 "é\n\nü".toList = some ['\n', '\n', 'ü'] := by decide +kernel
  obtain rfl := Option.some.inj (hslice.symm.trans hbetween)
  exact ⟨h₁, h₂, p₁, p₂, hp₁, hp₂, horder.mp (by decide), htext (by decide), hline.mpr (by simp)⟩

end Source

end Reprint
