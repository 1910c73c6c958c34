import Reprint.Proofs.Lexemes
import Reprint.Text.Source

/-!
# Positions found by offset

A text is cut in bytes only between two characters (`splitBytes?_eq_some_iff`). The offsets where its
lines start fall into those up to such a cut and those behind it, so the binary search counts the
first, and looking up the offset gives the position that counting through the text gives
(`Source.position?_of_append`).
-/

namespace Reprint

open String (utf8Len)

/-! ## Cutting by bytes -/

theorem Position.offset_after (p : Position) (cs : List Char) :
    (p.after cs).offset = p.offset + utf8Len cs := by
  induction cs generalizing p with
  | nil => simp
  | cons c cs ih =>
    rw [after_cons, ih, offset_next, String.utf8Len_cons]
    omega

theorem Position.offset_origin_after (cs : List Char) : (origin.after cs).offset = utf8Len cs := by
  rw [offset_after, origin, Nat.zero_add]

theorem splitBytes?_eq_some_iff {n : Nat} {cs before rest : List Char} :
    splitBytes? n cs = some (before, rest) ↔ cs = before ++ rest ∧ utf8Len before = n := by
  fun_induction splitBytes? n cs generalizing before with
  | case1 cs =>
    simp only [Option.some.injEq, Prod.mk.injEq, String.utf8Len_eq_zero]
    constructor
    · rintro ⟨rfl, rfl⟩
      exact ⟨rfl, rfl⟩
    · rintro ⟨rfl, rfl⟩
      exact ⟨rfl, rfl⟩
  | case2 n =>
    simp only [reduceCtorEq, false_iff, not_and]
    intro h
    rw [(List.append_eq_nil_iff.mp h.symm).1]
    simp
  | case3 n c cs hc ih =>
    simp only [Option.map_eq_some_iff, Prod.exists, Prod.mk.injEq]
    constructor
    · rintro ⟨a, b, hab, rfl, rfl⟩
      obtain ⟨rfl, hlen⟩ := ih.mp hab
      exact ⟨rfl, by rw [String.utf8Len_cons]; omega⟩
    · rintro ⟨hcs, hlen⟩
      cases before with
      | nil => simp at hlen
      | cons d before =>
        obtain ⟨rfl, rfl⟩ := List.cons.inj hcs
        rw [String.utf8Len_cons] at hlen
        exact ⟨before, rest, ih.mpr ⟨rfl, by omega⟩, rfl, rfl⟩
  | case4 n c cs hc =>
    simp only [reduceCtorEq, false_iff, not_and]
    intro hcs hlen
    cases before with
    | nil => simp at hlen
    | cons d before =>
      obtain ⟨rfl, -⟩ := List.cons.inj hcs
      rw [String.utf8Len_cons] at hlen
      omega

theorem splitBytes?_append (before rest : List Char) :
    splitBytes? (utf8Len before) (before ++ rest) = some (before, rest) :=
  splitBytes?_eq_some_iff.mpr ⟨rfl, rfl⟩

theorem sliceBytes?_append (before between rest : List Char) :
    sliceBytes? (utf8Len before) (utf8Len (before ++ between)) (before ++ (between ++ rest)) =
      some between := by
  have hlen : utf8Len (before ++ between) - utf8Len before = utf8Len between := by
    rw [String.utf8Len_append]
    omega
  unfold sliceBytes?
  simp [splitBytes?_append, -String.utf8Len_append, hlen]

/-! ## Starts of lines -/

theorem lineStartsFrom_append (o : Nat) (as bs : List Char) :
    lineStartsFrom o (as ++ bs) = lineStartsFrom o as ++ lineStartsFrom (o + utf8Len as) bs := by
  induction as generalizing o with
  | nil => simp [lineStartsFrom]
  | cons c as ih =>
    have hadd : o + c.utf8Size + utf8Len as = o + utf8Len (c :: as) := by
      rw [String.utf8Len_cons]
      omega
    rw [List.cons_append, lineStartsFrom, lineStartsFrom, ih, hadd]
    by_cases hc : c = '\n'
    · simp [hc]
    · simp [hc]

theorem bounds_of_mem_lineStartsFrom {o x : Nat} {cs : List Char} (h : x ∈ lineStartsFrom o cs) :
    o < x ∧ x ≤ o + utf8Len cs := by
  induction cs generalizing o with
  | nil => simp [lineStartsFrom] at h
  | cons c cs ih =>
    have hc := c.utf8Size_pos
    have hrest : x ∈ lineStartsFrom (o + c.utf8Size) cs → o < x ∧ x ≤ o + utf8Len (c :: cs) := by
      intro h
      have := ih h
      rw [String.utf8Len_cons]
      omega
    rw [lineStartsFrom] at h
    by_cases hnl : c = '\n'
    · rcases List.mem_cons.mp (by simpa only [if_pos hnl] using h) with rfl | h
      · rw [String.utf8Len_cons]
        omega
      · exact hrest h
    · exact hrest (by simpa only [if_neg hnl] using h)

theorem length_lineStartsFrom (o : Nat) (cs : List Char) :
    (lineStartsFrom o cs).length = cs.count '\n' := by
  induction cs generalizing o with
  | nil => rfl
  | cons c cs ih =>
    rw [lineStartsFrom]
    by_cases hc : c = '\n'
    · simp [hc, ih]
    · simp [hc, ih]

/-- The last line of a text starts at the last of the offsets, and the position behind the text
counts the lines and what stands on the last one. -/
theorem exists_last_line (cs : List Char) : ∃ lines line, cs = lines ++ line ∧
    (0 :: lineStartsFrom 0 cs).getLast? = some (utf8Len lines) ∧
    Position.origin.after cs = ⟨utf8Len cs, cs.count '\n' + 1, line.length + 1⟩ := by
  induction cs using List.reverseRecOn with
  | nil => exact ⟨[], [], rfl, rfl, rfl⟩
  | append_singleton cs c ih =>
    obtain ⟨lines, line, rfl, hlast, hposition⟩ := ih
    have hstarts := lineStartsFrom_append 0 (lines ++ line) [c]
    rw [Position.after_append, hposition, Position.after_cons, Position.after_nil, List.count_append,
      String.utf8Len_append _ [c]]
    unfold Position.next
    by_cases hc : c = '\n'
    · refine ⟨lines ++ line ++ [c], [], by simp, ?_, by simp [hc, Nat.add_assoc]⟩
      rw [hstarts, lineStartsFrom, lineStartsFrom, if_pos hc, ← List.cons_append,
        List.getLast?_concat, String.utf8Len_append _ [c]]
      simp
    · refine ⟨lines, line ++ [c], by simp, ?_, by simp [hc]⟩
      rw [hstarts, lineStartsFrom, lineStartsFrom, if_neg hc, List.append_nil]
      exact hlast

/-! ## Binary search -/

/-- The search closes in on the one place where the entries begin to be larger. -/
theorem countUpToBetween_eq {table : Array Nat} {x k : Nat}
    (htable : ∀ i (h : i < table.size), table[i] ≤ x ↔ i < k) {lo hi : Nat} (h : hi ≤ table.size)
    (hlo : lo ≤ k) (hhi : k ≤ hi) : countUpToBetween table x lo hi h = k := by
  fun_induction countUpToBetween table x lo hi h with
  | case1 lo hi h hlt mid hle ih =>
    have := (htable mid (by omega)).mp hle
    exact ih (by omega) hhi
  | case2 lo hi h hlt mid hle ih =>
    have := (htable mid (by omega)).not.mp hle
    exact ih hlo (by omega)
  | case3 lo hi h hlt => omega

theorem countUpTo_append {small large : List Nat} {x : Nat} (hsmall : ∀ y ∈ small, y ≤ x)
    (hlarge : ∀ y ∈ large, x < y) : countUpTo (small ++ large).toArray x = small.length := by
  refine countUpToBetween_eq ?_ _ (Nat.zero_le _) (by simp)
  intro i hi
  rw [List.getElem_toArray, List.getElem_append]
  split
  · rename_i h
    exact ⟨fun _ => h, fun _ => hsmall _ (List.getElem_mem h)⟩
  · rename_i h
    have := hlarge _ (List.getElem_mem (l := large) (n := i - small.length) (by simp at hi; omega))
    omega

/-! ## Looking up an offset -/

namespace Source

section
variable {text : String} {before rest : List Char} (h : text.toList = before ++ rest)
include h

theorem lineStarts_of_append : (ofString text).lineStarts =
    ((0 :: lineStartsFrom 0 before) ++ lineStartsFrom (0 + utf8Len before) rest).toArray := by
  unfold ofString
  rw [h, lineStartsFrom_append, List.cons_append]

/-- The lines that have started up to an offset. -/
theorem countUpTo_lineStarts :
    countUpTo (ofString text).lineStarts (utf8Len before) = before.count '\n' + 1 := by
  rw [lineStarts_of_append h, ← length_lineStartsFrom 0 before]
  apply countUpTo_append
  · intro x hx
    rcases List.mem_cons.mp hx with rfl | hx
    · exact Nat.zero_le _
    · have := bounds_of_mem_lineStartsFrom hx
      omega
  · intro x hx
    have := bounds_of_mem_lineStartsFrom hx
    omega

theorem getElem?_lineStarts : (ofString text).lineStarts[before.count '\n']? =
    (0 :: lineStartsFrom 0 before).getLast? := by
  rw [lineStarts_of_append h, List.getElem?_toArray, List.getLast?_eq_getElem?, List.length_cons,
    length_lineStartsFrom, Nat.add_sub_cancel]
  apply List.getElem?_append_left
  rw [List.length_cons, length_lineStartsFrom]
  exact Nat.lt_succ_self _

/-- Looking up an offset between two characters gives the position that counting gives. -/
theorem position?_of_append :
    (ofString text).position? (utf8Len before) = some (Position.origin.after before) := by
  have hbytes : text.utf8ByteSize = utf8Len before + utf8Len rest := by
    rw [← String.ofList_toList (s := text), h, String.utf8ByteSize_ofList, String.utf8Len_append]
  have hmin : min (utf8Len before) text.utf8ByteSize = utf8Len before := by omega
  have hcount := countUpTo_lineStarts h
  have hstart := getElem?_lineStarts h
  obtain ⟨lines, line, rfl, hlast, hposition⟩ := exists_last_line before
  have hslice : sliceBytes? (utf8Len lines) (utf8Len (lines ++ line)) text.toList = some line := by
    rw [h, List.append_assoc, sliceBytes?_append]
  unfold position? byteCount
  rw [show (ofString text).text = text from rfl, hmin]
  simp only [hcount, hstart, hlast, hslice, hposition, Nat.add_sub_cancel, Option.bind_eq_bind,
    Option.bind_some, Option.pure_def]

end

end Source

end Reprint
