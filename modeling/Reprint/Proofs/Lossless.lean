import Reprint.Proofs.Positions

/-!
# Nothing is lost between the lexemes

The spans of the lexemes cut a text into spellings and white space, so the text can be put together
again from its lexemes. The positions in the spans are those that a look-up by offset finds
(`tokenize_lossless`).
-/

namespace Reprint

open String (utf8Len)

/-- Each lexeme as it is spelled, with a gap behind it. -/
def weave (ls : List (Located Lexeme)) (gaps : List (List Char)) : List Char :=
  (List.zipWith (fun l gap => l.value.spelling.toList ++ gap) ls gaps).flatten

structure Lossless (text : String) (ls : List (Located Lexeme)) : Prop where
  nonempty : ∀ l ∈ ls, l.span.start.offset < l.span.stop.offset
  ascending : ls.Pairwise fun a b => a.span.stop.offset ≤ b.span.start.offset
  outside : ∀ before c after, text.toList = before ++ c :: after →
    (∀ l ∈ ls, utf8Len before < l.span.start.offset ∨ l.span.stop.offset ≤ utf8Len before) →
      isSpace c = true
  slice : ∀ l ∈ ls, sliceBytes? l.span.start.offset l.span.stop.offset text.toList =
    some l.value.spelling.toList
  position : ∀ l ∈ ls, ∀ p ∈ [l.span.start, l.span.stop],
    (Source.ofString text).position? p.offset = some p
  rebuilt : ∃ first gaps, gaps.length = ls.length ∧
    (∀ gap ∈ first :: gaps, ∀ c ∈ gap, isSpace c = true) ∧ text.toList = first ++ weave ls gaps

section
variable {p : Position} {cs : List Char} {ls : List (Located Lexeme)}

/-- A lexeme stands in the text where its span says. -/
theorem Lexed.located (h : Lexed p cs ls) : ∀ l ∈ ls, ∃ before rest,
    cs = before ++ (l.value.spelling.toList ++ rest) ∧ l.span.start = p.after before ∧
      l.span.stop = p.after (before ++ l.value.spelling.toList) := by
  intro l hl
  obtain ⟨before, c, tail, rest, rfl, hstart, hscan⟩ := h.scanned l hl
  refine ⟨before, rest, by rw [spelling_of_scan hscan], hstart, ?_⟩
  rw [(h.span l hl).1, hstart, Position.after_append]

theorem Lexed.isSpace_outside (h : Lexed p cs ls) {before after : List Char} {c : Char}
    (hcs : cs = before ++ c :: after)
    (hout : ∀ l ∈ ls, (p.after before).offset < l.span.start.offset ∨
      l.span.stop.offset ≤ (p.after before).offset) : isSpace c = true := by
  induction h generalizing before with
  | nil => simp at hcs
  | space hd _ ih =>
    cases before with
    | nil =>
      obtain ⟨rfl, -⟩ := List.cons.inj hcs
      exact hd
    | cons e before =>
      obtain ⟨rfl, rfl⟩ := List.cons.inj hcs
      exact ih rfl hout
  | @lexeme p d cs x rest ls _ hscan _ ih =>
    obtain ⟨hfirst, hout⟩ := List.forall_mem_cons.mp hout
    -- the character is behind the first lexeme, since it is not in it
    have hbehind : (p.after x.spelling.toList).offset ≤ (p.after before).offset := by
      have := Position.offset_le_after p before
      dsimp only at hfirst
      omega
    rw [← spelling_of_scan hscan] at hcs
    rcases List.append_eq_append_iff.mp hcs with ⟨as, rfl, hrest⟩ | ⟨as, hx, hrest⟩
    · rw [Position.after_append] at hout
      exact ih hrest hout
    · cases as with
      | nil =>
        rw [List.append_nil] at hx
        rw [← hx] at hout
        have hhead : rest = [] ++ c :: after := hrest.symm
        exact ih hhead hout
      | cons a as =>
        have hlt := (p.after before).offset_lt_after (List.cons_ne_nil a as)
        rw [← Position.after_append, ← hx] at hlt
        omega

/-- The lexemes and the white space around them make up the text. -/
theorem Lexed.rebuilt (h : Lexed p cs ls) : ∃ first gaps, gaps.length = ls.length ∧
    (∀ gap ∈ first :: gaps, ∀ c ∈ gap, isSpace c = true) ∧ cs = first ++ weave ls gaps := by
  induction h with
  | nil => exact ⟨[], [], rfl, by simp, rfl⟩
  | @space p c cs ls hc _ ih =>
    obtain ⟨first, gaps, hlen, hspace, rfl⟩ := ih
    refine ⟨c :: first, gaps, hlen, ?_, rfl⟩
    simpa [hc] using hspace
  | @lexeme p c cs x rest ls _ hscan _ ih =>
    obtain ⟨first, gaps, hlen, hspace, rfl⟩ := ih
    refine ⟨[], first :: gaps, by simp [hlen], ?_, ?_⟩
    · simpa using hspace
    · rw [← spelling_of_scan hscan]
      simp [weave]

end

theorem tokenize_lossless {text : String} {ls : List (Located Lexeme)} (h : tokenize text = .ok ls) :
    Lossless text ls := by
  have hlexed := tokenize_eq_ok_iff.mp h
  constructor
  case nonempty => exact fun l hl => (hlexed.span l hl).2
  case ascending => exact hlexed.ordered.imp Position.Reaches.offset_le
  case outside =>
    intro before c after htext hout
    apply hlexed.isSpace_outside htext
    rwa [Position.offset_origin_after]
  case slice =>
    intro l hl
    obtain ⟨before, rest, htext, hstart, hstop⟩ := hlexed.located l hl
    rw [hstart, hstop, Position.offset_origin_after, Position.offset_origin_after, htext,
      sliceBytes?_append]
  case position =>
    intro l hl
    obtain ⟨before, rest, htext, hstart, hstop⟩ := hlexed.located l hl
    have htext' : text.toList = (before ++ l.value.spelling.toList) ++ rest := by
      rw [htext, List.append_assoc]
    simp only [List.forall_mem_cons, List.not_mem_nil, false_imp_iff, implies_true, and_true]
    constructor
    · rw [hstart, Position.offset_origin_after, Source.position?_of_append htext]
    · rw [hstop, Position.offset_origin_after, Source.position?_of_append htext']
  case rebuilt => exact hlexed.rebuilt

theorem tokenize_lossless_multibyte :
    ∃ ls, tokenize "'é' //ü\n\t.5 /*\n*/" = .ok ls ∧
      ls.map (fun l => (l.span.start, l.span.stop)) =
        [(⟨0, 1, 1⟩, ⟨4, 1, 4⟩), (⟨5, 1, 5⟩, ⟨9, 1, 8⟩), (⟨11, 2, 2⟩, ⟨13, 2, 4⟩),
          (⟨14, 2, 5⟩, ⟨19, 3, 3⟩)] ∧
      Lossless "'é' //ü\n\t.5 /*\n*/" ls := by
  obtain ⟨ls, hls, hspans⟩ : ∃ ls, tokenize "'é' //ü\n\t.5 /*\n*/" = .ok ls ∧
      ls.map (fun l => (l.span.start, l.span.stop)) =
        [(⟨0, 1, 1⟩, ⟨4, 1, 4⟩), (⟨5, 1, 5⟩, ⟨9, 1, 8⟩), (⟨11, 2, 2⟩, ⟨13, 2, 4⟩),
          (⟨14, 2, 5⟩, ⟨19, 3, 3⟩)] := ⟨_, by cbv, by cbv⟩
  exact ⟨ls, hls, hspans, tokenize_lossless hls⟩

end Reprint
