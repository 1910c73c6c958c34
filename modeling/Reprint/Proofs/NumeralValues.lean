import Reprint.Proofs.Cutting
import Reprint.Proofs.Validity

/-!
# Numerals have values

The spelling of a decimal number is digits, with a point behind, in front of or among them, and then
an exponent. Such spellings and no others denote a decimal number (`ofChars?_isSome_iff`). Every
numeral of a text is one, so its value is that of a number, and it is an integer if and only if it is
made of digits alone (`lexed_numerals_have_values`).
-/

namespace Reprint

/-! ## The spelling of decimal numbers -/

inductive IsSignificand : List Char → Prop
  | whole {ds} : ds ≠ [] → (∀ d ∈ ds, d.isDigit = true) → IsSignificand ds
  | pointBehind {ds fs} : ds ≠ [] → (∀ d ∈ ds, d.isDigit = true) → (∀ d ∈ fs, d.isDigit = true) →
      IsSignificand (ds ++ '.' :: fs)
  | pointAhead {ds fs} : (∀ d ∈ ds, d.isDigit = true) → fs ≠ [] → (∀ d ∈ fs, d.isDigit = true) →
      IsSignificand (ds ++ '.' :: fs)

def IsDecimal (cs : List Char) : Prop :=
  ∃ significand exponent, cs = significand ++ exponent ∧ IsSignificand significand ∧
    IsExponent exponent

theorem IsNumeral.isDecimal {cs : List Char} (h : IsNumeral cs) : IsDecimal cs := by
  obtain ⟨whole, fraction, exponent, rfl, hwhole, hfraction, hexponent, hdigit⟩ := h
  refine ⟨whole ++ fraction, exponent, rfl, ?_, hexponent⟩
  rcases hfraction with rfl | ⟨ds, rfl, hds⟩
  · rw [List.append_nil]
    exact .whole (by simpa using hdigit) hwhole
  · by_cases hnil : whole = []
    · subst hnil
      refine .pointAhead hwhole ?_ hds
      rintro rfl
      simp at hdigit
    · exact .pointBehind hnil hwhole hds

theorem IsExponent.not_head {exponent : List Char} (h : IsExponent exponent) :
    ∀ c ∈ exponent.head?, c.isDigit = false ∧ c ≠ '.' := by
  by_cases hne : exponent = []
  · simp [hne]
  · simpa using h.head hne []

theorem exists_digits (cs : List Char) : ∃ ds rest, cs = ds ++ rest ∧
    (∀ d ∈ ds, d.isDigit = true) ∧ ∀ c ∈ rest.head?, c.isDigit = false :=
  ⟨_, _, List.takeWhile_append_dropWhile.symm, fun _ => List.mem_takeWhile_imp, not_head_dropWhile _ _⟩

namespace Decimal

theorem splitMinus_of_digit {ds : List Char} (hne : ds ≠ []) (hds : ∀ d ∈ ds, d.isDigit = true) :
    splitMinus ds = (false, ds) := by
  obtain ⟨d, ds, rfl⟩ := List.exists_cons_of_ne_nil hne
  have hd := hds d (by simp)
  unfold splitMinus
  split
  · simp_all
  · simp_all
  · rfl

theorem exists_sign (cs : List Char) : ∃ sign, cs = sign ++ (splitMinus cs).2 ∧
    (sign = [] ∨ sign = ['+'] ∨ sign = ['-']) := by
  unfold splitMinus
  split
  · exact ⟨['-'], rfl, by simp⟩
  · exact ⟨['+'], rfl, by simp⟩
  · exact ⟨[], rfl, by simp⟩

theorem exponent?_isSome_iff {cs : List Char} : (exponent? cs).isSome = true ↔ IsExponent cs := by
  cases cs with
  | nil => simp [exponent?, IsExponent]
  | cons mark cs =>
    simp only [exponent?]
    constructor
    · intro h
      split at h
      · rename_i hcs
        obtain ⟨hmark, hne, hds⟩ := hcs
        obtain ⟨sign, hcs, hsign⟩ := exists_sign cs
        exact .inr ⟨mark, sign, _, by rw [← hcs], hmark, hsign, hne, by simpa using hds⟩
      · cases h
    · rintro (h | ⟨mark', sign, ds, h, hmark, hsign, hne, hds⟩)
      · cases h
      · obtain ⟨rfl, rfl⟩ := List.cons.inj h
        have hsplit : (splitMinus (sign ++ ds)).2 = ds := by
          rcases hsign with rfl | rfl | rfl
          · rw [List.nil_append, splitMinus_of_digit hne hds]
          · rfl
          · rfl
        rw [hsplit, if_pos ⟨hmark, hne, by simpa using hds⟩]
        rfl

theorem ofChars?_isSome_of_point {ds fs rest : List Char} (hds : ∀ d ∈ ds, d.isDigit = true)
    (hfs : ∀ d ∈ fs, d.isDigit = true) (hrest : ∀ c ∈ rest.head?, c.isDigit = false) :
    (ofChars? (ds ++ '.' :: (fs ++ rest))).isSome = true ↔
      ds ++ fs ≠ [] ∧ (exponent? rest).isSome = true := by
  have hpoint : ∀ c ∈ ('.' :: (fs ++ rest)).head?, c.isDigit = false := by simp
  unfold ofChars?
  rw [takeWhile_append_of_head hds hpoint, dropWhile_append_of_head hds hpoint]
  simp only [takeWhile_append_of_head hfs hrest, dropWhile_append_of_head hfs hrest]
  by_cases hne : ds ++ fs = []
  · simp [hne]
  · cases exponent? rest <;> simp [hne]

theorem ofChars?_isSome_of_no_point {ds rest : List Char} (hds : ∀ d ∈ ds, d.isDigit = true)
    (hrest : ∀ c ∈ rest.head?, c.isDigit = false) (hpoint : ∀ c ∈ rest.head?, c ≠ '.') :
    (ofChars? (ds ++ rest)).isSome = true ↔ ds ≠ [] ∧ (exponent? rest).isSome = true := by
  unfold ofChars?
  rw [takeWhile_append_of_head hds hrest, dropWhile_append_of_head hds hrest]
  split
  rename_i fraction behind hbehind
  split at hbehind
  · simp at hpoint
  · cases hbehind
    by_cases hne : ds = []
    · simp [hne]
    · cases exponent? rest <;> simp [hne]

theorem ofChars?_isSome_iff {cs : List Char} : (ofChars? cs).isSome = true ↔ IsDecimal cs := by
  constructor
  · intro h
    obtain ⟨ds, rest, rfl, hds, hrest⟩ := exists_digits cs
    by_cases hpoint : rest.head? = some '.'
    · obtain ⟨behind, rfl⟩ := List.head?_eq_some_iff.mp hpoint
      obtain ⟨fs, exponent, rfl, hfs, hexponent⟩ := exists_digits behind
      obtain ⟨hne, hsome⟩ := (ofChars?_isSome_of_point hds hfs hexponent).mp h
      refine ⟨ds ++ '.' :: fs, exponent, by simp, ?_, exponent?_isSome_iff.mp hsome⟩
      by_cases hnil : ds = []
      · exact .pointAhead hds (by simpa [hnil] using hne) hfs
      · exact .pointBehind hnil hds hfs
    · have hne : ∀ c ∈ rest.head?, c ≠ '.' := by
        rintro c hc rfl
        exact hpoint hc
      obtain ⟨hne, hsome⟩ := (ofChars?_isSome_of_no_point hds hrest hne).mp h
      exact ⟨ds, rest, rfl, .whole hne hds, exponent?_isSome_iff.mp hsome⟩
  · rintro ⟨significand, exponent, rfl, hsignificand, hexponent⟩
    have hdigit := fun c hc => (hexponent.not_head c hc).1
    have hsome := exponent?_isSome_iff.mpr hexponent
    cases hsignificand with
    | whole hne hds =>
      have hpoint := fun c hc => (hexponent.not_head c hc).2
      exact (ofChars?_isSome_of_no_point hds hdigit hpoint).mpr ⟨hne, hsome⟩
    | pointBehind hne hds hfs =>
      rw [List.append_assoc, List.cons_append]
      exact (ofChars?_isSome_of_point hds hfs hdigit).mpr ⟨by simp [hne], hsome⟩
    | pointAhead hds hne hfs =>
      rw [List.append_assoc, List.cons_append]
      exact (ofChars?_isSome_of_point hds hfs hdigit).mpr ⟨by simp [hne], hsome⟩

theorem bits_le (d : Decimal) : d.bits ≤ infinityBits := by
  have hnearest (num den : Nat) : nearestBits num den ≤ infinityBits := Nat.min_le_right _ _
  simp only [bits]
  split
  · exact Nat.zero_le _
  split
  · exact Nat.le_refl _
  split
  · exact Nat.zero_le _
  split
  · exact hnearest _ _
  · exact hnearest _ _

end Decimal

theorem toLower_of_digit {c : Char} (h : c.isDigit = true ∨ c = '.') : c.toLower = c := by
  rcases h with h | rfl
  · unfold Char.toLower
    simp only [Char.isDigit, Bool.and_eq_true, decide_eq_true_eq, ge_iff_le,
      UInt32.le_iff_toNat_le] at h ⊢
    split
    · rename_i hupper
      have hle := h.2
      have hge := hupper.1
      simp at hle hge
      omega
    · rfl
  · rfl

namespace Numeral

theorem splitMinus_of_isNumeral {cs : List Char} (h : IsNumeral cs) :
    Decimal.splitMinus cs = (false, cs) := by
  unfold Decimal.splitMinus
  split
  · exact absurd h.head (by decide)
  · exact absurd h.head (by decide)
  · rfl

theorem ne_word_of_isNumeral {cs : List Char} (h : IsNumeral cs) {word : String}
    (hword : word.toList.head? = some 'i') : String.ofList (cs.map Char.toLower) ≠ word := by
  rintro rfl
  rw [String.toList_ofList, List.head?_map] at hword
  obtain ⟨c, hc, hlower⟩ := Option.map_eq_some_iff.mp hword
  obtain ⟨tail, rfl⟩ := List.head?_eq_some_iff.mp hc
  rw [toLower_of_digit h.head] at hlower
  subst hlower
  exact absurd h.head (by decide)

/-- A numeral is read as a decimal number: it has no sign and spells no word. -/
theorem bits?_of_isNumeral {n : Numeral} (h : IsNumeral n.raw.toList) :
    n.bits? = (Decimal.ofChars? n.raw.toList).map Decimal.bits := by
  have hinf := ne_word_of_isNumeral h (show "inf".toList.head? = some 'i' by decide)
  have hinfinity := ne_word_of_isNumeral h (show "infinity".toList.head? = some 'i' by decide)
  simp [bits?, magnitudeBits?, splitMinus_of_isNumeral h, hinf, hinfinity, Function.comp_def]

theorem isInteger_iff {n : Numeral} (h : IsNumeral n.raw.toList) :
    n.isInteger = true ↔ ∀ c ∈ n.raw.toList, c.isDigit = true := by
  obtain ⟨whole, fraction, exponent, hraw, hwhole, hfraction, hexponent, -⟩ := h
  unfold isInteger
  rw [List.all_eq_true, hraw]
  constructor
  · intro hmarks
    obtain rfl : fraction = [] := by
      rcases hfraction with hnil | ⟨ds, rfl, -⟩
      · exact hnil
      · simpa using hmarks '.' (by simp)
    obtain rfl : exponent = [] := by
      rcases hexponent with hnil | ⟨mark, sign, ds, rfl, hmark, -⟩
      · exact hnil
      · have hfree := hmarks mark (by simp)
        rcases hmark with rfl | rfl <;> simp at hfree
    simpa using hwhole
  · intro hdigits c hc
    have hdigit := hdigits c hc
    have h₁ : c ≠ '.' := ne_of_class hdigit rfl
    have h₂ : c ≠ 'e' := ne_of_class hdigit rfl
    have h₃ : c ≠ 'E' := ne_of_class hdigit rfl
    simp [h₁, h₂, h₃]

/-- The numeral denotes a decimal number, which is its value, and it is told to be an integer where it
is made of digits alone. -/
structure Denotes (n : Numeral) (d : Decimal) : Prop where
  decimal : IsDecimal n.raw.toList
  read : Decimal.ofChars? n.raw.toList = some d
  value : n.bits? = some d.bits ∧ n.value = Float.ofBits (UInt64.ofNat d.bits)
  /-- What is not a number has bits above those of infinity. -/
  number : d.bits ≤ 0x7FF0000000000000
  integer : n.isInteger = true ↔ ∀ c ∈ n.raw.toList, c.isDigit = true

theorem exists_denotes {n : Numeral} (h : IsNumeral n.raw.toList) : ∃ d, n.Denotes d := by
  obtain ⟨d, hd⟩ := Option.isSome_iff_exists.mp (Decimal.ofChars?_isSome_iff.mpr h.isDecimal)
  have hbits : n.bits? = some d.bits := by rw [bits?_of_isNumeral h, hd, Option.map_some]
  have hinfinity : infinityBits = 0x7FF0000000000000 := by decide
  refine ⟨d, h.isDecimal, hd, ⟨hbits, ?_⟩, hinfinity ▸ d.bits_le, isInteger_iff h⟩
  unfold value
  rw [hbits]

end Numeral

/-! ## The numerals of a tree -/

/-- The nodes met on a walk over a node. -/
def Node.visits : Node → List Visit
  | program b | block b => b.visits
  | stmt s => s.visits
  | expr e => e.visits

theorem Expr.Spelled.visit {e e' : Expr} (h : e.Spelled) (hvisit : .expr e' ∈ e.visits) :
    e'.Spelled := by
  induction e with
  | paren inner ih =>
    rcases List.mem_cons.mp hvisit with heq | hmem
    · cases heq
      exact h
    · exact ih h hmem
  | assign target value ih =>
    rcases List.mem_cons.mp hvisit with heq | hmem
    · cases heq
      exact h
    · exact ih h.2 hmem
  | _ =>
    cases List.mem_singleton.mp hvisit
    exact h

theorem Declarator.Spelled.visit {d : Declarator} {e : Expr} (h : d.Spelled)
    (hvisit : .expr e ∈ d.visits) : e.Spelled := by
  unfold Declarator.visits at hvisit
  split at hvisit
  · cases hvisit
  · rename_i init hinit
    exact (h.2 init hinit).visit hvisit

mutual
theorem Stmt.spelled_visit {e : Expr} : (s : Stmt) → (∀ s' ∈ s.within, s'.form.Spelled) →
    .expr e ∈ s.visits → e.Spelled
  | ⟨leading, f, trailing⟩, h, hvisit => by
    rw [Stmt.within] at h
    obtain ⟨hform, hwithin⟩ := List.forall_mem_cons.mp h
    exact f.spelled_visit hform hwithin (by simpa [Stmt.visits] using hvisit)

theorem Form.spelled_visit {e : Expr} : (f : Form) → f.Spelled →
    (∀ s ∈ f.within, s.form.Spelled) → .expr e ∈ f.visits → e.Spelled
  | .block b, _, hwithin, hvisit => by
    rw [Form.within] at hwithin
    exact b.spelled_visit hwithin (by simpa [Form.visits] using hvisit)
  | .empty, _, _, hvisit => by simp [Form.visits] at hvisit
  | .function _ _ b, _, hwithin, hvisit => by
    rw [Form.within] at hwithin
    exact b.spelled_visit hwithin (by simpa [Form.visits] using hvisit)
  | .var ds, h, _, hvisit => by
    rw [Form.visits] at hvisit
    obtain ⟨d, hd, hmem⟩ := List.mem_flatMap.mp hvisit
    exact (h.2 d hd).visit hmem
  | .expr e', h, _, hvisit => by
    rw [Form.visits] at hvisit
    exact Expr.Spelled.visit h hvisit

theorem Body.spelled_visit {e : Expr} : (b : Body) → (∀ s ∈ b.within, s.form.Spelled) →
    .expr e ∈ b.visits → e.Spelled
  | ⟨ss, dangling⟩, h, hvisit => by
    rw [Body.within] at h
    exact stmts_spelled_visit ss h (by simpa [Body.visits] using hvisit)

theorem stmts_spelled_visit {e : Expr} : (ss : List Stmt) → (∀ s ∈ stmtsWithin ss, s.form.Spelled) →
    .expr e ∈ stmtVisits ss → e.Spelled
  | [], _, hvisit => by simp [stmtVisits] at hvisit
  | s :: ss, h, hvisit => by
    rw [stmtsWithin, List.forall_mem_append] at h
    rw [stmtVisits] at hvisit
    rcases List.mem_append.mp hvisit with hmem | hmem
    · exact s.spelled_visit h.1 hmem
    · exact stmts_spelled_visit ss h.2 hmem
end

theorem Node.Valid.visit {node : Node} {e : Expr} (h : node.Valid) (hvisit : .expr e ∈ node.visits) :
    e.Spelled := by
  cases node with
  | program b => exact b.spelled_visit h.forms hvisit
  | block b => exact b.spelled_visit h.forms hvisit
  | stmt s => exact s.spelled_visit h.forms hvisit
  | expr e' => exact (h.expr e' rfl).visit hvisit

/-- The spellings of decimal numbers are what is read as a decimal number, and the numerals of a text
are among them: as its lexemes, in the tree of the text, and in whatever a cursor on it gives out. -/
theorem lexed_numerals_have_values {text : String} {ls : List (Located Lexeme)}
    (hls : tokenize text = .ok ls) :
    (∀ cs, (Decimal.ofChars? cs).isSome = true ↔ IsDecimal cs) ∧
    (∀ l ∈ ls, ∀ n, l.value = .token (.number n) → ∃ d, n.Denotes d) ∧
    (∀ (f : Fragment) b, f.parse text = .ok b →
      ∀ n, .expr (.number n) ∈ f.visits b → ∃ d, n.Denotes d) ∧
    ∀ ks node, .ok node ∈ ((Cursor.start text ls).calls ks).1 →
      ∀ n, .expr (.number n) ∈ node.visits → ∃ d, n.Denotes d := by
  refine ⟨fun cs => Decimal.ofChars?_isSome_iff, ?_, ?_, ?_⟩
  · intro l hl n hn
    have hspelled := (tokenize_eq_ok_iff.mp hls).spelled l hl
    rw [hn] at hspelled
    exact Numeral.exists_denotes hspelled
  · intro f b h n hn
    have hvisit : .expr (.number n) ∈ b.visits := by cases f <;> simpa [Fragment.visits] using hn
    exact Numeral.exists_denotes (b.spelled_visit (forms_of_parse h) hvisit)
  · intro ks node hnode n hn
    have hvalid := ((Cursor.sound_start hls).calls ks).1 node hnode
    exact Numeral.exists_denotes (hvalid.visit hn)

/-- A numeral that starts with a point and has an exponent with a sign, behind a call that fails. -/
theorem lexed_numerals_have_values_point :
    ∃ ls node, tokenize "; a = (.5e+3)" = .ok ls ∧
      Except.ok node ∈ ((Cursor.start "; a = (.5e+3)" ls).calls [.expr, .stmt, .expr]).1 ∧
      .expr (.number ⟨".5e+3"⟩) ∈ node.visits ∧ ∃ d, Numeral.Denotes ⟨".5e+3"⟩ d := by
  obtain ⟨ls, hls, hcalls⟩ : ∃ ls, tokenize "; a = (.5e+3)" = .ok ls ∧
      ((Cursor.start "; a = (.5e+3)" ls).calls [.expr, .stmt, .expr]).1 =
        [.error ⟨"expression", "`;`", ⟨0, 1, 1⟩⟩, .ok (.stmt ⟨[], .empty, []⟩),
          .ok (.expr (.assign "a" (.paren (.number ⟨".5e+3"⟩))))] := ⟨_, by cbv, by cbv⟩
  have hnode : Except.ok (.expr (.assign "a" (.paren (.number ⟨".5e+3"⟩)))) ∈
      ((Cursor.start "; a = (.5e+3)" ls).calls [.expr, .stmt, .expr]).1 := by simp [hcalls]
  have hvisit : .expr (.number ⟨".5e+3"⟩) ∈
      Node.visits (.expr (.assign "a" (.paren (.number ⟨".5e+3"⟩)))) := by simp [Node.visits, Expr.visits]
  obtain ⟨-, -, -, hnodes⟩ := lexed_numerals_have_values hls
  exact ⟨ls, _, hls, hnode, hvisit, hnodes _ _ hnode _ hvisit⟩

end Reprint
