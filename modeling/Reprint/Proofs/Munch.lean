import Reprint.Proofs.Positions

/-!
# Lexemes are as long as they can be

The texts of tokens and of line comments form one language (`Declared`). A lexeme takes the longest
word of it that its text starts with, and a block comment ends where it is closed first
(`tokenize_takes_longest`). A numeral may have to give back what looked like a further part of it, so
its parts are compared one by one, from the exponent back to the whole digits
(`IsNumeral.length_le`).
-/

namespace Reprint

/-! ## Words and their longest -/

def punctuation : List Char := ['=', '(', ')', '\x7b', '\x7d', ',', ';']

def keywords : List (String × Token) :=
  [("function", .function), ("var", .var), ("null", .null), ("true", .bool true),
    ("false", .bool false), ("this", .this)]

inductive Declared : List Char → Prop
  | number {w} : IsNumeral w → Declared w
  | string {w} : IsQuoted w → Declared w
  | word {c cs} : isIdentStart c = true → (∀ d ∈ cs, isIdentPart d = true) → Declared (c :: cs)
  | reserved {w : String} : w ∈ reservedWords → Declared w.toList
  | punctuation {c} : c ∈ punctuation → Declared [c]
  | lineComment {cs} : (∀ c ∈ cs, isLineEnd c = false) → Declared ('/' :: '/' :: cs)

structure Longest (L : List Char → Prop) (w text : List Char) : Prop where
  starts : w <+: text
  belongs : L w
  longest : ∀ v, v <+: text → L v → v.length ≤ w.length

/-- The lexeme that a text starts with, told by the languages of lexemes alone. -/
structure TakesLongest (x : Lexeme) (text : List Char) : Prop where
  block : ['/', '*'] <+: text → ∃ inner, x = .comment ⟨.block, String.ofList ('/' :: '*' :: inner)⟩ ∧
    '/' :: '*' :: inner <+: text ∧ ClosedAtFirst inner
  longest : ¬ ['/', '*'] <+: text → Longest Declared x.spelling.toList text
  keyword : ∀ k ∈ keywords, x.spelling = k.1 → x = .token k.2

/-! ## Numerals -/

theorem splitDigits_append_digits {ds : List Char} (hds : ∀ d ∈ ds, d.isDigit = true)
    (rest : List Char) : splitDigits (ds ++ rest) = (ds ++ (splitDigits rest).1, (splitDigits rest).2) := by
  unfold splitDigits
  rw [List.takeWhile_append_of_pos hds, List.dropWhile_append_of_pos hds]

theorem IsExponent.length_le {exponent : List Char} (he : IsExponent exponent) (tail : List Char) :
    exponent.length ≤ (splitExponent (exponent ++ tail)).1.length := by
  rcases he with rfl | ⟨mark, sign, ds, rfl, hmark, hsign, hne, hds⟩
  · exact Nat.zero_le _
  · have hne' : ds ++ (splitDigits tail).1 ≠ [] := by simp [hne]
    rw [List.cons_append, List.append_assoc]
    simp only [splitExponent, splitSign_append_of_sign hsign hds hne,
      splitDigits_append_digits hds, if_pos (And.intro hmark hne')]
    simp

theorem IsFraction.length_le {fraction exponent : List Char} (hf : IsFraction fraction)
    (he : IsExponent exponent) (tail : List Char) :
    fraction.length + exponent.length ≤ (splitFraction (fraction ++ (exponent ++ tail))).1.length +
      (splitExponent (splitFraction (fraction ++ (exponent ++ tail))).2).1.length := by
  by_cases hne : exponent = []
  · -- more digits may follow the fraction
    subst hne
    apply Nat.le_add_right_of_le
    rcases hf with rfl | ⟨ds, rfl, hds⟩
    · exact Nat.zero_le _
    · simp [splitFraction, splitDigits_append_digits hds]
  · have hhead := he.head hne tail
    rw [splitFraction_append_of_head hf (fun c hc => (hhead c hc).1) fun c hc => (hhead c hc).2]
    have := he.length_le tail
    dsimp only
    omega

theorem IsNumeral.length_le {w tail text rest : List Char} (hw : IsNumeral w)
    (h : splitNumeral? (w ++ tail) = some (text, rest)) : w.length ≤ text.length := by
  obtain ⟨whole, fraction, exponent, rfl, hwhole, hf, he, -⟩ := hw
  simp only [splitNumeral?, List.append_assoc] at h
  split at h
  · cases h
  · obtain ⟨rfl, -⟩ := Prod.mk.inj (Option.some.inj h)
    by_cases hne : fraction ++ exponent = []
    · obtain ⟨rfl, rfl⟩ := List.append_eq_nil_iff.mp hne
      simp only [List.nil_append, splitDigits_append_digits hwhole, List.length_append,
        List.length_nil]
      omega
    · -- no digit follows the whole ones
      have hhead : ∀ c ∈ (fraction ++ (exponent ++ tail)).head?, c.isDigit = false := by
        rcases hf with rfl | ⟨ds, rfl, -⟩
        · exact fun c hc => (he.head hne tail c hc).1
        · simp
      rw [splitDigits_append_of_head hwhole hhead]
      have := hf.length_le he tail
      simp only [List.length_append]
      omega

/-! ## Scanning the longest word -/

section
variable {c : Char} {cs rest : List Char} {x : Lexeme}

theorem scan_of_isIdentStart (hc : isIdentStart c = true) (cs : List Char) :
    scan c cs = some (.token (Token.ofWord (String.ofList (c :: cs.takeWhile isIdentPart))),
      cs.dropWhile isIdentPart) := by
  obtain ⟨hdigit, hpoint, hquote⟩ := isIdentStart_class hc
  unfold scan
  rw [if_neg (by simp [hdigit, hpoint]), if_neg (by simp [hquote]), if_pos hc]

theorem scan_of_isQuoted {w tail : List Char} (hw : IsQuoted w) (htail : w ++ tail = c :: cs) :
    scan c cs = some (.token (.string (String.ofList w)), tail) := by
  apply scan_of_spelled
  · simpa [Lexeme.Spelled, Token.Spelled] using hw
  · intro hopen
    cases hopen
  · simpa [Lexeme.spelling, Token.spelling] using htail

theorem length_le_takeWhile {p : Char → Bool} {w text : List Char} (hw : ∀ c ∈ w, p c = true)
    (hstarts : w <+: text) : w.length ≤ (text.takeWhile p).length := by
  obtain ⟨tail, rfl⟩ := hstarts
  rw [List.takeWhile_append_of_pos hw, List.length_append]
  exact Nat.le_add_right _ _

theorem length_le_of_numeral {w : List Char} (h : scan c cs = some (x, rest)) (hw : IsNumeral (c :: w))
    (hstarts : w <+: cs) : (c :: w).length ≤ x.spelling.toList.length := by
  obtain ⟨tail, rfl⟩ := hstarts
  unfold scan at h
  rw [if_pos hw.head] at h
  simp only [Option.map_eq_some_iff, Prod.mk.injEq, Prod.exists] at h
  obtain ⟨text, rest, hsplit, rfl, -⟩ := h
  rw [Lexeme.spelling, Token.spelling, String.toList_ofList]
  exact hw.length_le hsplit

theorem length_le_of_word {w : List Char} (h : scan c cs = some (x, rest)) (hc : isIdentStart c = true)
    (hw : ∀ d ∈ w, isIdentPart d = true) (hstarts : w <+: cs) :
    (c :: w).length ≤ x.spelling.toList.length := by
  rw [scan_of_isIdentStart hc] at h
  obtain ⟨rfl, -⟩ := Prod.mk.inj (Option.some.inj h)
  rw [Lexeme.spelling, Token.spelling_ofWord, String.toList_ofList]
  exact Nat.succ_le_succ (length_le_takeWhile hw hstarts)

/-- No other string literal starts in the same place. -/
theorem length_le_of_quoted {w : List Char} (h : scan c cs = some (x, rest)) (hw : IsQuoted w)
    (hstarts : w <+: c :: cs) : w.length ≤ x.spelling.toList.length := by
  obtain ⟨tail, htail⟩ := hstarts
  rw [scan_of_isQuoted hw htail] at h
  obtain ⟨rfl, -⟩ := Prod.mk.inj (Option.some.inj h)
  simp [Lexeme.spelling, Token.spelling]

theorem length_le_of_lineComment {w : List Char} (h : scan '/' ('/' :: cs) = some (x, rest))
    (hw : ∀ d ∈ w, isLineEnd d = false) (hstarts : w <+: cs) :
    ('/' :: '/' :: w).length ≤ x.spelling.toList.length := by
  rw [scan_slash] at h
  obtain ⟨rfl, -⟩ := Prod.mk.inj (Option.some.inj h)
  have hlen := length_le_takeWhile (p := fun c => !isLineEnd c) (by simpa using hw) hstarts
  simpa [Lexeme.spelling] using hlen

theorem Declared.length_le {w : List Char} (hw : Declared w) (h : scan c cs = some (x, rest))
    (hstarts : w <+: c :: cs) : w.length ≤ x.spelling.toList.length := by
  cases hw with
  | number hw =>
    cases w with
    | nil => exact Nat.zero_le _
    | cons d w =>
      obtain ⟨rfl, htail⟩ := List.cons_prefix_cons.mp hstarts
      exact length_le_of_numeral h hw htail
  | string hw => exact length_le_of_quoted h hw hstarts
  | word hd hw =>
    obtain ⟨rfl, htail⟩ := List.cons_prefix_cons.mp hstarts
    exact length_le_of_word h hd hw htail
  | @reserved w hw =>
    obtain ⟨d, ds, hword, hd, hds⟩ := isWord_of_reserved hw
    rw [hword] at hstarts ⊢
    obtain ⟨rfl, htail⟩ := List.cons_prefix_cons.mp hstarts
    exact length_le_of_word h hd hds htail
  | punctuation _ => exact List.length_pos_iff.mpr (spelling_ne_nil_of_scan h)
  | lineComment hds =>
    obtain ⟨rfl, hsecond⟩ := List.cons_prefix_cons.mp hstarts
    obtain ⟨ds, rfl, htail⟩ := List.cons_prefix_iff.mp hsecond
    exact length_le_of_lineComment h hds htail

/-- A lexeme is spelled by a word, or it is a block comment. -/
theorem declared_of_spelled (hx : x.Spelled) :
    Declared x.spelling.toList ∨ ['/', '*'] <+: x.spelling.toList := by
  cases x with
  | comment k =>
    obtain ⟨kind, text⟩ := k
    cases kind with
    | line =>
      obtain ⟨inner, htext, hinner⟩ := hx
      left
      rw [Lexeme.spelling, htext]
      exact .lineComment hinner
    | block =>
      obtain ⟨inner, htext, -⟩ := hx
      right
      rw [Lexeme.spelling, htext]
      exact ⟨inner, rfl⟩
  | token t =>
    left
    cases t with
    | number n => exact .number hx
    | string raw => exact .string hx
    | ident name =>
      obtain ⟨⟨d, ds, hname, hd, hds⟩, -⟩ := hx
      rw [Lexeme.spelling, Token.spelling, hname]
      exact .word hd hds
    | bool b => cases b <;> exact .reserved (by decide)
    | null => exact .reserved (by decide)
    | function => exact .reserved (by decide)
    | var => exact .reserved (by decide)
    | this => exact .reserved (by decide)
    | _ => exact .punctuation (by decide)

theorem longest_of_scan (h : scan c cs = some (x, rest)) (hblock : ¬ ['/', '*'] <+: c :: cs) :
    Longest Declared x.spelling.toList (c :: cs) := by
  have hstarts : x.spelling.toList <+: c :: cs := ⟨rest, spelling_of_scan h⟩
  constructor
  · exact hstarts
  · rcases declared_of_spelled (spelled_of_scan h) with hx | hx
    · exact hx
    · exact absurd (hx.trans hstarts) hblock
  · intro v hv hdeclared
    exact hdeclared.length_le h hv

theorem block_of_scan (h : scan c cs = some (x, rest)) (hblock : ['/', '*'] <+: c :: cs) :
    ∃ inner, x = .comment ⟨.block, String.ofList ('/' :: '*' :: inner)⟩ ∧
      '/' :: '*' :: inner <+: c :: cs ∧ ClosedAtFirst inner := by
  obtain ⟨ds, hds⟩ := hblock
  simp only [List.cons_append, List.nil_append, List.cons.injEq] at hds
  obtain ⟨rfl, rfl⟩ := hds
  rw [scan_slash] at h
  simp only [scanComment, Option.map_eq_some_iff, Prod.mk.injEq, Prod.exists] at h
  obtain ⟨-, -, ⟨inner, rest, hinner, rfl, -⟩, rfl, -⟩ := h
  refine ⟨inner, rfl, ⟨rest, ?_⟩, closedAtFirst_of_splitClosed? hinner⟩
  simp [splitClosed?_append hinner]

theorem keyword_of_scan (h : scan c cs = some (x, rest)) :
    ∀ k ∈ keywords, x.spelling = k.1 → x = .token k.2 := by
  have hkeywords : ∀ k ∈ keywords, k.1 ∈ reservedWords ∧ Token.ofWord k.1 = k.2 := by decide
  intro k hk hx
  obtain ⟨hreserved, hword⟩ := hkeywords k hk
  obtain ⟨d, ds, hd, hstart, -⟩ := isWord_of_reserved hreserved
  have htext := spelling_of_scan h
  rw [hx, hd, List.cons_append] at htext
  obtain ⟨rfl, -⟩ := List.cons.inj htext
  rw [scan_of_isIdentStart hstart] at h
  obtain ⟨rfl, -⟩ := Prod.mk.inj (Option.some.inj h)
  rw [Lexeme.spelling, Token.spelling_ofWord] at hx
  rw [hx, hword]

end

/-! ## Lexemes of a text -/

theorem tokenize_takes_longest {text : String} {ls : List (Located Lexeme)}
    (h : tokenize text = .ok ls) : ∀ l ∈ ls, ∃ before rest,
      splitBytes? l.span.start.offset text.toList = some (before, rest) ∧ TakesLongest l.value rest := by
  intro l hl
  obtain ⟨before, c, tail, rest, htext, hstart, hscan⟩ := (tokenize_eq_ok_iff.mp h).scanned l hl
  refine ⟨before, c :: tail, ?_, block_of_scan hscan, longest_of_scan hscan, keyword_of_scan hscan⟩
  rw [hstart, Position.offset_origin_after, htext, splitBytes?_append]

/-- A second point starts a second numeral, and a mark without digits starts a word. -/
theorem tokenize_takes_longest_backtracking :
    ∃ ls, tokenize "1.5.5e/*/ */" = .ok ls ∧
      ⟨.token (.number ⟨".5"⟩), ⟨3, 1, 4⟩, ⟨5, 1, 6⟩⟩ ∈ ls ∧
      ⟨.comment ⟨.block, "/*/ */"⟩, ⟨6, 1, 7⟩, ⟨12, 1, 13⟩⟩ ∈ ls ∧
      TakesLongest (.token (.number ⟨".5"⟩)) ".5e/*/ */".toList ∧
      TakesLongest (.comment ⟨.block, "/*/ */"⟩) "/*/ */".toList := by
  have h : tokenize "1.5.5e/*/ */" = .ok
      [⟨.token (.number ⟨"1.5"⟩), ⟨0, 1, 1⟩, ⟨3, 1, 4⟩⟩, ⟨.token (.number ⟨".5"⟩), ⟨3, 1, 4⟩, ⟨5, 1, 6⟩⟩,
        ⟨.token (.ident "e"), ⟨5, 1, 6⟩, ⟨6, 1, 7⟩⟩,
        ⟨.comment ⟨.block, "/*/ */"⟩, ⟨6, 1, 7⟩, ⟨12, 1, 13⟩⟩] := by cbv
  refine ⟨_, h, by simp, by simp, ?_, ?_⟩
  · obtain ⟨before, rest, hsplit, hlongest⟩ := tokenize_takes_longest h
      ⟨.token (.number ⟨".5"⟩), ⟨3, 1, 4⟩, ⟨5, 1, 6⟩⟩ (by simp)
    cases hsplit
    exact hlongest
  · obtain ⟨before, rest, hsplit, hlongest⟩ := tokenize_takes_longest h
      ⟨.comment ⟨.block, "/*/ */"⟩, ⟨6, 1, 7⟩, ⟨12, 1, 13⟩⟩ (by simp)
    cases hsplit
    exact hlongest

end Reprint
