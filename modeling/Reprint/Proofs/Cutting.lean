import Reprint.Proofs.Relexing

/-!
# Cutting a text short

White space extends no lexeme. So a text that is cut between two lexemes, or in the white space there,
and goes on with other white space has the same lexemes in front of the cut (`Cut.frays`), and what
stands behind the cut is lexed from there (`Cut.lexed_iff`).
-/

namespace Reprint

/-! ## White space -/

theorem isBlank_of_isSpace {c : Char} (h : isSpace c = true) : isBlank c = true := by
  simp only [isSpace, Bool.or_eq_true, decide_eq_true_eq] at h
  rcases h with (((rfl | rfl) | rfl) | rfl) | rfl <;> decide

theorem isBlank_class {c : Char} (h : isBlank c = true) : isIdentPart c = false := by
  rw [Bool.eq_false_iff]
  intro hpart
  have halnum : c.isAlphanum = true ∨ c = '_' ∨ c = '$' := by
    simpa [isIdentPart, or_assoc] using hpart
  have hcode : (48 ≤ c.toNat ∧ c.toNat ≤ 57) ∨ (65 ≤ c.toNat ∧ c.toNat ≤ 90) ∨ c.toNat = 95 ∨
      c.toNat = 36 ∨ (97 ≤ c.toNat ∧ c.toNat ≤ 122) := by
    rcases halnum with halnum | rfl | rfl
    · simp only [Char.isAlphanum, Char.isAlpha, Char.isUpper, Char.isLower, Char.isDigit,
        Bool.or_eq_true, Bool.and_eq_true, decide_eq_true_eq, ge_iff_le, UInt32.le_iff_toNat_le] at halnum
      change (((65 ≤ c.toNat ∧ c.toNat ≤ 90) ∨ 97 ≤ c.toNat ∧ c.toNat ≤ 122) ∨
        48 ≤ c.toNat ∧ c.toNat ≤ 57) at halnum
      omega
    · decide
    · decide
  simp only [isBlank, blankRanges, List.any_cons, List.any_nil, Bool.or_false, Bool.or_eq_true,
    Bool.and_eq_true, decide_eq_true_eq] at h
  omega

theorem isBlank_not_isDigit {c : Char} (h : isBlank c = true) : c.isDigit = false := by
  have := isBlank_class h
  simp only [isIdentPart, Char.isAlphanum, Bool.or_eq_false_iff] at this
  exact this.1.1.2

/-! ## Texts that stay the same up to a cut -/

/-- The second text is the first one up to some place; there it ends or goes on with white space. -/
inductive Frays : List Char → List Char → Prop
  | cut {rest tail} : (∀ c ∈ tail.head?, isBlank c = true) → Frays rest tail
  | keep {rest tail} (c : Char) : Frays rest tail → Frays (c :: rest) (c :: tail)

theorem Frays.append {rest tail : List Char} (cs : List Char) (h : Frays rest tail) :
    Frays (cs ++ rest) (cs ++ tail) := by
  induction cs with
  | nil => exact h
  | cons c cs ih => exact .keep c ih

/-- What holds of white space and of the next character holds of what stands there instead. -/
theorem Frays.head {rest tail : List Char} {P : Char → Prop} (h : Frays rest tail)
    (hblank : ∀ c, isBlank c = true → P c) (hrest : ∀ c ∈ rest.head?, P c) :
    ∀ c ∈ tail.head?, P c := by
  cases h with
  | cut htail => exact fun c hc => hblank c (htail c hc)
  | keep c _ => exact hrest

/-! ## Numerals -/

section
variable {cs text rest tail : List Char}

theorem splitDigits_of_frays (h : splitDigits cs = (text, rest)) (hf : Frays rest tail) :
    splitDigits (text ++ tail) = (text, tail) := by
  obtain ⟨rfl, rfl⟩ := Prod.mk.inj h
  refine splitDigits_append_of_head (fun _ => List.mem_takeWhile_imp) ?_
  exact hf.head (fun _ => isBlank_not_isDigit) (not_head_dropWhile _ cs)

theorem splitFraction_of_head (h : ∀ c ∈ cs.head?, c ≠ '.') : splitFraction cs = ([], cs) := by
  cases cs with
  | nil => rfl
  | cons c cs => simp [splitFraction, h c rfl]

theorem splitFraction_of_frays (h : splitFraction cs = (text, rest)) (hf : Frays rest tail) :
    splitFraction (text ++ tail) = (text, tail) := by
  have hblank : ∀ c, isBlank c = true → c ≠ '.' := fun c hc => ne_of_class hc rfl
  cases cs with
  | nil =>
    cases h
    exact splitFraction_of_head (hf.head hblank (by simp))
  | cons c cs =>
    simp only [splitFraction] at h
    split at h
    · rename_i hc
      cases h
      have hds : splitDigits ((splitDigits cs).1 ++ tail) = ((splitDigits cs).1, tail) :=
        splitDigits_of_frays rfl hf
      simp only [List.cons_append, splitFraction, hds, if_pos hc]
    · rename_i hc
      cases h
      exact splitFraction_of_head (hf.head hblank (by simpa using hc))

/-- The digits behind the sign of what may be an exponent. -/
def exponentDigits (cs : List Char) : List Char := (splitDigits (splitSign cs).2).1

theorem exponentDigits_of_frays (h : exponentDigits cs = []) (hf : Frays cs tail) :
    exponentDigits tail = [] := by
  have hnone : ∀ {ds : List Char}, (splitDigits ds).1 = [] ↔ ∀ d ∈ ds.head?, d.isDigit = false := by
    intro ds
    cases ds with
    | nil => simp [splitDigits]
    | cons d ds => simp [splitDigits, List.takeWhile_cons]
  unfold exponentDigits at h ⊢
  rw [hnone] at h ⊢
  cases hf with
  | cut htail =>
    cases tail with
    | nil => simp [splitSign]
    | cons d tail =>
      have hd := htail d rfl
      have hsign : ¬ (d = '+' ∨ d = '-') := by
        rintro (rfl | rfl) <;> cases hd
      simpa [splitSign, hsign] using isBlank_not_isDigit hd
  | keep d hf =>
    by_cases hsign : d = '+' ∨ d = '-'
    · simp only [splitSign, if_pos hsign] at h ⊢
      exact hf.head (fun _ => isBlank_not_isDigit) h
    · simpa [splitSign, hsign] using h

theorem splitExponent_of_none {c : Char} (h : (c = 'e' ∨ c = 'E') → exponentDigits cs = []) :
    splitExponent (c :: cs) = ([], c :: cs) := by
  refine if_neg fun hmark => ?_
  exact hmark.2 (h hmark.1)

theorem splitExponent_of_frays (h : splitExponent cs = (text, rest)) (hf : Frays rest tail) :
    splitExponent (text ++ tail) = (text, tail) := by
  have hcut : (∀ c ∈ tail.head?, isBlank c = true) → splitExponent tail = ([], tail) := by
    intro htail
    cases tail with
    | nil => rfl
    | cons d tail =>
      refine splitExponent_of_none fun hmark => ?_
      have hd := htail d rfl
      rcases hmark with rfl | rfl <;> cases hd
  cases cs with
  | nil =>
    cases h
    cases hf with
    | cut htail => exact hcut htail
  | cons c cs =>
    simp only [splitExponent] at h
    split at h
    · rename_i hmark
      cases h
      generalize hds : splitDigits (splitSign cs).2 = digits at *
      obtain ⟨ds, rest⟩ := digits
      have hdigits : ∀ d ∈ ds, d.isDigit = true := by
        rw [← (Prod.mk.inj hds).1]
        exact fun _ => List.mem_takeWhile_imp
      simp only [List.cons_append, List.append_assoc, splitExponent,
        splitSign_append_of_sign (splitSign_sign cs) hdigits hmark.2, splitDigits_of_frays hds hf,
        if_pos hmark]
    · rename_i hmark
      cases h
      cases hf with
      | cut htail => exact hcut htail
      | keep c hf =>
        refine splitExponent_of_none fun hc => exponentDigits_of_frays ?_ hf
        by_contra hds
        exact hmark ⟨hc, hds⟩

theorem splitNumeral?_of_frays (h : splitNumeral? cs = some (text, rest)) (hf : Frays rest tail) :
    splitNumeral? (text ++ tail) = some (text, tail) := by
  simp only [splitNumeral?] at h
  split at h
  · cases h
  · rename_i hne
    obtain ⟨rfl, rfl⟩ := Prod.mk.inj (Option.some.inj h)
    -- each part is split off in front of the frayed rest as it was in front of the old one
    generalize hwhole : splitDigits cs = whole at *
    obtain ⟨whole, rest₁⟩ := whole
    generalize hfraction : splitFraction rest₁ = fraction at *
    obtain ⟨fraction, rest₂⟩ := fraction
    generalize hexponent : splitExponent rest₂ = exponent at *
    obtain ⟨exponent, rest₃⟩ := exponent
    have h₂ : Frays rest₂ (exponent ++ tail) := by
      have := splitExponent_append rest₂
      rw [hexponent] at this
      exact this ▸ hf.append exponent
    have h₁ : Frays rest₁ (fraction ++ (exponent ++ tail)) := by
      have := splitFraction_append rest₁
      rw [hfraction] at this
      exact this ▸ h₂.append fraction
    simp only [List.append_assoc, splitNumeral?, splitDigits_of_frays hwhole h₁,
      splitFraction_of_frays hfraction h₂, splitExponent_of_frays hexponent hf, if_neg hne]

end

/-! ## Lexemes -/

theorem isOpen_of_ofPunctuation? {c : Char} {t : Token} (h : Token.ofPunctuation? c = some t) :
    t.isOpen = false := by
  unfold Token.ofPunctuation? at h
  split at h <;> cases h <;> rfl

/-- A word or a numeral is scanned in front of white space as it was. -/
theorem scan_open_of_frays {c : Char} {cs ds rest tail : List Char} {t : Token}
    (h : scan c cs = some (.token t, rest)) (hopen : t.isOpen = true) (hf : Frays rest tail)
    (hds : t.spelling.toList ++ tail = c :: ds) : scan c ds = some (.token t, tail) := by
  unfold scan at h
  split at h
  · rename_i hc
    simp only [Option.map_eq_some_iff, Prod.mk.injEq, Prod.exists, Lexeme.token.injEq] at h
    obtain ⟨text, rest, hsplit, rfl, rfl⟩ := h
    rw [Token.spelling, String.toList_ofList] at hds
    exact scan_of_digit hc (hds ▸ splitNumeral?_of_frays hsplit hf)
  split at h
  · simp only [Option.map_eq_some_iff, Prod.mk.injEq, Prod.exists, Lexeme.token.injEq] at h
    obtain ⟨text, rest, -, rfl, -⟩ := h
    cases hopen
  split at h
  · rename_i hdigit hquote hc
    simp only [Option.some.injEq, Prod.mk.injEq, Lexeme.token.injEq] at h
    obtain ⟨rfl, rfl⟩ := h
    rw [Token.spelling_ofWord, String.toList_ofList, List.cons_append] at hds
    obtain ⟨-, rfl⟩ := List.cons.inj hds
    have hstop := hf.head (fun _ => isBlank_class) (not_head_dropWhile _ cs)
    have hword : ∀ d ∈ cs.takeWhile isIdentPart, isIdentPart d = true := fun _ => List.mem_takeWhile_imp
    simp only [scan, if_neg hdigit, if_neg hquote, if_pos hc, takeWhile_append_of_head hword hstop,
      dropWhile_append_of_head hword hstop]
  split at h
  · simp [Option.map_eq_some_iff] at h
  · simp only [Option.map_eq_some_iff, Prod.mk.injEq, Lexeme.token.injEq] at h
    obtain ⟨t, ht, rfl, -⟩ := h
    rw [isOpen_of_ofPunctuation? ht] at hopen
    cases hopen

theorem scan_of_frays {c : Char} {cs ds rest tail : List Char} {x : Lexeme}
    (h : scan c cs = some (x, rest)) (hf : Frays rest tail)
    (hline : ∀ k, x = .comment k → k.StopsBefore tail) (hds : x.spelling.toList ++ tail = c :: ds) :
    scan c ds = some (x, tail) := by
  cases x with
  | comment k => exact scan_of_spelled (spelled_of_scan h) (hline k rfl) hds
  | token t =>
    by_cases hopen : t.isOpen = true
    · exact scan_open_of_frays h hopen hf hds
    · exact scan_of_spelled (spelled_of_scan h) (fun h => absurd h hopen) hds

theorem spelling_eq_cons_of_scan {c : Char} {cs rest : List Char} {x : Lexeme}
    (h : scan c cs = some (x, rest)) : ∃ u, x.spelling.toList = c :: u := by
  have htext := spelling_of_scan h
  cases hx : x.spelling.toList with
  | nil => exact absurd hx (spelling_ne_nil_of_scan h)
  | cons d u =>
    rw [hx] at htext
    exact ⟨u, by rw [(List.cons.inj htext).1]⟩

/-- The first lexeme stands behind white space, and the text goes on behind it. -/
theorem Lexed.of_cons {p : Position} {cs : List Char} {l : Located Lexeme}
    {ls : List (Located Lexeme)} (h : Lexed p cs (l :: ls)) :
    ∃ x w c ds rest, l = ⟨x, p.after w, (p.after w).after x.spelling.toList⟩ ∧ cs = w ++ c :: ds ∧
      (∀ c ∈ w, isSpace c = true) ∧ isSpace c = false ∧ scan c ds = some (x, rest) ∧
      Lexed ((p.after w).after x.spelling.toList) rest ls := by
  generalize hls : l :: ls = all at h
  induction h with
  | nil => cases hls
  | @space p c cs all hc _ ih =>
    obtain ⟨x, w, d, ds, rest, hl, rfl, hw, hrest⟩ := ih hls
    exact ⟨x, c :: w, d, ds, rest, hl, rfl, List.forall_mem_cons.mpr ⟨hc, hw⟩, hrest⟩
  | @lexeme p c cs x rest all hc hscan hlexed ih =>
    obtain ⟨rfl, rfl⟩ := List.cons.inj hls
    exact ⟨x, [], c, cs, rest, rfl, rfl, by simp, hc, hscan, hlexed⟩

/-! ## The lexemes in front of a cut -/

/-- In front of `rest`, the text `before` at a position is cut into lexemes. -/
inductive Cut (rest : List Char) : Position → List Char → List (Located Lexeme) → Prop
  | nil {p} : Cut rest p [] []
  | space {p c before ls} : isSpace c = true → Cut rest (p.next c) before ls →
      Cut rest p (c :: before) ls
  | lexeme {p x c cs before ls} : x.spelling.toList ++ (before ++ rest) = c :: cs →
      scan c cs = some (x, before ++ rest) → Cut rest (p.after x.spelling.toList) before ls →
      Cut rest p (x.spelling.toList ++ before) (⟨x, p, p.after x.spelling.toList⟩ :: ls)

section
variable {p : Position} {before rest tail : List Char} {ls ms : List (Located Lexeme)}

/-- Behind the cut, lexing goes on as if the text began there. -/
theorem Cut.lexed_iff (h : Cut rest p before ls) : Lexed p (before ++ rest) ms ↔
    ∃ ms', ms = ls ++ ms' ∧ Lexed (p.after before) rest ms' := by
  induction h generalizing ms with
  | nil => simp
  | space hc _ ih =>
    rw [List.cons_append, lexed_space hc, ih]
    rfl
  | lexeme htext hscan _ ih =>
    rw [List.append_assoc, lexed_scan htext hscan, Position.after_append]
    simp only [ih]
    constructor
    · rintro ⟨_, rfl, ms', rfl, h⟩
      exact ⟨ms', rfl, h⟩
    · rintro ⟨ms', rfl, h⟩
      exact ⟨_, rfl, ms', rfl, h⟩

theorem Cut.eq_nil (h : Cut rest p [] ls) : ls = [] := by
  generalize hbefore : ([] : List Char) = before at h
  cases h with
  | nil => rfl
  | space _ _ => cases hbefore
  | lexeme _ hscan _ =>
    exact absurd (List.append_eq_nil_iff.mp hbefore.symm).1 (spelling_ne_nil_of_scan hscan)

/-- The cut gives the same lexemes with other white space behind it, unless that comes too late to
end a line comment. -/
theorem Cut.frays (h : Cut rest p before ls) (hf : Frays rest tail)
    (hends : ∀ l ∈ ls.getLast?, ∀ k, l.value = .comment k → k.StopsBefore tail) :
    Cut tail p before ls := by
  induction h with
  | nil => exact .nil
  | space hc _ ih => exact .space hc (ih hends)
  | @lexeme p x c cs before ls htext hscan hcut ih =>
    obtain ⟨u, hu⟩ := spelling_eq_cons_of_scan hscan
    have htext' : x.spelling.toList ++ (before ++ tail) = c :: (u ++ (before ++ tail)) := by
      rw [hu, List.cons_append]
    refine .lexeme htext' (scan_of_frays hscan (hf.append before) ?_ htext') (ih ?_)
    · rintro k rfl
      cases before with
      | nil =>
        rw [hcut.eq_nil] at hends
        exact hends _ rfl k rfl
      | cons d before =>
        -- the comment stops before the same character as it did
        have hstops := stopsBefore_of_scanComment (scanComment_of_scan hscan)
        exact fun hkind e he => hstops hkind e he
    · intro l hl
      refine hends l ?_
      rw [List.getLast?_cons, Option.mem_def.mp hl]
      rfl

theorem Cut.append {before' : List Char} (h : Cut (before' ++ rest) p before ls)
    (h' : Cut rest (p.after before) before' ms) : Cut rest p (before ++ before') (ls ++ ms) := by
  induction h with
  | nil => exact h'
  | space hc _ ih => exact .space hc (ih h')
  | @lexeme _ x c cs before ls htext hscan _ ih =>
    rw [List.append_assoc, List.cons_append]
    rw [Position.after_append] at h'
    rw [← List.append_assoc before] at htext hscan
    exact .lexeme htext hscan (ih h')

/-- A text can be cut in front of any of its lexemes, and behind the last one. -/
theorem Lexed.cut {cs : List Char} (h : Lexed p cs (ls ++ ms)) :
    ∃ before rest, cs = before ++ rest ∧ Cut rest p before ls ∧ Lexed (p.after before) rest ms ∧
      (∀ m ∈ ms.head?, p.after before = m.span.start) ∧ (ms = [] → rest = []) := by
  generalize hls : ls ++ ms = all at h
  induction h generalizing ls with
  | nil =>
    obtain ⟨rfl, rfl⟩ := List.append_eq_nil_iff.mp hls
    exact ⟨[], [], rfl, .nil, .nil, by simp, fun _ => rfl⟩
  | @space p c cs all hc _ ih =>
    obtain ⟨before, rest, rfl, hcut, hrest, hstart, hend⟩ := ih hls
    exact ⟨c :: before, rest, rfl, .space hc hcut, hrest, hstart, hend⟩
  | @lexeme p c cs x rest all hc hscan hlexed ih =>
    cases ls with
    | nil =>
      subst hls
      exact ⟨[], c :: cs, rfl, .nil, .lexeme hc hscan hlexed, by simp, by simp⟩
    | cons l ls =>
      obtain ⟨rfl, hls'⟩ := List.cons.inj hls
      obtain ⟨before, rest, rfl, hcut, hrest, hstart, hend⟩ := ih hls'
      have htext := spelling_of_scan hscan
      refine ⟨x.spelling.toList ++ before, rest, ?_, .lexeme htext hscan hcut, ?_, ?_, hend⟩
      · rw [List.append_assoc, htext]
      · rwa [Position.after_append]
      · rwa [Position.after_append]

end

end Reprint
