import Mathlib
import Reprint.Token.Scan

/-!
# The languages of lexemes

Each kind of lexeme has a language of spellings, said here without the scanner. A scanned lexeme is
in its language (`spelled_of_scan`), and a text that starts with a spelling and goes on with
something that cannot extend it is scanned as that lexeme (`scan_of_spelled`).
-/

namespace Reprint

/-! ## Languages -/

def reservedWords : List String := ["true", "false", "null", "function", "var", "this"]

def IsIdentifier (name : String) : Prop :=
  (∃ c cs, name.toList = c :: cs ∧ isIdentStart c = true ∧ ∀ d ∈ cs, isIdentPart d = true) ∧
    name ∉ reservedWords

def IsExponent (cs : List Char) : Prop :=
  cs = [] ∨ ∃ mark sign ds, cs = mark :: (sign ++ ds) ∧ (mark = 'e' ∨ mark = 'E') ∧
    (sign = [] ∨ sign = ['+'] ∨ sign = ['-']) ∧ ds ≠ [] ∧ ∀ d ∈ ds, d.isDigit = true

def IsFraction (cs : List Char) : Prop :=
  cs = [] ∨ ∃ ds, cs = '.' :: ds ∧ ∀ d ∈ ds, d.isDigit = true

/-- Digits with an optional point behind or among them, or a point with digits behind it; then an
optional exponent. -/
def IsNumeral (cs : List Char) : Prop :=
  ∃ whole fraction exponent, cs = whole ++ fraction ++ exponent ∧ (∀ d ∈ whole, d.isDigit = true) ∧
    IsFraction fraction ∧ IsExponent exponent ∧ (whole ≠ [] ∨ 1 < fraction.length)

/-- What follows the opening quote of a string literal, the closing one included. -/
inductive QuotedTail (quote : Char) : List Char → Prop
  | close : QuotedTail quote [quote]
  | plain {c cs} : c ≠ '\n' → c ≠ quote → c ≠ '\\' → QuotedTail quote cs → QuotedTail quote (c :: cs)
  | escape {d cs} : d ≠ '\n' → QuotedTail quote cs → QuotedTail quote ('\\' :: d :: cs)

def IsQuoted (cs : List Char) : Prop :=
  ∃ quote tail, cs = quote :: tail ∧ isQuote quote = true ∧ QuotedTail quote tail

/-- The text ends with a star and a slash, and these stand nowhere before. -/
def ClosedAtFirst (cs : List Char) : Prop :=
  ∃ inner, cs = inner ++ ['*', '/'] ∧ ¬ ['*', '/'] <:+: inner ++ ['*']

def Comment.Spelled : Comment → Prop
  | ⟨.line, text⟩ => ∃ cs, text.toList = '/' :: '/' :: cs ∧ ∀ c ∈ cs, isLineEnd c = false
  | ⟨.block, text⟩ => ∃ cs, text.toList = '/' :: '*' :: cs ∧ ClosedAtFirst cs

def Token.Spelled : Token → Prop
  | .number n => IsNumeral n.raw.toList
  | .string raw => IsQuoted raw.toList
  | .ident name => IsIdentifier name
  | _ => True

def Lexeme.Spelled : Lexeme → Prop
  | .token t => t.Spelled
  | .comment c => c.Spelled

/-! ## What ends a lexeme -/

/-- Whether the token ends with a character of words or numerals, so that more of them would extend
it. -/
def Token.isOpen : Token → Bool
  | .number _ | .bool _ | .null | .ident _ | .function | .var | .this => true
  | _ => false

/-- No word and no numeral goes on with this text. -/
def Delimits (rest : List Char) : Prop :=
  ∀ c ∈ rest.head?, isIdentPart c = false ∧ c ≠ '.'

def EndsLine (rest : List Char) : Prop :=
  ∀ c ∈ rest.head?, isLineEnd c = true

def Token.StopsBefore (t : Token) (rest : List Char) : Prop :=
  t.isOpen = true → Delimits rest

def Comment.StopsBefore (c : Comment) (rest : List Char) : Prop :=
  c.kind = .line → EndsLine rest

def Lexeme.StopsBefore : Lexeme → List Char → Prop
  | .token t, rest => t.StopsBefore rest
  | .comment c, rest => c.StopsBefore rest

/-! ## Runs of characters -/

theorem ne_of_class {p : Char → Bool} {c d : Char} (hc : p c = true) (hd : p d = false) : c ≠ d := by
  intro h
  rw [h, hd] at hc
  cases hc

theorem takeWhile_append_of_head {α : Type} {p : α → Bool} {run rest : List α}
    (hrun : ∀ c ∈ run, p c = true) (hrest : ∀ c ∈ rest.head?, p c = false) :
    (run ++ rest).takeWhile p = run := by
  rw [List.takeWhile_append_of_pos hrun]
  cases rest with
  | nil => simp
  | cons c cs => simp [hrest c (by simp)]

theorem dropWhile_append_of_head {α : Type} {p : α → Bool} {run rest : List α}
    (hrun : ∀ c ∈ run, p c = true) (hrest : ∀ c ∈ rest.head?, p c = false) :
    (run ++ rest).dropWhile p = rest := by
  rw [List.dropWhile_append_of_pos hrun]
  cases rest with
  | nil => simp
  | cons c cs => simp [hrest c (by simp)]

theorem not_head_dropWhile (p : Char → Bool) (cs : List Char) :
    ∀ c ∈ (cs.dropWhile p).head?, p c = false := by
  intro c hc
  have hhead := List.head?_dropWhile_not p cs
  rw [Option.mem_def.mp hc] at hhead
  simpa using hhead

/-! ## Numerals -/

theorem IsExponent.head {exponent : List Char} (he : IsExponent exponent) (hne : exponent ≠ [])
    (tail : List Char) : ∀ c ∈ (exponent ++ tail).head?, c.isDigit = false ∧ c ≠ '.' := by
  rcases he with rfl | ⟨mark, sign, ds, rfl, hmark, -⟩
  · exact absurd rfl hne
  · intro c hc
    simp only [List.cons_append, List.head?_cons, Option.mem_def, Option.some.injEq] at hc
    subst hc
    rcases hmark with rfl | rfl <;> decide

theorem not_isDigit_of_exponent {exponent rest : List Char} (he : IsExponent exponent)
    (hrest : ∀ c ∈ rest.head?, c.isDigit = false) :
    ∀ c ∈ (exponent ++ rest).head?, c.isDigit = false := by
  by_cases hne : exponent = []
  · rw [hne]
    exact hrest
  · exact fun c hc => (he.head hne rest c hc).1

theorem not_isDigit_of_fraction {fraction rest : List Char} (hf : IsFraction fraction)
    (hrest : ∀ c ∈ rest.head?, c.isDigit = false) :
    ∀ c ∈ (fraction ++ rest).head?, c.isDigit = false := by
  rcases hf with rfl | ⟨ds, rfl, -⟩
  · exact hrest
  · intro c hc
    simp only [List.cons_append, List.head?_cons, Option.mem_def, Option.some.injEq] at hc
    subst hc
    decide

theorem splitDigits_append_of_head {ds rest : List Char} (hds : ∀ d ∈ ds, d.isDigit = true)
    (hrest : ∀ c ∈ rest.head?, c.isDigit = false) : splitDigits (ds ++ rest) = (ds, rest) := by
  unfold splitDigits
  rw [takeWhile_append_of_head hds hrest, dropWhile_append_of_head hds hrest]

theorem splitSign_append_of_sign {sign ds rest : List Char}
    (hsign : sign = [] ∨ sign = ['+'] ∨ sign = ['-']) (hds : ∀ d ∈ ds, d.isDigit = true)
    (hne : ds ≠ []) : splitSign (sign ++ (ds ++ rest)) = (sign, ds ++ rest) := by
  rcases hsign with rfl | rfl | rfl
  · obtain ⟨d, ds, rfl⟩ := List.exists_cons_of_ne_nil hne
    have hd := hds d (by simp)
    have hplus : d ≠ '+' := ne_of_class hd rfl
    have hminus : d ≠ '-' := ne_of_class hd rfl
    simp [splitSign, hplus, hminus]
  · simp [splitSign]
  · simp [splitSign]

theorem splitExponent_append_of_head {exponent rest : List Char} (he : IsExponent exponent)
    (hdigit : ∀ c ∈ rest.head?, c.isDigit = false)
    (hmark : ∀ c ∈ rest.head?, c ≠ 'e' ∧ c ≠ 'E') :
    splitExponent (exponent ++ rest) = (exponent, rest) := by
  rcases he with rfl | ⟨mark, sign, ds, rfl, hm, hsign, hne, hds⟩
  · cases rest with
    | nil => rfl
    | cons c cs =>
      have := hmark c (by simp)
      simp [splitExponent, this]
  · rw [List.cons_append, List.append_assoc]
    simp only [splitExponent, splitSign_append_of_sign hsign hds hne,
      splitDigits_append_of_head hds hdigit]
    simp [hm, hne]

theorem splitFraction_append_of_head {fraction rest : List Char} (hf : IsFraction fraction)
    (hdigit : ∀ c ∈ rest.head?, c.isDigit = false) (hpoint : ∀ c ∈ rest.head?, c ≠ '.') :
    splitFraction (fraction ++ rest) = (fraction, rest) := by
  rcases hf with rfl | ⟨ds, rfl, hds⟩
  · cases rest with
    | nil => rfl
    | cons c cs =>
      have := hpoint c (by simp)
      simp [splitFraction, this]
  · rw [List.cons_append]
    simp [splitFraction, splitDigits_append_of_head hds hdigit]

theorem Delimits.not_isDigit {rest : List Char} (h : Delimits rest) :
    ∀ c ∈ rest.head?, c.isDigit = false := by
  intro c hc
  have := (h c hc).1
  simp only [isIdentPart, Char.isAlphanum, Bool.or_eq_false_iff] at this
  exact this.1.1.2

theorem Delimits.not_mark {rest : List Char} (h : Delimits rest) :
    ∀ c ∈ rest.head?, c ≠ 'e' ∧ c ≠ 'E' := by
  intro c hc
  have := (h c hc).1
  exact ⟨(ne_of_class rfl this).symm, (ne_of_class rfl this).symm⟩

theorem ne_point_of_exponent {exponent rest : List Char} (he : IsExponent exponent)
    (h : Delimits rest) : ∀ c ∈ (exponent ++ rest).head?, c ≠ '.' := by
  by_cases hne : exponent = []
  · rw [hne]
    exact fun c hc => (h c hc).2
  · exact fun c hc => (he.head hne rest c hc).2

theorem splitNumeral?_of_isNumeral {cs rest : List Char} (hcs : IsNumeral cs) (hrest : Delimits rest) :
    splitNumeral? (cs ++ rest) = some (cs, rest) := by
  obtain ⟨whole, fraction, exponent, rfl, hw, hf, he, hne⟩ := hcs
  have h₁ := not_isDigit_of_exponent he hrest.not_isDigit
  have h₂ := not_isDigit_of_fraction hf h₁
  have hne' : ¬ (whole = [] ∧ fraction.length ≤ 1) := by
    intro hnone
    obtain ⟨rfl, hlen⟩ := hnone
    rcases hne with hne | hne
    · exact hne rfl
    · omega
  simp only [splitNumeral?, List.append_assoc, splitDigits_append_of_head hw h₂,
    splitFraction_append_of_head hf h₁ (ne_point_of_exponent he hrest),
    splitExponent_append_of_head he hrest.not_isDigit hrest.not_mark, if_neg hne']

theorem isFraction_splitFraction (cs : List Char) : IsFraction (splitFraction cs).1 := by
  cases cs with
  | nil => exact .inl rfl
  | cons c cs =>
    simp only [splitFraction]
    split
    · rename_i h
      exact .inr ⟨(splitDigits cs).1, by rw [h], fun _ => List.mem_takeWhile_imp⟩
    · exact .inl rfl

theorem splitSign_sign (cs : List Char) :
    (splitSign cs).1 = [] ∨ (splitSign cs).1 = ['+'] ∨ (splitSign cs).1 = ['-'] := by
  fun_cases splitSign cs with
  | case1 c cs h => rcases h with rfl | rfl <;> simp
  | case2 => exact .inl rfl
  | case3 => exact .inl rfl

theorem isExponent_splitExponent (cs : List Char) : IsExponent (splitExponent cs).1 := by
  cases cs with
  | nil => exact .inl rfl
  | cons c cs =>
    simp only [splitExponent]
    split
    · rename_i h
      exact .inr ⟨c, _, _, rfl, h.1, splitSign_sign cs, h.2, fun _ => List.mem_takeWhile_imp⟩
    · exact .inl rfl

theorem isNumeral_of_splitNumeral? {cs text rest : List Char}
    (h : splitNumeral? cs = some (text, rest)) : IsNumeral text := by
  simp only [splitNumeral?] at h
  split at h
  · simp at h
  · rename_i hne
    simp only [Option.some.injEq, Prod.mk.injEq] at h
    obtain ⟨rfl, -⟩ := h
    refine ⟨_, _, _, rfl, fun _ => List.mem_takeWhile_imp, isFraction_splitFraction _,
      isExponent_splitExponent _, ?_⟩
    rw [Decidable.not_and_iff_or_not] at hne
    exact hne.imp_right Nat.lt_of_not_le

/-! ## Strings -/

theorem splitQuoted?_of_quotedTail {quote : Char} (hq : isQuote quote = true) {tail : List Char}
    (h : QuotedTail quote tail) (rest : List Char) :
    splitQuoted? quote (tail ++ rest) = some (tail, rest) := by
  have hnl : quote ≠ '\n' := ne_of_class hq rfl
  have hbs : quote ≠ '\\' := ne_of_class hq rfl
  induction h with
  | close =>
    rw [List.singleton_append, splitQuoted?.eq_def]
    simp [hnl]
  | plain h₁ h₂ h₃ _ ih =>
    rw [List.cons_append, splitQuoted?.eq_def]
    simp [h₁, h₂, h₃, ih]
  | escape hd _ ih =>
    rw [List.cons_append, List.cons_append, splitQuoted?.eq_def]
    simp [hbs.symm, hd, ih]

theorem quotedTail_of_splitQuoted? {quote : Char} {cs text rest : List Char}
    (h : splitQuoted? quote cs = some (text, rest)) : QuotedTail quote text := by
  fun_induction splitQuoted? quote cs generalizing text with
  | case1 => simp at h
  | case2 => simp at h
  | case3 => cases h; exact .close
  | case4 => simp at h
  | case5 => simp at h
  | case6 _ _ hd _ _ ih =>
    simp only [Option.map_eq_some_iff, Prod.mk.injEq, Prod.exists] at h
    obtain ⟨a, b, hab, rfl, rfl⟩ := h
    exact .escape hd (ih hab)
  | case7 _ _ h₁ h₂ h₃ ih =>
    simp only [Option.map_eq_some_iff, Prod.mk.injEq, Prod.exists] at h
    obtain ⟨a, b, hab, rfl, rfl⟩ := h
    exact .plain h₁ h₂ h₃ (ih hab)

/-! ## Comments -/

theorem closedAtFirst_cons {c : Char} {cs : List Char} (hne : ∀ ds, c :: cs ≠ '*' :: '/' :: ds) :
    ClosedAtFirst (c :: cs) ↔ ClosedAtFirst cs := by
  constructor
  · intro h
    obtain ⟨inner, hcs, hin⟩ := h
    cases inner with
    | nil => exact absurd hcs (hne [])
    | cons d inner =>
      obtain ⟨rfl, rfl⟩ := List.cons.inj hcs
      exact ⟨inner, rfl, fun hi => hin (hi.trans (List.suffix_cons ..).isInfix)⟩
  · intro h
    obtain ⟨inner, rfl, hin⟩ := h
    refine ⟨c :: inner, rfl, fun hi => ?_⟩
    rw [List.cons_append, List.infix_cons_iff] at hi
    rcases hi with ⟨ds, hds⟩ | hi
    · cases inner with
      | nil => simp at hds
      | cons d inner =>
        simp only [List.cons_append, List.nil_append, List.cons.injEq] at hds
        exact hne (inner ++ ['*', '/']) (by simp [← hds.1, ← hds.2.1])
    · exact hin hi

theorem splitClosed?_of_closedAtFirst {cs : List Char} (h : ClosedAtFirst cs) (rest : List Char) :
    splitClosed? (cs ++ rest) = some (cs, rest) := by
  induction cs with
  | nil =>
    obtain ⟨inner, hcs, -⟩ := h
    simp at hcs
  | cons c cs ih =>
    by_cases hopen : ∃ ds, c :: cs = '*' :: '/' :: ds
    · obtain ⟨ds, hds⟩ := hopen
      obtain ⟨rfl, rfl⟩ := List.cons.inj hds
      -- the first closing is the only one, so nothing can stand behind it
      have hnil : ds = [] := by
        obtain ⟨inner, hcs, hin⟩ := h
        cases inner with
        | nil => simpa using hcs
        | cons d inner =>
          cases inner with
          | nil => simp at hcs
          | cons e inner =>
            simp only [List.cons_append, List.cons.injEq] at hcs
            obtain ⟨rfl, rfl, -⟩ := hcs
            exact absurd ⟨[], inner ++ ['*'], by simp⟩ hin
      subst hnil
      rfl
    · have hne : ∀ ds, c :: cs ≠ '*' :: '/' :: ds := fun ds hds => hopen ⟨ds, hds⟩
      rw [List.cons_append, splitClosed?, ih ((closedAtFirst_cons hne).mp h)]
      · rfl
      · intro ds hc hcs
        subst hc
        cases cs with
        | nil =>
          obtain ⟨inner, hin, -⟩ := h
          cases inner <;> simp at hin
        | cons d cs =>
          obtain ⟨rfl, -⟩ := List.cons.inj hcs
          exact hne cs rfl

theorem closedAtFirst_of_splitClosed? {cs text rest : List Char}
    (h : splitClosed? cs = some (text, rest)) : ClosedAtFirst text := by
  fun_induction splitClosed? cs generalizing text with
  | case1 =>
    cases h
    exact ⟨[], rfl, by decide⟩
  | case2 c cs hne ih =>
    simp only [Option.map_eq_some_iff, Prod.mk.injEq, Prod.exists] at h
    obtain ⟨a, b, hab, rfl, rfl⟩ := h
    refine (closedAtFirst_cons fun ds hds => ?_).mpr (ih hab)
    obtain ⟨rfl, rfl⟩ := List.cons.inj hds
    exact hne (ds ++ b) rfl (splitClosed?_append hab).symm
  | case3 => simp at h

theorem scanComment_of_spelled {c : Comment} {cs rest : List Char} (hc : c.Spelled)
    (hrest : c.StopsBefore rest) (hcs : c.text.toList ++ rest = '/' :: cs) :
    scanComment cs = some (c, rest) := by
  obtain ⟨kind, text⟩ := c
  cases kind with
  | line =>
    obtain ⟨inner, htext, hinner⟩ := hc
    rw [htext] at hcs
    simp only [List.cons_append, List.cons.injEq, true_and] at hcs
    have hends := hrest rfl
    have hrun : ∀ c ∈ inner, (!isLineEnd c) = true := fun c hc => by simp [hinner c hc]
    have hstop : ∀ c ∈ rest.head?, (!isLineEnd c) = false := fun c hc => by simp [hends c hc]
    subst hcs
    simp only [scanComment, takeWhile_append_of_head hrun hstop, dropWhile_append_of_head hrun hstop,
      ← htext, String.ofList_toList]
  | block =>
    obtain ⟨inner, htext, hinner⟩ := hc
    rw [htext] at hcs
    simp only [List.cons_append, List.cons.injEq, true_and] at hcs
    subst hcs
    simp only [scanComment, splitClosed?_of_closedAtFirst hinner, Option.map_some, ← htext,
      String.ofList_toList]

theorem spelled_of_scanComment {c : Comment} {cs rest : List Char}
    (h : scanComment cs = some (c, rest)) : c.Spelled := by
  unfold scanComment at h
  split at h
  · simp only [Option.some.injEq, Prod.mk.injEq] at h
    obtain ⟨rfl, -⟩ := h
    refine ⟨_, String.toList_ofList, fun c hc => ?_⟩
    have := List.mem_takeWhile_imp hc
    simpa using this
  · simp only [Option.map_eq_some_iff, Prod.mk.injEq, Prod.exists] at h
    obtain ⟨a, b, hab, rfl, -⟩ := h
    exact ⟨_, String.toList_ofList, closedAtFirst_of_splitClosed? hab⟩
  · simp at h

theorem stopsBefore_of_scanComment {c : Comment} {cs rest : List Char}
    (h : scanComment cs = some (c, rest)) : c.StopsBefore rest := by
  intro hkind
  unfold scanComment at h
  split at h
  · rename_i cs
    simp only [Option.some.injEq, Prod.mk.injEq] at h
    obtain ⟨-, rfl⟩ := h
    intro d hd
    have hhead := List.head?_dropWhile_not (fun c => !isLineEnd c) cs
    rw [Option.mem_def.mp hd] at hhead
    simpa using hhead
  · simp only [Option.map_eq_some_iff, Prod.mk.injEq, Prod.exists] at h
    obtain ⟨a, b, -, rfl, -⟩ := h
    cases hkind
  · simp at h

/-! ## Words -/

theorem ofWord_of_not_reserved {word : String} (h : word ∉ reservedWords) :
    Token.ofWord word = .ident word := by
  unfold Token.ofWord
  split <;> first | rfl | exact absurd (by decide) h

theorem spelled_ofWord {c : Char} {cs : List Char} (hc : isIdentStart c = true)
    (hcs : ∀ d ∈ cs, isIdentPart d = true) : (Token.ofWord (String.ofList (c :: cs))).Spelled := by
  by_cases h : String.ofList (c :: cs) ∈ reservedWords
  · simp only [reservedWords, List.mem_cons, List.not_mem_nil, or_false] at h
    rcases h with h | h | h | h | h | h <;> rw [h] <;> trivial
  · rw [ofWord_of_not_reserved h]
    exact ⟨⟨c, cs, String.toList_ofList, hc, hcs⟩, h⟩

theorem isIdentStart_class {c : Char} (h : isIdentStart c = true) :
    c.isDigit = false ∧ c ≠ '.' ∧ isQuote c = false := by
  refine ⟨?_, ne_of_class h rfl, ?_⟩
  · rw [Bool.eq_false_iff]
    intro hd
    simp only [isIdentStart, Char.isAlpha, Char.isUpper, Char.isLower, Char.isDigit, Bool.or_eq_true,
      Bool.and_eq_true, decide_eq_true_eq, ge_iff_le, UInt32.le_iff_toNat_le] at h hd
    rcases h with (h | rfl) | rfl
    · change (65 ≤ c.toNat ∧ c.toNat ≤ 90) ∨ (97 ≤ c.toNat ∧ c.toNat ≤ 122) at h
      change 48 ≤ c.toNat ∧ c.toNat ≤ 57 at hd
      omega
    · revert hd; decide
    · revert hd; decide
  · simp only [isQuote, Bool.or_eq_false_iff, decide_eq_false_iff_not]
    exact ⟨ne_of_class h rfl, ne_of_class h rfl⟩

theorem scan_word {word : String} {c : Char} {cs rest : List Char}
    (hword : word.toList = c :: cs) (hc : isIdentStart c = true)
    (hcs : ∀ d ∈ cs, isIdentPart d = true) (hrest : Delimits rest) :
    scan c (cs ++ rest) = some (.token (Token.ofWord word), rest) := by
  obtain ⟨h₁, h₂, h₃⟩ := isIdentStart_class hc
  have hstop : ∀ d ∈ rest.head?, isIdentPart d = false := fun d hd => (hrest d hd).1
  simp only [scan, h₁, h₂, h₃, hc, or_self, Bool.false_eq_true, if_false, if_true,
    takeWhile_append_of_head hcs hstop, dropWhile_append_of_head hcs hstop, ← hword,
    String.ofList_toList]

theorem isWord_of_reserved {word : String} (h : word ∈ reservedWords) : ∃ c cs,
    word.toList = c :: cs ∧ isIdentStart c = true ∧ ∀ d ∈ cs, isIdentPart d = true := by
  have hletters : ∀ w ∈ reservedWords, w.toList.head?.any isIdentStart ∧ w.toList.all isIdentPart := by
    decide
  obtain ⟨hstart, hpart⟩ := hletters word h
  cases hw : word.toList with
  | nil => simp [hw] at hstart
  | cons c cs =>
    rw [hw, List.all_cons, Bool.and_eq_true] at hpart
    exact ⟨c, cs, rfl, by simpa [hw] using hstart, List.all_eq_true.mp hpart.2⟩

theorem scan_reserved (word : String) {c : Char} {cs rest : List Char} (hword : word ∈ reservedWords)
    (hrest : Delimits rest) (hcs : word.toList ++ rest = c :: cs) :
    scan c cs = some (.token (Token.ofWord word), rest) := by
  obtain ⟨d, ds, hw, hstart, hpart⟩ := isWord_of_reserved hword
  rw [hw, List.cons_append] at hcs
  obtain ⟨rfl, rfl⟩ := List.cons.inj hcs
  exact scan_word hw hstart hpart hrest

/-! ## Lexemes -/

theorem spelled_of_scan {c : Char} {cs rest : List Char} {x : Lexeme}
    (h : scan c cs = some (x, rest)) : x.Spelled := by
  unfold scan at h
  split at h
  · simp only [Option.map_eq_some_iff, Prod.mk.injEq, Prod.exists] at h
    obtain ⟨a, b, hab, rfl, -⟩ := h
    simpa [Lexeme.Spelled, Token.Spelled] using isNumeral_of_splitNumeral? hab
  split at h
  · rename_i hq
    simp only [Option.map_eq_some_iff, Prod.mk.injEq, Prod.exists] at h
    obtain ⟨a, b, hab, rfl, -⟩ := h
    exact ⟨c, a, String.toList_ofList, hq, quotedTail_of_splitQuoted? hab⟩
  split at h
  · rename_i hc
    simp only [Option.some.injEq, Prod.mk.injEq] at h
    rw [← h.1]
    exact spelled_ofWord hc fun _ => List.mem_takeWhile_imp
  split at h
  · simp only [Option.map_eq_some_iff, Prod.mk.injEq, Prod.exists] at h
    obtain ⟨a, b, hab, rfl, -⟩ := h
    exact spelled_of_scanComment hab
  · simp only [Option.map_eq_some_iff, Prod.mk.injEq] at h
    obtain ⟨t, ht, rfl, -⟩ := h
    unfold Token.ofPunctuation? at ht
    split at ht <;> cases ht <;> trivial

theorem scanComment_of_scan {c : Char} {cs rest : List Char} {k : Comment}
    (h : scan c cs = some (.comment k, rest)) : scanComment cs = some (k, rest) := by
  unfold scan at h
  split at h
  · simp [Option.map_eq_some_iff] at h
  split at h
  · simp [Option.map_eq_some_iff] at h
  split at h
  · simp at h
  split at h
  · simp only [Option.map_eq_some_iff, Prod.mk.injEq, Prod.exists, Lexeme.comment.injEq] at h
    obtain ⟨a, b, hab, rfl, rfl⟩ := h
    exact hab
  · simp [Option.map_eq_some_iff] at h

theorem scan_of_digit {cs rest : List Char} {c : Char} {text : List Char} (hc : c.isDigit = true ∨ c = '.')
    (h : splitNumeral? (c :: cs) = some (text, rest)) :
    scan c cs = some (.token (.number ⟨String.ofList text⟩), rest) := by
  unfold scan
  rw [if_pos hc, h]
  rfl

theorem IsNumeral.head {c : Char} {cs : List Char} (h : IsNumeral (c :: cs)) :
    c.isDigit = true ∨ c = '.' := by
  obtain ⟨whole, fraction, exponent, hcs, hw, hf, -, hne⟩ := h
  cases whole with
  | cons d whole =>
    obtain ⟨rfl, -⟩ := List.cons.inj hcs
    exact .inl (hw c (by simp))
  | nil =>
    rcases hf with rfl | ⟨ds, rfl, -⟩
    · simp at hne
    · obtain ⟨rfl, -⟩ := List.cons.inj hcs
      exact .inr rfl

theorem isQuote_class {c : Char} (h : isQuote c = true) : ¬ (c.isDigit = true ∨ c = '.') := by
  simp only [isQuote, Bool.or_eq_true, decide_eq_true_eq] at h
  rcases h with rfl | rfl <;> decide

theorem scan_punctuation {c : Char} {t : Token} (h : Token.ofPunctuation? c = some t)
    (cs : List Char) : scan c cs = some (.token t, cs) := by
  have hc : ¬ (c.isDigit = true ∨ c = '.') ∧ isQuote c = false ∧ isIdentStart c = false ∧ c ≠ '/' := by
    unfold Token.ofPunctuation? at h
    split at h <;> first | decide | cases h
  unfold scan
  simp [hc, h]

theorem Comment.Spelled.slash {c : Comment} (h : c.Spelled) : ∃ cs, c.text.toList = '/' :: cs := by
  obtain ⟨kind, text⟩ := c
  cases kind with
  | line =>
    obtain ⟨inner, htext, -⟩ := h
    exact ⟨_, htext⟩
  | block =>
    obtain ⟨inner, htext, -⟩ := h
    exact ⟨_, htext⟩

theorem scan_slash (cs : List Char) :
    scan '/' cs = (scanComment cs).map fun (c, rest) => (.comment c, rest) := by
  have hclass : ¬ ('/'.isDigit = true ∨ '/' = '.') ∧ isQuote '/' = false ∧
    isIdentStart '/' = false := by decide
  simp [scan, hclass]

/-- A spelling is scanned as its lexeme when what follows cannot extend it. -/
theorem scan_of_spelled {x : Lexeme} {c : Char} {cs rest : List Char} (hx : x.Spelled)
    (hrest : x.StopsBefore rest) (hcs : x.spelling.toList ++ rest = c :: cs) :
    scan c cs = some (x, rest) := by
  cases x with
  | comment cm =>
    obtain ⟨inner, htext⟩ := Comment.Spelled.slash hx
    obtain rfl : '/' = c := by
      rw [Lexeme.spelling, htext] at hcs
      exact (List.cons.inj hcs).1
    rw [scan_slash, scanComment_of_spelled hx hrest hcs]
    rfl
  | token t =>
    cases t with
    | number n =>
      have hn : splitNumeral? (c :: cs) = some (n.raw.toList, rest) := by
        rw [← hcs]
        exact splitNumeral?_of_isNumeral hx (hrest rfl)
      have hhead : c.isDigit = true ∨ c = '.' := by
        cases hraw : n.raw.toList with
        | nil => exact absurd hraw (splitNumeral?_ne_nil hn)
        | cons d ds =>
          simp only [Lexeme.spelling, Token.spelling, hraw, List.cons_append, List.cons.injEq] at hcs
          simp only [Lexeme.Spelled, Token.Spelled, hraw, hcs.1] at hx
          exact hx.head
      rw [scan_of_digit hhead hn, String.ofList_toList]
    | string raw =>
      obtain ⟨quote, tail, hraw, hq, htail⟩ := hx
      simp only [Lexeme.spelling, Token.spelling, hraw, List.cons_append, List.cons.injEq] at hcs
      obtain ⟨rfl, rfl⟩ := hcs
      simp only [scan, if_neg (isQuote_class hq), if_pos hq, splitQuoted?_of_quotedTail hq htail,
        Option.map_some, ← hraw, String.ofList_toList]
    | ident name =>
      obtain ⟨⟨d, ds, hname, hd, hds⟩, hres⟩ := hx
      simp only [Lexeme.spelling, Token.spelling, hname, List.cons_append, List.cons.injEq] at hcs
      obtain ⟨rfl, rfl⟩ := hcs
      rw [scan_word hname hd hds (hrest rfl), ofWord_of_not_reserved hres]
    | bool b =>
      cases b with
      | true => exact scan_reserved "true" (by decide) (hrest rfl) hcs
      | false => exact scan_reserved "false" (by decide) (hrest rfl) hcs
    | null => exact scan_reserved "null" (by decide) (hrest rfl) hcs
    | function => exact scan_reserved "function" (by decide) (hrest rfl) hcs
    | var => exact scan_reserved "var" (by decide) (hrest rfl) hcs
    | this => exact scan_reserved "this" (by decide) (hrest rfl) hcs
    | _ =>
      obtain ⟨rfl, rfl⟩ := List.cons.inj hcs
      exact scan_punctuation rfl _

end Reprint
