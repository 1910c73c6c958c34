import Reprint.Token

/-!
# One lexeme

`scan` reads the longest lexeme at the front of a text; a block comment ends at the first star and
slash behind its opening. A scanned lexeme is spelled by exactly the characters it takes
(`spelling_of_scan`), and it takes at least one (`spelling_ne_nil_of_scan`).
-/

namespace Reprint

/-! ## Character classes -/

/-- White space between lexemes. -/
def isSpace (c : Char) : Bool :=
  c = ' ' || c = '\t' || c = '\n' || c = '\r' || c = '\x0c'

def isIdentStart (c : Char) : Bool :=
  c.isAlpha || c = '_' || c = '$'

def isIdentPart (c : Char) : Bool :=
  c.isAlphanum || c = '_' || c = '$'

def isQuote (c : Char) : Bool :=
  c = '"' || c = '\''

/-! ## Numerals

Each function splits a text behind the part that it reads. -/

def splitSign : List Char → List Char × List Char
  | c :: cs => if c = '+' ∨ c = '-' then ([c], cs) else ([], c :: cs)
  | [] => ([], [])

def splitDigits (cs : List Char) : List Char × List Char :=
  (cs.takeWhile Char.isDigit, cs.dropWhile Char.isDigit)

/-- The exponent is empty unless a digit follows its mark and sign. -/
def splitExponent : List Char → List Char × List Char
  | [] => ([], [])
  | c :: cs =>
    let (sign, unsigned) := splitSign cs
    let (ds, rest) := splitDigits unsigned
    if (c = 'e' ∨ c = 'E') ∧ ds ≠ [] then (c :: (sign ++ ds), rest) else ([], c :: cs)

def splitFraction : List Char → List Char × List Char
  | [] => ([], [])
  | c :: cs =>
    let (ds, rest) := splitDigits cs
    if c = '.' then (c :: ds, rest) else ([], c :: cs)

/-- The numeral has a digit before its exponent, on either side of the point. -/
def splitNumeral? (cs : List Char) : Option (List Char × List Char) :=
  let (whole, rest) := splitDigits cs
  let (fraction, rest) := splitFraction rest
  let (exponent, rest) := splitExponent rest
  if whole = [] ∧ fraction.length ≤ 1 then none
  else some (whole ++ fraction ++ exponent, rest)

/-! ## Strings and comments -/

/-- The rest of a string literal through its closing quote. A backslash takes the next character
with it, and a line feed is never part of the literal. -/
def splitQuoted? (quote : Char) : List Char → Option (List Char × List Char)
  | [] => none
  | c :: cs =>
    if c = '\n' then none
    else if c = quote then some ([c], cs)
    else if c = '\\' then
      match cs with
      | [] => none
      | d :: ds =>
        if d = '\n' then none
        else (splitQuoted? quote ds).map fun (text, rest) => (c :: d :: text, rest)
    else (splitQuoted? quote cs).map fun (text, rest) => (c :: text, rest)

/-- The rest of a block comment through the first star and slash. -/
def splitClosed? : List Char → Option (List Char × List Char)
  | '*' :: '/' :: cs => some (['*', '/'], cs)
  | c :: cs => (splitClosed? cs).map fun (text, rest) => (c :: text, rest)
  | [] => none

def isLineEnd (c : Char) : Bool :=
  c = '\n' || c = '\r'

/-- The comment that opens with a slash and the first character of `cs`. -/
def scanComment : List Char → Option (Comment × List Char)
  | '/' :: cs =>
    let text := cs.takeWhile fun c => !isLineEnd c
    some (⟨.line, String.ofList ('/' :: '/' :: text)⟩, cs.dropWhile fun c => !isLineEnd c)
  | '*' :: cs =>
    (splitClosed? cs).map fun (text, rest) =>
      (⟨.block, String.ofList ('/' :: '*' :: text)⟩, rest)
  | _ => none

/-! ## One lexeme -/

/-- The lexeme at the front of the text `c :: cs`, and the text behind it. -/
def scan (c : Char) (cs : List Char) : Option (Lexeme × List Char) :=
  if c.isDigit ∨ c = '.' then
    (splitNumeral? (c :: cs)).map fun (text, rest) =>
      (.token (.number ⟨String.ofList text⟩), rest)
  else if isQuote c then
    (splitQuoted? c cs).map fun (text, rest) =>
      (.token (.string (String.ofList (c :: text))), rest)
  else if isIdentStart c then
    let text := cs.takeWhile isIdentPart
    some (.token (Token.ofWord (String.ofList (c :: text))), cs.dropWhile isIdentPart)
  else if c = '/' then
    (scanComment cs).map fun (comment, rest) => (.comment comment, rest)
  else
    (Token.ofPunctuation? c).map fun t => (.token t, cs)

/-! ## Nothing is lost -/

theorem splitDigits_append (cs : List Char) : (splitDigits cs).1 ++ (splitDigits cs).2 = cs :=
  List.takeWhile_append_dropWhile

theorem splitSign_append (cs : List Char) : (splitSign cs).1 ++ (splitSign cs).2 = cs := by
  fun_cases splitSign cs <;> simp_all

theorem splitExponent_append (cs : List Char) :
    (splitExponent cs).1 ++ (splitExponent cs).2 = cs := by
  cases cs with
  | nil => rfl
  | cons c cs =>
    simp only [splitExponent]
    split
    · simp [splitDigits_append, splitSign_append]
    · rfl

theorem splitFraction_append (cs : List Char) :
    (splitFraction cs).1 ++ (splitFraction cs).2 = cs := by
  cases cs with
  | nil => rfl
  | cons c cs =>
    simp only [splitFraction]
    split
    · simp [splitDigits_append]
    · rfl

theorem splitNumeral?_append {cs text rest : List Char}
    (h : splitNumeral? cs = some (text, rest)) : text ++ rest = cs := by
  simp only [splitNumeral?] at h
  split at h
  · simp at h
  · simp only [Option.some.injEq, Prod.mk.injEq] at h
    obtain ⟨rfl, rfl⟩ := h
    rw [List.append_assoc, splitExponent_append, List.append_assoc, splitFraction_append,
      splitDigits_append]

theorem splitQuoted?_append {quote : Char} {cs text rest : List Char}
    (h : splitQuoted? quote cs = some (text, rest)) : text ++ rest = cs := by
  fun_induction splitQuoted? quote cs generalizing text with
  | case1 => simp at h
  | case2 => simp at h
  | case3 => cases h; rfl
  | case4 => simp at h
  | case5 => simp at h
  | case6 _ _ _ _ _ ih =>
    simp only [Option.map_eq_some_iff, Prod.mk.injEq, Prod.exists] at h
    obtain ⟨a, b, hab, rfl, rfl⟩ := h
    simp [ih hab]
  | case7 _ _ _ _ _ ih =>
    simp only [Option.map_eq_some_iff, Prod.mk.injEq, Prod.exists] at h
    obtain ⟨a, b, hab, rfl, rfl⟩ := h
    simp [ih hab]

theorem splitClosed?_append {cs text rest : List Char}
    (h : splitClosed? cs = some (text, rest)) : text ++ rest = cs := by
  fun_induction splitClosed? cs generalizing text with
  | case1 => cases h; rfl
  | case2 _ _ _ ih =>
    simp only [Option.map_eq_some_iff, Prod.mk.injEq, Prod.exists] at h
    obtain ⟨a, b, hab, rfl, rfl⟩ := h
    simp [ih hab]
  | case3 => simp at h

theorem text_of_scanComment {cs rest : List Char} {c : Comment}
    (h : scanComment cs = some (c, rest)) : c.text.toList ++ rest = '/' :: cs := by
  unfold scanComment at h
  split at h
  · simp only [Option.some.injEq, Prod.mk.injEq] at h
    obtain ⟨rfl, rfl⟩ := h
    simp [List.takeWhile_append_dropWhile]
  · simp only [Option.map_eq_some_iff, Prod.mk.injEq, Prod.exists] at h
    obtain ⟨a, b, hab, rfl, rfl⟩ := h
    simp [splitClosed?_append hab]
  · simp at h

/-- A scanned lexeme is spelled by the characters in front of the rest. -/
theorem spelling_of_scan {c : Char} {cs rest : List Char} {x : Lexeme}
    (h : scan c cs = some (x, rest)) : x.spelling.toList ++ rest = c :: cs := by
  unfold scan at h
  split at h
  · simp only [Option.map_eq_some_iff, Prod.mk.injEq, Prod.exists] at h
    obtain ⟨a, b, hab, rfl, rfl⟩ := h
    simp [Lexeme.spelling, Token.spelling, splitNumeral?_append hab]
  split at h
  · simp only [Option.map_eq_some_iff, Prod.mk.injEq, Prod.exists] at h
    obtain ⟨a, b, hab, rfl, rfl⟩ := h
    simp [Lexeme.spelling, Token.spelling, splitQuoted?_append hab]
  split at h
  · simp only [Option.some.injEq, Prod.mk.injEq] at h
    obtain ⟨rfl, rfl⟩ := h
    simp [Lexeme.spelling, Token.spelling_ofWord, List.takeWhile_append_dropWhile]
  split at h
  · simp only [Option.map_eq_some_iff, Prod.mk.injEq, Prod.exists] at h
    obtain ⟨a, b, hab, rfl, rfl⟩ := h
    next hc => simpa [Lexeme.spelling, hc] using text_of_scanComment hab
  · simp only [Option.map_eq_some_iff, Prod.mk.injEq] at h
    obtain ⟨a, hab, rfl, rfl⟩ := h
    simp [Lexeme.spelling, Token.spelling_of_ofPunctuation? hab]

theorem splitNumeral?_ne_nil {cs text rest : List Char}
    (h : splitNumeral? cs = some (text, rest)) : text ≠ [] := by
  simp only [splitNumeral?] at h
  split at h
  · simp at h
  · next hne =>
    simp only [Option.some.injEq, Prod.mk.injEq] at h
    obtain ⟨rfl, -⟩ := h
    intro he
    simp only [List.append_eq_nil_iff] at he
    simp [he.1.1, he.1.2] at hne

theorem text_ne_nil_of_scanComment {cs rest : List Char} {c : Comment}
    (h : scanComment cs = some (c, rest)) : c.text.toList ≠ [] := by
  unfold scanComment at h
  split at h
  · simp only [Option.some.injEq, Prod.mk.injEq] at h
    simp [← h.1]
  · simp only [Option.map_eq_some_iff, Prod.mk.injEq, Prod.exists] at h
    obtain ⟨a, b, -, rfl, -⟩ := h
    simp
  · simp at h

/-- A scanned lexeme takes at least one character. -/
theorem spelling_ne_nil_of_scan {c : Char} {cs rest : List Char} {x : Lexeme}
    (h : scan c cs = some (x, rest)) : x.spelling.toList ≠ [] := by
  unfold scan at h
  split at h
  · simp only [Option.map_eq_some_iff, Prod.mk.injEq, Prod.exists] at h
    obtain ⟨a, b, hab, rfl, -⟩ := h
    simpa [Lexeme.spelling, Token.spelling] using splitNumeral?_ne_nil hab
  split at h
  · simp only [Option.map_eq_some_iff, Prod.mk.injEq, Prod.exists] at h
    obtain ⟨a, b, -, rfl, -⟩ := h
    simp [Lexeme.spelling, Token.spelling]
  split at h
  · simp only [Option.some.injEq, Prod.mk.injEq] at h
    simp [← h.1, Lexeme.spelling, Token.spelling_ofWord]
  split at h
  · simp only [Option.map_eq_some_iff, Prod.mk.injEq, Prod.exists] at h
    obtain ⟨a, b, hab, rfl, -⟩ := h
    exact text_ne_nil_of_scanComment hab
  · simp only [Option.map_eq_some_iff, Prod.mk.injEq] at h
    obtain ⟨a, hab, rfl, -⟩ := h
    simp [Lexeme.spelling, Token.spelling_of_ofPunctuation? hab]

theorem length_of_scan {c : Char} {cs rest : List Char} {x : Lexeme}
    (h : scan c cs = some (x, rest)) : rest.length ≤ cs.length := by
  have hlen := congrArg List.length (spelling_of_scan h)
  have hpos := List.length_pos_iff.mpr (spelling_ne_nil_of_scan h)
  simp only [List.length_append, List.length_cons] at hlen
  omega

end Reprint
