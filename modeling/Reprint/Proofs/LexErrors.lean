import Reprint.Proofs.Cutting
import Reprint.Proofs.Munch

/-!
# Texts without lexemes

Told by the languages of lexemes alone, reading a text passes white space and takes the longest lexeme
again and again (`Scans`), until the text ends or no lexeme heads the rest (`Stuck`). Cutting a text
into lexemes does just that. It fails where reading gets stuck, what stands before that place is a text
of its own with the same lexemes, and the error tells what the rest lacks (`tokenize_outcome`).
-/

namespace Reprint

open String (utf8Len)

/-! ## Reading by the languages -/

/-- The lexeme at the front of a text. -/
structure Heads (x : Lexeme) (text : List Char) : Prop extends TakesLongest x text where
  spelled : x.Spelled

/-- In front of `rest`, reading the text `before` at a position takes these lexemes. -/
inductive Scans (rest : List Char) : Position → List Char → List (Located Lexeme) → Prop
  | nil {p} : Scans rest p [] []
  | space {p c before ls} : isSpace c = true → Scans rest (p.next c) before ls →
      Scans rest p (c :: before) ls
  | lexeme {p x before ls} : Heads x (x.spelling.toList ++ (before ++ rest)) →
      Scans rest (p.after x.spelling.toList) before ls →
      Scans rest p (x.spelling.toList ++ before) (⟨x, p, p.after x.spelling.toList⟩ :: ls)

def Stuck (rest : List Char) : Prop :=
  ∃ c cs, rest = c :: cs ∧ isSpace c = false ∧ ∀ x, ¬ Heads x (c :: cs)

/-! ## What a rest lacks -/

/-- Whether a backslash takes the character at an index with it. -/
def escaped (cs : List Char) : Nat → Bool
  | 0 => false
  | i + 1 => cs[i]? = some '\\' && !escaped cs i

/-- A quote that no backslash takes stands before the next line feed. -/
def ClosedOnLine (quote : Char) (cs : List Char) : Prop :=
  ∃ i, (cs.takeWhile (· ≠ '\n'))[i]? = some quote ∧ escaped cs i = false

def OpenComment (rest : List Char) : Prop :=
  ['/', '*'] <+: rest ∧ ¬ ['*', '/'] <:+: rest.drop 2

def OpenString (rest : List Char) : Prop :=
  ∃ quote cs, rest = quote :: cs ∧ isQuote quote = true ∧ ¬ ClosedOnLine quote cs

/-- The error at `p` tells what the rest of the text lacks there. -/
structure LexError.Explains (e : LexError) (p : Position) (rest : List Char) : Prop where
  comment : e = .unterminatedComment p ↔ OpenComment rest
  string : e = .unterminatedString p ↔ OpenString rest
  character : ∀ c, e = .invalidCharacter c p ↔
    rest.head? = some c ∧ ¬ OpenComment rest ∧ ¬ OpenString rest

/-- Every rest has one explanation. -/
theorem LexError.Explains.eq {e e' : LexError} {p : Position} {c : Char} {cs : List Char}
    (h : e.Explains p (c :: cs)) (h' : e'.Explains p (c :: cs)) : e = e' := by
  by_cases hcomment : OpenComment (c :: cs)
  · rw [h.comment.mpr hcomment, h'.comment.mpr hcomment]
  · by_cases hstring : OpenString (c :: cs)
    · rw [h.string.mpr hstring, h'.string.mpr hstring]
    · have hhead : (c :: cs).head? = some c := rfl
      rw [(h.character c).mpr ⟨hhead, hcomment, hstring⟩,
        (h'.character c).mpr ⟨hhead, hcomment, hstring⟩]

/-! ## Closing -/

theorem splitClosed?_eq_none_iff {cs : List Char} :
    splitClosed? cs = none ↔ ¬ ['*', '/'] <:+: cs := by
  constructor
  · intro h hclosed
    fun_induction splitClosed? cs with
    | case1 => cases h
    | case2 c cs hne ih =>
      rw [List.infix_cons_iff] at hclosed
      rcases hclosed with ⟨ds, hds⟩ | hclosed
      · simp only [List.cons_append, List.nil_append, List.cons.injEq] at hds
        exact hne ds hds.1.symm hds.2.symm
      · exact ih (by simpa using h) hclosed
    | case3 => simp at hclosed
  · intro h
    rw [Option.eq_none_iff_forall_ne_some]
    rintro ⟨text, rest⟩ hsplit
    obtain ⟨inner, rfl, -⟩ := closedAtFirst_of_splitClosed? hsplit
    exact h ⟨inner, rest, splitClosed?_append hsplit⟩

theorem escaped_cons {c : Char} (hc : c ≠ '\\') (cs : List Char) (i : Nat) :
    escaped (c :: cs) (i + 1) = escaped cs i := by
  induction i with
  | zero => simp [escaped, hc]
  | succ i ih => rw [escaped, ih, escaped, List.getElem?_cons_succ]

theorem escaped_cons_cons (d : Char) (ds : List Char) (i : Nat) :
    escaped ('\\' :: d :: ds) (i + 2) = escaped ds i := by
  induction i with
  | zero => simp [escaped]
  | succ i ih => rw [escaped, ih, escaped, List.getElem?_cons_succ, List.getElem?_cons_succ]

theorem closedOnLine_cons {quote c : Char} {cs : List Char} (hnl : c ≠ '\n') (hq : c ≠ quote)
    (hbs : c ≠ '\\') : ClosedOnLine quote (c :: cs) ↔ ClosedOnLine quote cs := by
  have hline : (c :: cs).takeWhile (· ≠ '\n') = c :: cs.takeWhile (· ≠ '\n') := by simp [hnl]
  unfold ClosedOnLine
  rw [hline]
  constructor
  · rintro ⟨i, hi, hescaped⟩
    cases i with
    | zero => exact absurd (Option.some.inj hi) hq
    | succ i => exact ⟨i, hi, by rwa [escaped_cons hbs] at hescaped⟩
  · rintro ⟨i, hi, hescaped⟩
    exact ⟨i + 1, hi, by rwa [escaped_cons hbs]⟩

theorem closedOnLine_escape {quote d : Char} {ds : List Char} (hnl : d ≠ '\n') (hq : '\\' ≠ quote) :
    ClosedOnLine quote ('\\' :: d :: ds) ↔ ClosedOnLine quote ds := by
  have hline : ('\\' :: d :: ds).takeWhile (· ≠ '\n') = '\\' :: d :: ds.takeWhile (· ≠ '\n') := by
    simp [hnl]
  unfold ClosedOnLine
  rw [hline]
  constructor
  · rintro ⟨i, hi, hescaped⟩
    match i with
    | 0 => exact absurd (Option.some.inj hi) hq
    | 1 => simp [escaped] at hescaped
    | i + 2 => exact ⟨i, hi, by rwa [escaped_cons_cons] at hescaped⟩
  · rintro ⟨i, hi, hescaped⟩
    exact ⟨i + 2, hi, by rwa [escaped_cons_cons]⟩

theorem not_closedOnLine_backslash {quote : Char} {cs : List Char} (hq : '\\' ≠ quote)
    (hcs : cs.takeWhile (· ≠ '\n') = []) : ¬ ClosedOnLine quote ('\\' :: cs) := by
  rintro ⟨i, hi, -⟩
  rw [List.takeWhile_cons_of_pos (by decide), hcs] at hi
  cases i with
  | zero => exact hq (Option.some.inj hi)
  | succ i => simp at hi

theorem splitQuoted?_eq_none_iff {quote : Char} {cs : List Char} :
    splitQuoted? quote cs = none ↔ ¬ ClosedOnLine quote cs := by
  fun_induction splitQuoted? quote cs with
  | case1 => simp [ClosedOnLine]
  | case2 cs => simp [ClosedOnLine]
  | case3 cs hnl =>
    simp only [reduceCtorEq, false_iff, not_not]
    exact ⟨0, by simp [hnl], rfl⟩
  | case4 hnl hq => exact iff_of_true rfl (not_closedOnLine_backslash hq rfl)
  | case5 ds hnl hq => exact iff_of_true rfl (not_closedOnLine_backslash hq (by simp))
  | case6 d ds hd hnl hq ih => rw [Option.map_eq_none_iff, ih, closedOnLine_escape hd hq]
  | case7 c cs hnl hq hbs ih => rw [Option.map_eq_none_iff, ih, closedOnLine_cons hnl hq hbs]

/-! ## The head of a text -/

theorem stopsBefore_nil (x : Lexeme) : x.StopsBefore [] := by
  cases x with
  | token t =>
    intro _ c hc
    cases hc
  | comment k =>
    intro _ c hc
    cases hc

theorem Lexeme.Spelled.ext {x y : Lexeme} (hx : x.Spelled) (hy : y.Spelled)
    (h : x.spelling.toList = y.spelling.toList) : x = y := by
  obtain ⟨c, cs, hcs⟩ := List.exists_cons_of_ne_nil hx.ne_nil
  have hscan := scan_of_spelled hx (stopsBefore_nil x) (by rw [List.append_nil, hcs])
  have hscan' := scan_of_spelled hy (stopsBefore_nil y) (by rw [List.append_nil, ← h, hcs])
  rw [hscan] at hscan'
  exact (Prod.mk.inj (Option.some.inj hscan')).1

theorem IsNumeral.splitNumeral?_ne_none {w : List Char} (hw : IsNumeral w) (tail : List Char) :
    splitNumeral? (w ++ tail) ≠ none := by
  obtain ⟨whole, fraction, exponent, rfl, hwhole, hf, -, hne⟩ := hw
  simp only [splitNumeral?, List.append_assoc, splitDigits_append_digits hwhole]
  rw [if_neg]
  · simp
  · rintro ⟨hnone, hlen⟩
    obtain ⟨rfl, -⟩ := List.append_eq_nil_iff.mp hnone
    -- without whole digits there are some behind the point
    rcases hf with rfl | ⟨ds, rfl, hds⟩
    · simp at hne
    · have hpoint : splitDigits ('.' :: (ds ++ (exponent ++ tail))) =
          ([], '.' :: (ds ++ (exponent ++ tail))) := by
        simp [splitDigits]
      have hdigits : 1 < ('.' :: ds).length := hne.resolve_left fun h => h rfl
      rw [List.cons_append, hpoint] at hlen
      simp only [splitFraction, splitDigits_append_digits hds, if_true, List.length_cons,
        List.length_append] at hlen hdigits
      omega

theorem Declared.scan_ne_none {c : Char} {cs w : List Char} (hw : Declared w) (hstarts : w <+: c :: cs) :
    scan c cs ≠ none := by
  have hwords : ∀ {ds}, isIdentStart c = true → scan c ds ≠ none := by
    intro ds hc
    simp [scan_of_isIdentStart hc]
  cases hw with
  | number hw =>
    obtain ⟨tail, htail⟩ := hstarts
    have hsplit := hw.splitNumeral?_ne_none tail
    cases w with
    | nil =>
      obtain ⟨whole, fraction, exponent, hnil, -, -, -, hne⟩ := hw
      simp only [List.nil_eq, List.append_eq_nil_iff] at hnil
      simp [hnil] at hne
    | cons d w =>
      obtain ⟨rfl, rfl⟩ := List.cons.inj htail
      unfold scan
      rw [if_pos hw.head]
      simpa using hsplit
  | string hw =>
    obtain ⟨tail, htail⟩ := hstarts
    simp [scan_of_isQuoted hw htail]
  | word hd _ =>
    obtain ⟨rfl, -⟩ := List.cons_prefix_cons.mp hstarts
    exact hwords hd
  | @reserved w hw =>
    obtain ⟨d, ds, hword, hd, -⟩ := isWord_of_reserved hw
    rw [hword] at hstarts
    obtain ⟨rfl, -⟩ := List.cons_prefix_cons.mp hstarts
    exact hwords hd
  | punctuation hd =>
    obtain ⟨rfl, -⟩ := List.cons_prefix_cons.mp hstarts
    have htokens : ∀ d ∈ Reprint.punctuation, (Token.ofPunctuation? d).isSome := by
      simp [Reprint.punctuation, Token.ofPunctuation?]
    obtain ⟨t, ht⟩ := Option.isSome_iff_exists.mp (htokens _ hd)
    simp [scan_punctuation ht]
  | lineComment _ =>
    obtain ⟨rfl, hsecond⟩ := List.cons_prefix_cons.mp hstarts
    obtain ⟨ds, rfl, -⟩ := List.cons_prefix_iff.mp hsecond
    simp [scan_slash, scanComment]

namespace Heads

variable {x : Lexeme} {text : List Char}

theorem starts (h : Heads x text) : x.spelling.toList <+: text := by
  by_cases hblock : ['/', '*'] <+: text
  · obtain ⟨inner, rfl, hinner, -⟩ := h.block hblock
    simpa [Lexeme.spelling] using hinner
  · exact (h.longest hblock).starts

/-- A lexeme still heads its text when the text is cut off behind it. -/
theorem cut {short : List Char} (h : Heads x text) (hx : x.spelling.toList <+: short)
    (hshort : short <+: text) : Heads x short := by
  have hopen : ['/', '*'] <+: text → ['/', '*'] <+: short := by
    intro hblock
    obtain ⟨inner, rfl, -, -⟩ := h.block hblock
    refine List.IsPrefix.trans ⟨inner, ?_⟩ hx
    simp [Lexeme.spelling]
  refine ⟨⟨?_, ?_, h.keyword⟩, h.spelled⟩
  · intro hblock
    obtain ⟨inner, rfl, -, hclosed⟩ := h.block (hblock.trans hshort)
    refine ⟨inner, rfl, ?_, hclosed⟩
    simpa [Lexeme.spelling] using hx
  · intro hblock
    have hlong := h.longest fun hb => hblock (hopen hb)
    exact ⟨hx, hlong.belongs, fun v hv => hlong.longest v (hv.trans hshort)⟩

end Heads

theorem scan_eq_some_iff {c : Char} {cs rest : List Char} {x : Lexeme} :
    scan c cs = some (x, rest) ↔ Heads x (c :: cs) ∧ x.spelling.toList ++ rest = c :: cs := by
  constructor
  · intro h
    exact ⟨⟨⟨block_of_scan h, longest_of_scan h, keyword_of_scan h⟩, spelled_of_scan h⟩,
      spelling_of_scan h⟩
  · rintro ⟨h, htext⟩
    by_cases hblock : ['/', '*'] <+: c :: cs
    · obtain ⟨inner, rfl, -, -⟩ := h.block hblock
      refine scan_of_spelled h.spelled ?_ htext
      intro hline
      cases hline
    · have hlong := h.longest hblock
      obtain ⟨⟨y, rest'⟩, hscan⟩ := Option.ne_none_iff_exists'.mp
        (hlong.belongs.scan_ne_none hlong.starts)
      have hlong' := longest_of_scan hscan hblock
      -- two longest words at the front of one text are the same
      have hle := hlong'.longest _ hlong.starts hlong.belongs
      have hge := hlong.longest _ hlong'.starts hlong'.belongs
      have hspelling : x.spelling.toList = y.spelling.toList :=
        (List.prefix_of_prefix_length_le hlong.starts hlong'.starts hle).eq_of_length_le hge
      obtain rfl := h.spelled.ext (spelled_of_scan hscan) hspelling
      rw [hscan, List.append_cancel_left (htext.trans (spelling_of_scan hscan).symm)]

theorem scan_eq_none_iff {c : Char} {cs : List Char} :
    scan c cs = none ↔ ∀ x, ¬ Heads x (c :: cs) := by
  constructor
  · intro hnone x hx
    obtain ⟨rest, hrest⟩ := hx.starts
    rw [scan_eq_some_iff.mpr ⟨hx, hrest⟩] at hnone
    cases hnone
  · intro h
    rw [Option.eq_none_iff_forall_ne_some]
    rintro ⟨x, rest⟩ hscan
    exact h x (scan_eq_some_iff.mp hscan).1

/-! ## Reading and cutting -/

section
variable {p : Position} {before rest : List Char} {ls : List (Located Lexeme)}

theorem scans_iff_cut : Scans rest p before ls ↔ Cut rest p before ls := by
  constructor
  · intro h
    induction h with
    | nil => exact .nil
    | space hc _ ih => exact .space hc ih
    | @lexeme p x before ls hx _ ih =>
      obtain ⟨c, cs, hcs⟩ := List.exists_cons_of_ne_nil hx.spelled.ne_nil
      have htext : x.spelling.toList ++ (before ++ rest) = c :: (cs ++ (before ++ rest)) := by
        rw [hcs, List.cons_append]
      rw [htext] at hx
      exact .lexeme htext (scan_eq_some_iff.mpr ⟨hx, htext⟩) ih
  · intro h
    induction h with
    | nil => exact .nil
    | space hc _ ih => exact .space hc ih
    | lexeme htext hscan _ ih =>
      refine .lexeme ?_ ih
      rw [htext]
      exact (scan_eq_some_iff.mp hscan).1

theorem Scans.cut_off (h : Scans rest p before ls) : Scans [] p before ls := by
  induction h with
  | nil => exact .nil
  | space hc _ ih => exact .space hc ih
  | @lexeme p x before ls hx _ ih =>
    refine .lexeme (hx.cut (List.prefix_append ..) ?_) ih
    rw [List.append_nil, ← List.append_assoc]
    exact List.prefix_append ..

theorem scans_iff_lexed : Scans [] p before ls ↔ Lexed p before ls := by
  rw [scans_iff_cut]
  constructor
  · intro h
    have hlexed : Lexed p (before ++ []) ls :=
      h.lexed_iff.mpr ⟨[], (List.append_nil ls).symm, .nil⟩
    rwa [List.append_nil] at hlexed
  · intro h
    rw [← List.append_nil ls] at h
    obtain ⟨before', rest', rfl, hcut, -, -, hend⟩ := h.cut
    rw [hend rfl] at hcut ⊢
    rwa [List.append_nil]

theorem lexFrom_of_space {c : Char} (hc : isSpace c = true) (cs : List Char) :
    lexFrom p (c :: cs) = lexFrom (p.next c) cs := by
  rw [lexFrom, if_pos hc]

theorem lexFrom_of_scan {c : Char} {cs : List Char} {x : Lexeme} (h : scan c cs = some (x, rest)) :
    lexFrom p (c :: cs) = (lexFrom (p.after x.spelling.toList) rest).map
      (⟨x, p, p.after x.spelling.toList⟩ :: ·) := by
  rw [lexFrom, if_neg (by simp [isSpace_of_scan h])]
  split
  · simp_all
  · rename_i h'
    rw [h] at h'
    cases h'
    rfl

theorem lexFrom_of_none {c : Char} {cs : List Char} (hc : isSpace c = false) (h : scan c cs = none) :
    lexFrom p (c :: cs) = .error (lexErrorAt p c cs) := by
  rw [lexFrom, if_neg (by simp [hc])]
  split
  · rfl
  · simp_all

/-- An error behind the cut is the error of the text. -/
theorem Cut.lexFrom_eq_error (h : Cut rest p before ls) {e : LexError}
    (he : lexFrom (p.after before) rest = .error e) : lexFrom p (before ++ rest) = .error e := by
  induction h with
  | nil => exact he
  | space hc _ ih =>
    rw [List.cons_append, lexFrom_of_space hc]
    exact ih he
  | lexeme htext hscan _ ih =>
    rw [Position.after_append] at he
    rw [List.append_assoc, htext, lexFrom_of_scan hscan, ih he]
    rfl

/-- An error comes from the place up to which the text can be cut. -/
theorem exists_cut_of_lexFrom_eq_error {cs : List Char} {e : LexError} (h : lexFrom p cs = .error e) :
    ∃ before ls c tail, cs = before ++ c :: tail ∧ Cut (c :: tail) p before ls ∧ isSpace c = false ∧
      scan c tail = none ∧ e = lexErrorAt (p.after before) c tail := by
  fun_induction lexFrom p cs with
  | case1 p => cases h
  | case2 p c cs hc ih =>
    obtain ⟨before, ls, d, tail, rfl, hcut, hrest⟩ := ih h
    exact ⟨c :: before, ls, d, tail, rfl, .space hc hcut, hrest⟩
  | case3 p c cs hc hscan =>
    cases h
    exact ⟨[], [], c, cs, rfl, .nil, by simpa using hc, hscan, rfl⟩
  | case4 p c cs hc x rest hscan stop =>
    rename_i ih
    cases hrest : lexFrom stop rest with
    | ok ls => rw [hrest] at h; cases h
    | error e' =>
      rw [hrest] at h
      cases h
      obtain ⟨before, ls, d, tail, rfl, hcut, hd, hnone, he⟩ := ih hrest
      have htext := spelling_of_scan hscan
      refine ⟨x.spelling.toList ++ before, _, d, tail, ?_, .lexeme htext hscan hcut, hd, hnone, ?_⟩
      · rw [List.append_assoc, htext]
      · rw [Position.after_append]
        exact he

end

/-! ## The error -/

theorem openComment_iff_of_scan {c : Char} {cs : List Char} (h : scan c cs = none) :
    OpenComment (c :: cs) ↔ c = '/' ∧ cs.head? = some '*' := by
  constructor
  · rintro ⟨⟨ds, hds⟩, -⟩
    simp only [List.cons_append, List.nil_append, List.cons.injEq] at hds
    obtain ⟨rfl, rfl⟩ := hds
    exact ⟨rfl, rfl⟩
  · rintro ⟨rfl, hstar⟩
    obtain ⟨ds, rfl⟩ := List.head?_eq_some_iff.mp hstar
    rw [scan_slash, Option.map_eq_none_iff, scanComment, Option.map_eq_none_iff,
      splitClosed?_eq_none_iff] at h
    exact ⟨⟨ds, rfl⟩, h⟩

theorem openString_iff_of_scan {c : Char} {cs : List Char} (h : scan c cs = none) :
    OpenString (c :: cs) ↔ isQuote c = true := by
  constructor
  · rintro ⟨quote, ds, hcs, hquote, -⟩
    obtain ⟨rfl, rfl⟩ := List.cons.inj hcs
    exact hquote
  · intro hquote
    unfold scan at h
    rw [if_neg (isQuote_class hquote), if_pos hquote, Option.map_eq_none_iff,
      splitQuoted?_eq_none_iff] at h
    exact ⟨c, cs, rfl, hquote, h⟩

theorem explains_lexErrorAt {c : Char} {cs : List Char} (h : scan c cs = none) (p : Position) :
    (lexErrorAt p c cs).Explains p (c :: cs) := by
  unfold lexErrorAt
  by_cases hopen : c = '/' ∧ cs.head? = some '*'
  · have hcomment := (openComment_iff_of_scan h).mpr hopen
    have hstring : ¬ OpenString (c :: cs) := by
      rw [openString_iff_of_scan h, hopen.1]
      decide
    rw [if_pos hopen]
    exact ⟨iff_of_true rfl hcomment, iff_of_false (by simp) hstring,
      fun d => iff_of_false (by simp) fun hd => hd.2.1 hcomment⟩
  · have hcomment := mt (openComment_iff_of_scan h).mp hopen
    rw [if_neg hopen]
    by_cases hquote : isQuote c = true
    · have hstring := (openString_iff_of_scan h).mpr hquote
      rw [if_pos hquote]
      exact ⟨iff_of_false (by simp) hcomment, iff_of_true rfl hstring,
        fun d => iff_of_false (by simp) fun hd => hd.2.2 hstring⟩
    · have hstring := mt (openString_iff_of_scan h).mp hquote
      rw [if_neg hquote]
      refine ⟨iff_of_false (by simp) hcomment, iff_of_false (by simp) hstring, fun d => ?_⟩
      simp [hcomment, hstring]

theorem tokenize_outcome (text : String) :
    (∀ ls, tokenize text = .ok ls ↔ Scans [] .origin text.toList ls) ∧
    ∀ e, tokenize text = .error e ↔ ∃ before ls rest p, text.toList = before ++ rest ∧
      Scans rest .origin before ls ∧ Stuck rest ∧ tokenize (String.ofList before) = .ok ls ∧
      (Source.ofString text).position? (utf8Len before) = some p ∧ e.Explains p rest := by
  constructor
  · intro ls
    rw [tokenize_eq_ok_iff, scans_iff_lexed]
  · intro e
    constructor
    · intro h
      obtain ⟨before, ls, c, tail, htext, hcut, hc, hnone, rfl⟩ := exists_cut_of_lexFrom_eq_error h
      have hscans := scans_iff_cut.mpr hcut
      refine ⟨before, ls, c :: tail, _, htext, hscans, ⟨c, tail, rfl, hc, ?_⟩, ?_,
        Source.position?_of_append htext, explains_lexErrorAt hnone _⟩
      · exact scan_eq_none_iff.mp hnone
      · rw [tokenize_eq_ok_iff, String.toList_ofList]
        exact scans_iff_lexed.mp hscans.cut_off
    · rintro ⟨before, ls, rest, p, htext, hscans, ⟨c, cs, rfl, hc, hstuck⟩, -, hp, he⟩
      rw [Source.position?_of_append htext] at hp
      obtain rfl := Option.some.inj hp
      have hnone := scan_eq_none_iff.mpr hstuck
      rw [he.eq (explains_lexErrorAt hnone _), tokenize, htext]
      exact (scans_iff_cut.mp hscans).lexFrom_eq_error (lexFrom_of_none hc hnone)

-- the slash that ends the opening of a comment does not close it
example : tokenize "/*/" = .error (.unterminatedComment .origin) := by cbv

-- a backslash takes the closing quote, but not the line feed
example : tokenize "'\\'\\\n'" = .error (.unterminatedString .origin) := by cbv

end Reprint
