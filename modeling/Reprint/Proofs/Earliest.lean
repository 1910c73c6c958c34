import Reprint.Proofs.Cutting
import Reprint.Proofs.Similarity
import Reprint.Proofs.Viability

/-!
# Errors stand at the earliest token

An error is reported at the first token that no text goes on with. What stands in front of that token
can be completed, with fillers on a new line (`Fragment.completes_of_cut`). What stands behind it has
not been looked at, so the error is the same whatever follows (`Fragment.refuses_of_cut`).
-/

namespace Reprint

namespace Fragment

/-- Some text that begins with a line feed completes this one. -/
def Completes (f : Fragment) (before : List Char) : Prop :=
  ∃ tail b, f.parse (String.ofList (before ++ '\n' :: tail)) = .ok b

/-- Whether the text ends here or goes on with white space, the error is the same, unless what
follows is not made of lexemes. -/
def Refuses (f : Fragment) (before : List Char) (e : ParseError) : Prop :=
  ∀ tail : List Char, (∀ c ∈ tail.head?, isBlank c = true) →
    (∃ le, tokenize (String.ofList (before ++ tail)) = .error le) ∨
      f.parse (String.ofList (before ++ tail)) = .error (.parse e)

/-- The error stands between `before` and `rest`, where a token starts or the text ends. What is in
front of it can be completed; with the token it cannot. -/
structure Earliest (f : Fragment) (ls : List (Located Lexeme)) (e : ParseError)
    (before rest : List Char) : Prop where
  position : e.position = Position.origin.after before
  completes : f.Completes before
  found : (rest = [] ∧ e.found = "end of input") ∨
    ∃ t ∈ significant ls, ∃ rest', e.position = t.span.start ∧ e.found = t.value.describe ∧
      rest = t.value.spelling.toList ++ rest' ∧ f.Refuses (before ++ t.value.spelling.toList) e

end Fragment

/-! ## Where reading stops -/

namespace Cursor

variable {c : Cursor}

theorem at_end_of_text {text : String} {ls : List (Located Lexeme)}
    (h : (Cursor.start text ls).Moves c) (hc : c.tokens = []) :
    c.here = Position.origin.after text.toList ∧ c.found = "end of input" := by
  have hahead : c.ahead = [] := List.map_eq_nil_iff.mp hc
  have hstop : c.textStop = Position.origin.after text.toList := h.textStop_eq
  unfold here found token?
  rw [hahead]
  exact ⟨hstop, rfl⟩

theorem at_token {t : Located Token} {ts : List (Located Token)} (hc : c.tokens = t :: ts) :
    c.here = t.span.start ∧ c.found = t.value.describe := by
  refine ⟨here_of_tokens hc, ?_⟩
  unfold found
  rw [token?_eq, hc]
  rfl

end Cursor

def Located.ofToken (t : Located Token) : Located Lexeme := ⟨.token t.value, t.span⟩

theorem eq_ofToken {l : Located Lexeme} {t : Located Token} (h : l.token? = some t) :
    l = t.ofToken := by
  obtain ⟨x, span⟩ := l
  cases x with
  | comment k => cases h
  | token t' =>
    cases h
    rfl

section
variable {ls la lb : List (Located Lexeme)} {us vs : List (Located Token)} {t : Located Token}

theorem significant_append : significant (la ++ lb) = significant la ++ significant lb :=
  List.filterMap_append

/-- Lexemes are cut in front of a token where the tokens are. -/
theorem exists_of_significant (h : significant ls = us ++ t :: vs) :
    ∃ la lb, ls = la ++ t.ofToken :: lb ∧ significant la = us ∧ significant lb = vs := by
  obtain ⟨l₁, l₂, rfl, hus, hrest⟩ := List.filterMap_eq_append_iff.mp h
  obtain ⟨l₃, l, lb, rfl, hnone, hl, hvs⟩ := List.filterMap_eq_cons_iff.mp hrest
  refine ⟨l₁ ++ l₃, lb, ?_, ?_, hvs⟩
  · rw [eq_ofToken hl, List.append_assoc]
  · have hl₃ : significant l₃ = [] := List.filterMap_eq_nil_iff.mpr hnone
    rw [significant_append, hl₃, List.append_nil]
    exact hus

/-- The comments in front of a token stay with what stands before. -/
theorem pieces_append_token : pieces (la ++ t.ofToken :: lb) =
    ((pieces la).1, (pieces la).2 ++ ⟨t.value, t.span, (pieces lb).1⟩ :: (pieces lb).2) := by
  induction la with
  | nil => rfl
  | cons l la ih =>
    obtain ⟨x, span⟩ := l
    cases x with
    | comment k => simp only [List.cons_append, pieces, ih]
    | token t' => simp only [List.cons_append, pieces, ih]

end

/-- The text in front of a token, and the token. -/
theorem Lexed.cut_token {p : Position} {cs : List Char} {la lb : List (Located Lexeme)}
    {t : Located Token} (h : Lexed p cs (la ++ t.ofToken :: lb)) :
    ∃ before rest, cs = before ++ (t.value.spelling.toList ++ rest) ∧
      t.span.start = p.after before ∧ Cut (t.value.spelling.toList ++ rest) p before la ∧
      Cut rest p (before ++ t.value.spelling.toList) (la ++ [t.ofToken]) := by
  obtain ⟨before, rest, rfl, hcut, hrest, hstart, -⟩ := h.cut
  have hstart : p.after before = t.span.start := hstart _ rfl
  obtain ⟨x, w, c, ds, rest', hl, rfl, -, -, hscan, -⟩ := hrest.of_cons
  obtain ⟨rfl, hspan⟩ : Lexeme.token t.value = x ∧ t.span = _ := Located.mk.inj hl
  rw [hspan] at hstart
  -- the cut is right in front of the token
  obtain rfl : w = [] := by
    rw [← Position.after_append] at hstart
    exact Position.eq_nil_of_after_append hstart.symm
  have htext := spelling_of_scan hscan
  refine ⟨before, rest', congrArg (before ++ ·) htext.symm, ?_, ?_, ?_⟩
  · rw [hspan]
    rfl
  · exact htext ▸ hcut
  · have hone : Cut rest' (p.after before) ((Lexeme.token t.value).spelling.toList ++ []) _ :=
      .lexeme htext hscan .nil
    rw [List.append_nil] at hone
    rw [Located.ofToken, hspan]
    exact Cut.append (htext ▸ hcut) hone

/-! ## Completing the text -/

def fillText (ks : List Token) : List Char := ks.flatMap fun k => k.spelling.toList ++ [' ']

theorem spelled_of_mem_fillers {k : Token} (h : k ∈ fillers) : k.Spelled := by
  simp only [fillers, List.mem_cons, List.not_mem_nil, or_false] at h
  rcases h with rfl | rfl | rfl | rfl | rfl
  · exact ⟨⟨'x', [], rfl, by decide, by simp⟩, by decide⟩
  all_goals trivial

theorem lexed_of_fillers {ks : List Token} (hks : ∀ k ∈ ks, k ∈ fillers) (p : Position) :
    ∃ ms, Lexed p (fillText ks) ms ∧ (significant ms).map Located.value = ks := by
  induction ks generalizing p with
  | nil => exact ⟨[], .nil, rfl⟩
  | cons k ks ih =>
    rw [List.forall_mem_cons] at hks
    obtain ⟨ms, hms, hvalues⟩ := ih hks.2 ((p.after k.spelling.toList).next ' ')
    have hspelled : (Lexeme.token k).Spelled := spelled_of_mem_fillers hks.1
    have hstops : (Lexeme.token k).StopsBefore (' ' :: fillText ks) :=
      fun _ => delimits_cons _ (by decide)
    have hspace := (lexed_space (by decide)).mpr hms
    refine ⟨⟨.token k, p, p.after k.spelling.toList⟩ :: ms, ?_, congrArg (k :: ·) hvalues⟩
    rw [fillText, List.flatMap_cons, List.append_assoc]
    exact (lexed_of_spelled hspelled hstops).mpr ⟨ms, rfl, hspace⟩

namespace Fragment

variable {f : Fragment} {text : String} {ls la : List (Located Lexeme)} {c' : Cursor} {ex : Expected}
  {before rest : List Char}

/-- Fillers on a new line are lexed behind any text, whatever its last lexeme is. -/
theorem completes_of_cut {us : List (Located Token)} {ks : List Token}
    (hcut : Cut rest .origin before la) (hla : significant la = us) (hks : ∀ k ∈ ks, k ∈ fillers)
    (hderives : ∀ ks' : List (Located Token), ks'.map Located.value = ks →
      ∃ b, f.Derives (us ++ ks') b) : f.Completes before := by
  have hfrays : Frays rest ('\n' :: fillText ks) := .cut fun c hc => by
    cases hc
    decide
  have hcut' := hcut.frays hfrays fun l _ k _ _ c hc => by
    cases hc
    decide
  obtain ⟨ms, hms, hvalues⟩ := lexed_of_fillers hks ((Position.origin.after before).next '\n')
  have hlexed := hcut'.lexed_iff.mpr ⟨ms, rfl, (lexed_space (by decide)).mpr hms⟩
  have htokenize : tokenize (String.ofList (before ++ '\n' :: fillText ks)) = .ok (la ++ ms) := by
    rw [tokenize_eq_ok_iff, String.toList_ofList]
    exact hlexed
  obtain ⟨b, hb⟩ := hderives _ hvalues
  rw [← hla, ← significant_append] at hb
  obtain ⟨b', hparse, -⟩ := parse_of_derives htokenize hb
  exact ⟨_, b', hparse⟩

end Fragment

/-! ## Going on behind the token -/

/-- Nothing is asked of a token at the horizon but what it is and where it stands. -/
theorem alike_append {q r : Piece} (hspan : q.span = r.span) (C D ps : List Piece) :
    Alike (q :: C) (r :: D) (ps ++ q :: C) (ps ++ r :: D) := by
  induction ps with
  | nil => exact .horizon
  | cons p ps ih =>
    refine .cons ⟨rfl, List.forall₂_same.mpr fun x _ => ⟨rfl, rfl⟩⟩ ?_ ih
    cases ps with
    | nil =>
      rintro _ ⟨rfl⟩ _ ⟨rfl⟩
      rw [hspan]
    | cons p' ps =>
      rintro _ ⟨rfl⟩ _ ⟨rfl⟩
      rfl

theorem similar_start {text text' : String} {la lb lb' : List (Located Lexeme)} {t : Located Token}
    (h : tokenize text = .ok (la ++ t.ofToken :: lb))
    (h' : tokenize text' = .ok (la ++ t.ofToken :: lb')) :
    Cursor.Similar (⟨t.value, t.span, (pieces lb).1⟩ :: (pieces lb).2)
      (⟨t.value, t.span, (pieces lb').1⟩ :: (pieces lb').2)
      (Cursor.start text (la ++ t.ofToken :: lb)) (Cursor.start text' (la ++ t.ofToken :: lb')) := by
  refine ⟨rfl, ?_, ?_, (tokenize_eq_ok_iff.mp h).orderly, (tokenize_eq_ok_iff.mp h').orderly⟩
  · simp only [Cursor.start, Cursor.ofLexemes, pieces_append_token]
    apply alike_append
    rfl
  · simp only [Cursor.start, Cursor.ofLexemes, pieces_append_token]

namespace Fragment

open Cursor

variable {f : Fragment} {text : String} {la lb : List (Located Lexeme)} {c' : Cursor} {ex : Expected}
  {before rest : List Char} {t : Located Token}

/-- What stands behind the token where reading stops is not looked at. -/
theorem parse_of_same_token {text' : String} {lb' : List (Located Lexeme)}
    (h : tokenize text = .ok (la ++ t.ofToken :: lb))
    (h' : tokenize text' = .ok (la ++ t.ofToken :: lb'))
    (hfails : f.Fails (Cursor.start text (la ++ t.ofToken :: lb)) ex c')
    (htokens : c'.tokens = t :: significant lb) :
    f.parse text' = .error (.parse (c'.unexpected ex)) := by
  have hs := similar_start h h'
  generalize hC : (⟨t.value, t.span, (pieces lb).1⟩ :: (pieces lb).2 : List Piece) = C at hs
  have hlen : c'.ahead.length = C.length := by
    have := congrArg List.length htokens
    rw [significant_eq] at this
    simpa [Cursor.tokens, ← hC] using this
  have hahead : c'.ahead = C := by
    obtain ⟨us, hus⟩ := hfails.moves.ahead_eq
    simp only [Cursor.start, Cursor.ofLexemes, pieces_append_token, hC] at hus
    exact (List.append_inj_right' hus hlen.symm).symm
  obtain ⟨d', hfails', hs'⟩ := hfails.follows hs (Nat.le_of_eq hlen.symm)
  have hahead' := (hahead ▸ hs'.ahead).eq_of_horizon
  refine (parse_eq_error_iff h').mpr ⟨ex, d', ?_, hfails'⟩
  subst hC
  unfold Cursor.unexpected Cursor.found Cursor.here
  rw [hs'.token?_eq, hahead, hahead']

theorem refuses_of_cut (h : tokenize text = .ok (la ++ t.ofToken :: lb))
    (hfails : f.Fails (Cursor.start text (la ++ t.ofToken :: lb)) ex c')
    (htokens : c'.tokens = t :: significant lb) (hcut : Cut rest .origin before (la ++ [t.ofToken])) :
    f.Refuses before (c'.unexpected ex) := by
  intro tail hblank
  have hcut' : Cut tail .origin before (la ++ [t.ofToken]) := by
    refine hcut.frays (.cut hblank) fun l hl k hk => ?_
    rw [List.getLast?_concat] at hl
    cases hl
    cases hk
  cases htokenize : tokenize (String.ofList (before ++ tail)) with
  | error le => exact .inl ⟨le, rfl⟩
  | ok ls' =>
    have hlexed := tokenize_eq_ok_iff.mp htokenize
    rw [String.toList_ofList] at hlexed
    obtain ⟨ms, rfl, -⟩ := hcut'.lexed_iff.mp hlexed
    rw [List.append_assoc] at htokenize
    exact .inr (parse_of_same_token h htokenize hfails htokens)

/-! ## The earliest token -/

/-- Errors are reported at the earliest token: where the error is, the text can still be completed
from a new line on, and no longer behind the token that stands there. -/
theorem error_at_earliest_token (f : Fragment) {ls : List (Located Lexeme)} {e : ParseError}
    (hls : tokenize text = .ok ls) (h : f.parse text = .error (.parse e)) :
    ∃ before rest, text.toList = before ++ rest ∧ f.Earliest ls e before rest := by
  obtain ⟨ex, c', rfl, hfails⟩ := (parse_eq_error_iff hls).mp h
  obtain ⟨us, ks, htokens, hks, hderives⟩ := hfails.viable
  rw [tokens_start] at htokens
  have hlexed := tokenize_eq_ok_iff.mp hls
  generalize hc' : c'.tokens = vs at htokens
  cases vs with
  | nil =>
    rw [List.append_nil] at htokens
    rw [← ls.append_nil] at hlexed
    obtain ⟨before, _, htext, hcut, -, -, hrest⟩ := hlexed.cut
    obtain rfl := hrest rfl
    obtain ⟨hhere, hfound⟩ := at_end_of_text hfails.moves hc'
    rw [htext, List.append_nil] at hhere
    exact ⟨before, [], htext, hhere, completes_of_cut hcut htokens hks hderives, .inl ⟨rfl, hfound⟩⟩
  | cons t vs =>
    obtain ⟨la, lb, rfl, hla, rfl⟩ := exists_of_significant htokens
    obtain ⟨before, rest, htext, hstart, hcut, hcut'⟩ := hlexed.cut_token
    obtain ⟨hhere, hfound⟩ := at_token hc'
    have hmem : t ∈ significant (la ++ t.ofToken :: lb) := by
      rw [htokens]
      exact List.mem_append_right _ (List.mem_cons_self ..)
    exact ⟨before, _, htext, hhere.trans hstart, completes_of_cut hcut hla hks hderives,
      .inr ⟨t, hmem, rest, hhere, hfound, rfl, refuses_of_cut hls hfails hc' hcut'⟩⟩

/-- Behind the comment a closing parenthesis would do, in front of the semicolon and not behind it. -/
theorem error_at_earliest_token_unclosed :
    ∃ ls before rest, tokenize "q = (p // c\n; x" = .ok ls ∧
      program.parse "q = (p // c\n; x" = .error (.parse ⟨"`)`", "`;`", ⟨12, 2, 1⟩⟩) ∧
      "q = (p // c\n; x".toList = before ++ rest ∧
      program.Earliest ls ⟨"`)`", "`;`", ⟨12, 2, 1⟩⟩ before rest := by
  have hls : tokenize "q = (p // c\n; x" = .ok
      [⟨.token (.ident "q"), ⟨0, 1, 1⟩, ⟨1, 1, 2⟩⟩, ⟨.token .equals, ⟨2, 1, 3⟩, ⟨3, 1, 4⟩⟩,
        ⟨.token .openParen, ⟨4, 1, 5⟩, ⟨5, 1, 6⟩⟩, ⟨.token (.ident "p"), ⟨5, 1, 6⟩, ⟨6, 1, 7⟩⟩,
        ⟨.comment ⟨.line, "// c"⟩, ⟨7, 1, 8⟩, ⟨11, 1, 12⟩⟩,
        ⟨.token .semicolon, ⟨12, 2, 1⟩, ⟨13, 2, 2⟩⟩,
        ⟨.token (.ident "x"), ⟨14, 2, 3⟩, ⟨15, 2, 4⟩⟩] := by cbv
  have h : program.parse "q = (p // c\n; x" =
      .error (.parse ⟨"`)`", "`;`", ⟨12, 2, 1⟩⟩) := by cbv
  obtain ⟨before, rest, htext, hearliest⟩ := program.error_at_earliest_token hls h
  exact ⟨_, before, rest, hls, h, htext, hearliest⟩

end Fragment

end Reprint
