import Reprint.RoundTrip
import Reprint.Proofs.Reparse

/-!
# Outcomes of round trips

A text that can be read makes the round trip unless, in its tree, a line comment stands in front of
another trailing comment of the same statement. The printer then puts both on one line, and what
comes back is another tree or none. This takes a `//` comment that a lone carriage return cuts off:
the lexer ends the comment there, but the line goes on.
-/

namespace Reprint

/-! ## Comments in the printed text -/

theorem occursIn_of_infix {part text : List Char} (h : part <:+: text) : occursIn part text = true := by
  induction text with
  | nil =>
    rw [List.infix_nil.mp h]
    rfl
  | cons c cs ih =>
    rw [occursIn, Bool.or_eq_true, List.isPrefixOf_iff_prefix]
    rcases List.infix_cons_iff.mp h with hpre | hin
    · exact .inl hpre
    · exact .inr (ih hin)

theorem infix_layout {c : Comment} {ps : List Part} (h : c ∈ partComments ps) :
    c.text.toList <:+: layout ps := by
  obtain ⟨p, hp, hpc⟩ := List.mem_filterMap.mp h
  have hchars : p.chars = c.text.toList := by
    match p with
    | .lexeme (.comment c') =>
      cases hpc
      rfl
  rw [← hchars, layout, List.flatMap]
  exact List.infix_of_mem_flatten (List.mem_map_of_mem hp)

/-- Every comment of a tree stands word for word in its printed form. -/
theorem Fragment.countOccurring_print (f : Fragment) (b : Body) :
    countOccurring b.comments (f.print b) = b.comments.length := by
  unfold countOccurring
  rw [List.countP_eq_length]
  intro c hc
  apply occursIn_of_infix
  rw [print, f.printWith_eq]
  apply infix_layout
  rwa [f.partComments]

/-! ## The four ways a round trip can go -/

@[simp] theorem Logged.value_pure {α : Type} (a : α) : (pure a : Logged α).value = a := rfl

@[simp] theorem Logged.value_bind {α β : Type} (x : Logged α) (g : α → Logged β) :
    (x >>= g).value = (g x.value).value := rfl

namespace Fragment

variable {f : Fragment} {text : String} {b : Body}

theorem value_parseLogged (f : Fragment) (text : String) :
    (f.parseLogged text).value = f.parse text := rfl

theorem value_printLogged (f : Fragment) (b : Body) : (f.printLogged b).value = f.print b := rfl

theorem roundTrip_of_error {cause : SyntaxError} (h : f.parse text = .error cause) :
    f.roundTrip text = .error (.parse cause) := by
  unfold roundTrip roundTripLogged
  simp only [Logged.value_bind, value_parseLogged, h, Logged.value_pure]

theorem roundTrip_of_reparse_error {cause : SyntaxError} (h : f.parse text = .ok b)
    (hagain : f.parse (f.print b) = .error cause) :
    f.roundTrip text = .error (.reparse (f.print b) cause) := by
  unfold roundTrip roundTripLogged
  simp only [Logged.value_bind, value_parseLogged, h, value_printLogged, hagain, Logged.value_pure]

theorem roundTrip_of_ne {again : Body} (h : f.parse text = .ok b)
    (hagain : f.parse (f.print b) = .ok again) (hne : again ≠ b) :
    f.roundTrip text = .error (.mismatch (f.print b)) := by
  unfold roundTrip roundTripLogged
  simp only [Logged.value_bind, value_parseLogged, h, value_printLogged, hagain, if_pos hne,
    Logged.value_pure]

theorem roundTrip_of_same (h : f.parse text = .ok b) (hagain : f.parse (f.print b) = .ok b) :
    f.roundTrip text = .ok ⟨f.print b, b.comments.length⟩ := by
  unfold roundTrip roundTripLogged
  simp [value_parseLogged, h, value_printLogged, hagain, f.countOccurring_print]

end Fragment

/-! ## Line comments that end their line -/

inductive BreaksLine : List Char → Prop
  | atEnd : BreaksLine []
  | lf {rest} : BreaksLine ('\n' :: rest)
  | crlf {rest} : BreaksLine ('\r' :: '\n' :: rest)

/-- Behind every line comment of a text its line ends. The text up to the end of a comment is told by
the position that it leads to. -/
def LineCommentsEndLines (chars : List Char) (ls : List (Located Lexeme)) : Prop :=
  ∀ l ∈ ls, ∀ c, l.value = .comment c → c.kind = .line →
    ∀ before rest, chars = before ++ rest → l.span.stop = Position.origin.after before →
      BreaksLine rest

/-- A line comment that a carriage return ends while its line goes on. -/
def CutOff (chars : List Char) (l : Located Lexeme) : Prop :=
  ∃ c, l.value = .comment c ∧ c.kind = .line ∧ ∃ before rest, chars = before ++ '\r' :: rest ∧
    l.span.stop = Position.origin.after before ∧ rest.head? ≠ some '\n'

theorem LineCommentsEndLines.not_cutOff {chars : List Char} {ls : List (Located Lexeme)}
    (h : LineCommentsEndLines chars ls) : ∀ l ∈ ls, ¬ CutOff chars l := by
  intro l hl hcut
  obtain ⟨c, hc, hkind, before, rest, hchars, hstop, hhead⟩ := hcut
  cases h l hl c hc hkind before _ hchars hstop with
  | crlf => exact hhead rfl

/-- Where the lexer ends a line comment the line ends too, but for a lone carriage return. -/
theorem EndsLine.breaksLine {rest : List Char} (h : EndsLine rest)
    (hlone : ∀ tail, rest = '\r' :: tail → tail.head? = some '\n') : BreaksLine rest := by
  cases rest with
  | nil => exact .atEnd
  | cons c tail =>
    have hc : c = '\n' ∨ c = '\r' := by simpa [isLineEnd] using h c rfl
    rcases hc with rfl | rfl
    · exact .lf
    · obtain ⟨tail', rfl⟩ := List.head?_eq_some_iff.mp (hlone tail rfl)
      exact .crlf

theorem Lexed.line_lt {p : Position} {cs : List Char} {ls : List (Located Lexeme)}
    (h : Lexed p cs ls) (hcs : BreaksLine cs) : ∀ l ∈ ls, p.line < l.span.start.line := by
  intro l hl
  have hlf : ∀ {q : Position} {rest}, Lexed q ('\n' :: rest) ls → q.line < l.span.start.line := by
    intro q rest hq
    have hle := (((lexed_space rfl).mp hq).reaches l hl).line_le
    rw [Position.line_next, if_pos rfl] at hle
    exact hle
  cases hcs with
  | atEnd =>
    cases h
    cases hl
  | lf => exact hlf h
  | crlf =>
    have hlt := hlf ((lexed_space rfl).mp h)
    rwa [Position.line_next, if_neg (by decide), Nat.add_zero] at hlt

/-- A comment with another one behind it on its line is a block comment, unless a line comment is cut
off. -/
theorem Lexed.block_of_line_eq {before cs : List Char} {ls : List (Located Lexeme)}
    (h : Lexed (Position.origin.after before) cs ls) (hcut : ∀ l ∈ ls, ¬ CutOff (before ++ cs) l) :
    ls.Pairwise fun x y => ∀ c, x.value = .comment c →
      x.span.start.line = y.span.start.line → c.kind = .block := by
  generalize hp : Position.origin.after before = p at h
  induction h generalizing before with
  | nil => exact .nil
  | @space p c cs ls _ _ ih =>
    subst hp
    refine @ih (before ++ [c]) ?_ (Position.after_append ..)
    simpa using hcut
  | @lexeme p c cs x rest ls _ hscan hrest ih =>
    subst hp
    have hcs : before ++ c :: cs = (before ++ x.spelling.toList) ++ rest := by
      rw [← spelling_of_scan hscan, List.append_assoc]
    have hstop : (Position.origin.after before).after x.spelling.toList =
        Position.origin.after (before ++ x.spelling.toList) := (Position.after_append ..).symm
    rw [hcs] at hcut
    refine .cons (fun y hy k hk hline => ?_) ?_
    · cases hkind : k.kind with
      | block => rfl
      | line =>
        -- the later lexeme is on a later line, since the comment's line ends where the comment does
        have hx : x = .comment k := hk
        rw [hx] at hscan
        have hends := stopsBefore_of_scanComment (scanComment_of_scan hscan) hkind
        have hbreak : BreaksLine rest := by
          apply hends.breaksLine
          intro tail htail
          by_contra hne
          apply hcut _ (List.mem_cons_self ..)
          exact ⟨k, hk, hkind, _, tail, by rw [htail], hstop, hne⟩
        have hlt := hrest.line_lt hbreak y hy
        have hle := (Position.reaches_after (Position.origin.after before) x.spelling.toList).line_le
        simp only at hline
        omega
    · exact ih (fun l hl => hcut l (List.mem_cons_of_mem _ hl)) hstop.symm

variable {f : Fragment} {text : String} {b : Body} {ls : List (Located Lexeme)}

theorem lineLast_of_not_cutOff (hls : tokenize text = .ok ls) (h : f.parse text = .ok b)
    (hcut : ∀ l ∈ ls, ¬ CutOff text.toList l) : ∀ s ∈ b.within, s.LineLast := by
  have hlexed : Lexed (Position.origin.after []) text.toList ls := tokenize_eq_ok_iff.mp hls
  exact trailing_of_parse hls h (hlexed.block_of_line_eq hcut)

/-! ## Round trips of texts -/

theorem Fragment.parse_print_iff (h : f.parse text = .ok b) :
    f.parse (f.print b) = .ok b ↔ ∀ s ∈ b.within, s.LineLast := by
  constructor
  · exact f.lineLast_of_parse_printWith defaultWidth
  · intro hlast
    exact f.parse_printWith defaultWidth ((wellFormed_iff_of_parse h).mpr hlast)

theorem Fragment.roundTrip_of_not_same (h : f.parse text = .ok b)
    (hne : f.parse (f.print b) ≠ .ok b) :
    (∃ cause, f.roundTrip text = .error (.reparse (f.print b) cause)) ∨
      f.roundTrip text = .error (.mismatch (f.print b)) := by
  cases hagain : f.parse (f.print b) with
  | error cause => exact .inl ⟨cause, roundTrip_of_reparse_error h hagain⟩
  | ok again =>
    refine .inr (roundTrip_of_ne h hagain ?_)
    intro heq
    rw [heq] at hagain
    exact hne hagain

theorem Fragment.roundTrip_of_lineLast (hls : tokenize text = .ok ls) (h : f.parse text = .ok b)
    (hlast : ∀ s ∈ b.within, s.LineLast) :
    f.roundTrip text = .ok ⟨f.print b, (lexemeComments ls).length⟩ := by
  rw [← f.comments_of_parse hls h]
  exact roundTrip_of_same h ((parse_print_iff h).mpr hlast)

theorem Fragment.roundTrip_of_not_lineLast (h : f.parse text = .ok b)
    (hlast : ¬ ∀ s ∈ b.within, s.LineLast) :
    (∃ cause, f.roundTrip text = .error (.reparse (f.print b) cause)) ∨
      f.roundTrip text = .error (.mismatch (f.print b)) := by
  apply roundTrip_of_not_same h
  intro hagain
  exact hlast ((parse_print_iff h).mp hagain)

theorem Fragment.roundTrip_eq_ok_iff (hls : tokenize text = .ok ls) (h : f.parse text = .ok b) :
    f.roundTrip text = .ok ⟨f.print b, (lexemeComments ls).length⟩ ↔ ∀ s ∈ b.within, s.LineLast := by
  refine ⟨fun hok => ?_, roundTrip_of_lineLast hls h⟩
  by_contra hlast
  rcases roundTrip_of_not_lineLast h hlast with ⟨cause, herror⟩ | herror
  · rw [hok] at herror
    cases herror
  · rw [hok] at herror
    cases herror

/-- Whatever the text, printing a second time never changes the output, and no comment is missing
from it. -/
theorem Fragment.roundTrip_cases (f : Fragment) (text : String) :
    (∃ r, f.roundTrip text = .ok r) ∨ (∃ cause, f.roundTrip text = .error (.parse cause)) ∨
      (∃ printed cause, f.roundTrip text = .error (.reparse printed cause)) ∨
      ∃ printed, f.roundTrip text = .error (.mismatch printed) := by
  cases h : f.parse text with
  | error cause => exact .inr (.inl ⟨cause, roundTrip_of_error h⟩)
  | ok b =>
    by_cases hagain : f.parse (f.print b) = .ok b
    · exact .inl ⟨_, roundTrip_of_same h hagain⟩
    · rcases roundTrip_of_not_same h hagain with ⟨cause, herror⟩ | herror
      · exact .inr (.inr (.inl ⟨_, cause, herror⟩))
      · exact .inr (.inr (.inr ⟨_, herror⟩))

theorem Fragment.roundTrip_outcome (f : Fragment) (text : String) :
    (∀ cause, f.parse text = .error cause → f.roundTrip text = .error (.parse cause)) ∧
    (∀ b, f.parse text = .ok b → ∃ ls, tokenize text = .ok ls ∧
      (f.roundTrip text = .ok ⟨f.print b, (lexemeComments ls).length⟩ ↔
        ∀ s ∈ b.within, s.LineLast) ∧
      ((¬ ∀ s ∈ b.within, s.LineLast) →
        (∃ cause, f.roundTrip text = .error (.reparse (f.print b) cause)) ∨
          f.roundTrip text = .error (.mismatch (f.print b))) ∧
      (LineCommentsEndLines text.toList ls →
        f.roundTrip text = .ok ⟨f.print b, (lexemeComments ls).length⟩)) ∧
    (∀ first second, f.roundTrip text ≠ .error (.unstable first second)) ∧
    ∀ expected found, f.roundTrip text ≠ .error (.commentCount expected found) := by
  refine ⟨fun cause => roundTrip_of_error, ?_, ?_, ?_⟩
  · intro b h
    obtain ⟨ls, hls, -⟩ := parse_eq_ok_iff.mp h
    refine ⟨ls, hls, roundTrip_eq_ok_iff hls h, roundTrip_of_not_lineLast h, fun hends => ?_⟩
    exact roundTrip_of_lineLast hls h (lineLast_of_not_cutOff hls h hends.not_cutOff)
  · intro first second h
    rcases f.roundTrip_cases text with ⟨_, h'⟩ | ⟨_, h'⟩ | ⟨_, _, h'⟩ | ⟨_, h'⟩ <;>
      · rw [h] at h'
        cases h'
  · intro expected found h
    rcases f.roundTrip_cases text with ⟨_, h'⟩ | ⟨_, h'⟩ | ⟨_, _, h'⟩ | ⟨_, h'⟩ <;>
      · rw [h] at h'
        cases h'

/-- A line comment that ends at CR LF keeps the comment on the next line out of the statement. -/
theorem Fragment.roundTrip_outcome_crlf :
    ∃ b ls, program.parse "a; //x\r\n/*y*/" = .ok b ∧ tokenize "a; //x\r\n/*y*/" = .ok ls ∧
      LineCommentsEndLines "a; //x\r\n/*y*/".toList ls ∧
      program.roundTrip "a; //x\r\n/*y*/" = .ok ⟨"a; //x\n/*y*/\n", 2⟩ := by
  have h : program.parse "a; //x\r\n/*y*/" =
      .ok ⟨[⟨[], .expr (.ident "a"), [⟨.line, "//x"⟩]⟩], [⟨.block, "/*y*/"⟩]⟩ := by cbv
  have hls : tokenize "a; //x\r\n/*y*/" =
      .ok [⟨.token (.ident "a"), ⟨0, 1, 1⟩, ⟨1, 1, 2⟩⟩, ⟨.token .semicolon, ⟨1, 1, 2⟩, ⟨2, 1, 3⟩⟩,
        ⟨.comment ⟨.line, "//x"⟩, ⟨3, 1, 4⟩, ⟨6, 1, 7⟩⟩,
        ⟨.comment ⟨.block, "/*y*/"⟩, ⟨8, 2, 1⟩, ⟨13, 2, 6⟩⟩] := by cbv
  obtain ⟨-, hread, -⟩ := program.roundTrip_outcome "a; //x\r\n/*y*/"
  obtain ⟨ls, hls', -, -, hok⟩ := hread _ h
  have hends : LineCommentsEndLines "a; //x\r\n/*y*/".toList ls := by
    intro l hl c hc hkind before rest hchars hstop
    rw [← Except.ok.inj (hls.symm.trans hls')] at hl
    simp only [List.mem_cons, List.not_mem_nil, or_false] at hl
    rcases hl with rfl | rfl | rfl | rfl
    · cases hc
    · cases hc
    · have hcut : before ++ rest = "a; //x".toList ++ "\r\n/*y*/".toList := hchars.symm.trans rfl
      rw [Position.rest_eq_of_after_eq hcut (hstop.symm.trans rfl)]
      exact .crlf
    · cases hc
      cases hkind
  refine ⟨_, ls, h, hls', hends, ?_⟩
  rw [hok hends, ← Except.ok.inj (hls.symm.trans hls')]
  cbv

/-- The tree of a text comes back from its printed form, and the round trip fails on no text that can
be read, unless a line comment stands in front of another trailing comment. Then a lone carriage
return in the text cuts a line comment off. -/
theorem Fragment.print_returns_iff_lineLast (h : f.parse text = .ok b) :
    (f.parse (f.print b) = .ok b ↔ ∀ s ∈ b.within, s.LineLast) ∧
    ((∀ e, f.roundTrip text = .error e → ∃ cause, e = .parse cause) ↔
      ∀ s ∈ b.within, s.LineLast) ∧
    (f.parse (f.print b) ≠ .ok b → ∃ ls, tokenize text = .ok ls ∧ ∃ l ∈ ls, CutOff text.toList l) := by
  obtain ⟨ls, hls, -⟩ := parse_eq_ok_iff.mp h
  refine ⟨parse_print_iff h, ⟨fun hparse => ?_, fun hlast e he => ?_⟩, fun hne => ⟨ls, hls, ?_⟩⟩
  · by_contra hlast
    rcases roundTrip_of_not_lineLast h hlast with ⟨cause, herror⟩ | herror
    · obtain ⟨_, hcause⟩ := hparse _ herror
      cases hcause
    · obtain ⟨_, hcause⟩ := hparse _ herror
      cases hcause
  · rw [roundTrip_of_lineLast hls h hlast] at he
    cases he
  · by_contra hcut
    apply hne
    apply (parse_print_iff h).mpr
    apply lineLast_of_not_cutOff hls h
    intro l hl hcutOff
    exact hcut ⟨l, hl, hcutOff⟩

/-- The line comment takes the block comment in when the two are printed on one line. -/
theorem Fragment.print_does_not_return_cut_off :
    ∃ b, program.parse "a; //x\r/*y*/" = .ok b ∧ program.print b = "a; //x /*y*/\n" ∧
      program.parse (program.print b) ≠ .ok b ∧
      ¬ ∀ e, program.roundTrip "a; //x\r/*y*/" = .error e → ∃ cause, e = .parse cause := by
  have h : program.parse "a; //x\r/*y*/" =
      .ok ⟨[⟨[], .expr (.ident "a"), [⟨.line, "//x"⟩, ⟨.block, "/*y*/"⟩]⟩], []⟩ := by cbv
  obtain ⟨hreturns, hparse, -⟩ := print_returns_iff_lineLast h
  refine ⟨_, h, by cbv, ?_⟩
  rw [Ne, hreturns, hparse]
  simp [Body.within, stmtsWithin, Stmt.within, Form.within, Stmt.LineLast]

end Reprint
