import Reprint.Proofs.Cutting
import Reprint.Proofs.Grammar
import Reprint.Proofs.Similarity

/-!
# What the layout of a text decides

Of where its lexemes stand, a text keeps one bit for each: whether it starts on a later line than the
token in front of it ends (`breaks`). Texts with the same lexemes and the same bits are read alike. So
are a text and the same lexemes with other white space between them, as long as there is a line feed
where there was one and nowhere else (`Relaid`).
-/

namespace Reprint

/-- Where the last token ends once this lexeme is passed. -/
def Located.lastStop (prev : Option Position) : Located Lexeme → Option Position
  | ⟨.token _, span⟩ => some span.stop
  | ⟨.comment _, _⟩ => prev

/-- For each lexeme, whether it starts on a later line than the token in front of it ends. A lexeme
with no token in front of it has no bit. -/
def breaksFrom : Option Position → List (Located Lexeme) → List (Option Bool)
  | _, [] => []
  | prev, l :: ls =>
    prev.map (fun p => decide (p.line < l.span.start.line)) :: breaksFrom (l.lastStop prev) ls

def breaks (ls : List (Located Lexeme)) : List (Option Bool) := breaksFrom none ls

/-- Where the token at `k` starts; behind the last token the text ends. -/
def tokenStart (text : String) (ls : List (Located Lexeme)) (k : Nat) : Position :=
  match (significant ls)[k]? with
  | some t => t.span.start
  | none => (Source.ofString text).stop

/-- The texts give the same tree, or the same is expected and the same is found at the token with the
same number. -/
def Fragment.Agrees (f : Fragment) (text₁ : String) (ls₁ : List (Located Lexeme)) (text₂ : String)
    (ls₂ : List (Located Lexeme)) : Prop :=
  (∃ b, f.parse text₁ = .ok b ∧ f.parse text₂ = .ok b) ∨
    ∃ e₁ e₂ k, f.parse text₁ = .error (.parse e₁) ∧ f.parse text₂ = .error (.parse e₂) ∧
      e₁.expected = e₂.expected ∧ e₁.found = e₂.found ∧ k ≤ (significant ls₁).length ∧
      e₁.position = tokenStart text₁ ls₁ k ∧ e₂.position = tokenStart text₂ ls₂ k

/-! ## From bits to pieces -/

/-- Lexemes stand in the order of their lines. -/
def LinesOrdered (ls : List (Located Lexeme)) : Prop :=
  ls.Pairwise fun a b => a.span.stop.line ≤ b.span.start.line

theorem Lexed.linesOrdered {p : Position} {cs : List Char} {ls : List (Located Lexeme)}
    (h : Lexed p cs ls) : LinesOrdered ls :=
  h.ordered.imp fun h => h.line_le

section
variable {ls ls' : List (Located Lexeme)}

/-- Behind tokens that end at `p` and `q`, the bits tell which comments start on the lines of these,
whether the next token does, and the same for all pieces to come. -/
theorem alike_of_breaksFrom {p q : Position} (hvalues : ls.map Located.value = ls'.map Located.value)
    (hbreaks : breaksFrom (some p) ls = breaksFrom (some q) ls') (ho : LinesOrdered ls)
    (ho' : LinesOrdered ls') (hp : ∀ l ∈ ls, p.line ≤ l.span.start.line)
    (hq : ∀ l ∈ ls', q.line ≤ l.span.start.line) :
    List.Forall₂ (fun x y => x.value = y.value ∧ startsOnLine p x = startsOnLine q y)
        (pieces ls).1 (pieces ls').1 ∧
      SameBreak p q (pieces ls).2 (pieces ls').2 ∧ Alike [] [] (pieces ls).2 (pieces ls').2 := by
  induction ls generalizing ls' p q with
  | nil =>
    obtain rfl : ls' = [] := List.map_eq_nil_iff.mp hvalues.symm
    exact ⟨.nil, by simp [SameBreak, pieces], .horizon⟩
  | cons l ls ih =>
    cases ls' with
    | nil => cases hvalues
    | cons l' ls' =>
      obtain ⟨x, span⟩ := l
      obtain ⟨x', span'⟩ := l'
      obtain ⟨rfl, hvs⟩ : x = x' ∧ ls.map Located.value = ls'.map Located.value :=
        List.cons.inj hvalues
      rw [LinesOrdered, List.pairwise_cons] at ho ho'
      rw [List.forall_mem_cons] at hp hq
      cases x with
      | comment k =>
        obtain ⟨hbit, hbreaks⟩ := List.cons.inj hbreaks
        obtain ⟨hbefore, hrest⟩ := ih hvs hbreaks ho.2 ho'.2 hp.2 hq.2
        refine ⟨.cons ⟨rfl, ?_⟩ hbefore, hrest⟩
        have hle : p.line ≤ span.start.line ∧ q.line ≤ span'.start.line := ⟨hp.1, hq.1⟩
        simp only [Option.map_some, Option.some.injEq, decide_eq_decide] at hbit
        simp only [startsOnLine, decide_eq_decide]
        omega
      | token t =>
        obtain ⟨hbit, hbreaks⟩ := List.cons.inj hbreaks
        obtain ⟨hafter, hbreak, halike⟩ := ih hvs hbreaks ho.2 ho'.2 ho.1 ho'.1
        refine ⟨.nil, ?_, .cons ⟨rfl, hafter⟩ hbreak halike⟩
        rintro _ ⟨rfl⟩ _ ⟨rfl⟩
        simpa using hbit

theorem alike_of_breaks (hvalues : ls.map Located.value = ls'.map Located.value)
    (hbreaks : breaks ls = breaks ls') (ho : LinesOrdered ls) (ho' : LinesOrdered ls') :
    values (pieces ls).1 = values (pieces ls').1 ∧ Alike [] [] (pieces ls).2 (pieces ls').2 := by
  unfold breaks at hbreaks
  induction ls generalizing ls' with
  | nil =>
    obtain rfl : ls' = [] := List.map_eq_nil_iff.mp hvalues.symm
    exact ⟨rfl, .horizon⟩
  | cons l ls ih =>
    cases ls' with
    | nil => cases hvalues
    | cons l' ls' =>
      obtain ⟨x, span⟩ := l
      obtain ⟨x', span'⟩ := l'
      obtain ⟨rfl, hvs⟩ : x = x' ∧ ls.map Located.value = ls'.map Located.value :=
        List.cons.inj hvalues
      rw [LinesOrdered, List.pairwise_cons] at ho ho'
      cases x with
      | comment k =>
        obtain ⟨-, hbreaks⟩ := List.cons.inj hbreaks
        obtain ⟨hbefore, halike⟩ := ih hvs hbreaks ho.2 ho'.2
        exact ⟨congrArg (k :: ·) hbefore, halike⟩
      | token t =>
        obtain ⟨-, hbreaks⟩ := List.cons.inj hbreaks
        obtain ⟨hafter, hbreak, halike⟩ := alike_of_breaksFrom hvs hbreaks ho.2 ho'.2 ho.1 ho'.1
        exact ⟨rfl, .cons ⟨rfl, hafter⟩ hbreak halike⟩

end

/-! ## Texts with the same bits -/

theorem Cursor.Moves.here_eq {text : String} {ls : List (Located Lexeme)} {c : Cursor}
    (h : (Cursor.start text ls).Moves c) :
    c.left ≤ (significant ls).length ∧
      c.here = tokenStart text ls ((significant ls).length - c.left) := by
  obtain ⟨us, hus⟩ := h.ahead_eq
  have hpieces : (pieces ls).2 = us ++ c.ahead := hus
  have hstop : c.textStop = (Source.ofString text).stop := h.textStop_eq
  unfold tokenStart
  rw [significant_eq, hpieces, List.length_map, List.length_append, left, Nat.add_sub_cancel,
    List.getElem?_map, List.getElem?_append_right (Nat.le_refl _), Nat.sub_self]
  refine ⟨Nat.le_add_left .., ?_⟩
  unfold here
  cases c.ahead with
  | nil => exact hstop
  | cons p ps => rfl

namespace Fragment

variable {text₁ text₂ : String} {ls₁ ls₂ : List (Located Lexeme)}

theorem agrees_of_breaks (f : Fragment) (h₁ : tokenize text₁ = .ok ls₁) (h₂ : tokenize text₂ = .ok ls₂)
    (hvalues : ls₁.map Located.value = ls₂.map Located.value) (hbreaks : breaks ls₁ = breaks ls₂) :
    f.Agrees text₁ ls₁ text₂ ls₂ := by
  have hlexed₁ := tokenize_eq_ok_iff.mp h₁
  have hlexed₂ := tokenize_eq_ok_iff.mp h₂
  obtain ⟨hbefore, halike⟩ := alike_of_breaks hvalues hbreaks hlexed₁.linesOrdered hlexed₂.linesOrdered
  have hs : Cursor.Similar [] [] (Cursor.start text₁ ls₁) (Cursor.start text₂ ls₂) :=
    ⟨rfl, halike, hbefore, hlexed₁.orderly, hlexed₂.orderly⟩
  have hlen : (significant ls₁).length = (significant ls₂).length := by
    rw [significant_eq, significant_eq, List.length_map, List.length_map]
    exact halike.length_eq
  cases hread : f.read (Cursor.start text₁ ls₁) with
  | ok b c =>
    obtain ⟨d, hread'⟩ := read_follows hread hs
    exact .inl ⟨b, parse_eq_ok_iff.mpr ⟨ls₁, h₁, c, hread⟩, parse_eq_ok_iff.mpr ⟨ls₂, h₂, d, hread'⟩⟩
  | error e c =>
    obtain ⟨ex, -, hfails⟩ := fails_of_read hread
    obtain ⟨d, hfails', hs'⟩ := hfails.follows hs (Nat.zero_le _)
    obtain ⟨hle, hhere⟩ := hfails.moves.here_eq
    obtain ⟨-, hhere'⟩ := hfails'.moves.here_eq
    have hleft : c.left = d.left := hs'.ahead.length_eq
    refine .inr ⟨c.unexpected ex, d.unexpected ex, (significant ls₁).length - c.left,
      (parse_eq_error_iff h₁).mpr ⟨ex, c, rfl, hfails⟩,
      (parse_eq_error_iff h₂).mpr ⟨ex, d, rfl, hfails'⟩, rfl, ?_, Nat.sub_le .., hhere, ?_⟩
    · unfold Cursor.unexpected Cursor.found
      rw [hs'.token?_eq]
    · rw [hleft, hlen]
      exact hhere'

end Fragment

/-! ## Other white space -/

/-- White space between two lexemes: the lexemes are not joined, and the line ends or goes on as it
did. -/
structure Gap (w w' : List Char) : Prop where
  spaces : (∀ c ∈ w, isSpace c = true) ∧ ∀ c ∈ w', isSpace c = true
  apart : w' = [] → w = []
  feeds : '\n' ∈ w ↔ '\n' ∈ w'

/-- Behind a lexeme, both texts go on with these lexemes. -/
inductive RelaidFrom : List Lexeme → List Char → List Char → Prop
  | last {w w'} : (∀ c ∈ w, isSpace c = true) → (∀ c ∈ w', isSpace c = true) → RelaidFrom [] w w'
  | lexeme {w w' x xs cs cs'} : Gap w w' → (∀ k, x = .comment k → k.StopsBefore cs') →
      RelaidFrom xs cs cs' →
      RelaidFrom (x :: xs) (w ++ (x.spelling.toList ++ cs)) (w' ++ (x.spelling.toList ++ cs'))

/-- The second text is made of the lexemes of the first one, with other white space in front of them,
between them and behind them. -/
def Relaid (xs : List Lexeme) (text text' : List Char) : Prop :=
  ∃ w w' cs cs', text = w ++ cs ∧ text' = w' ++ cs' ∧ (∀ c ∈ w, isSpace c = true) ∧
    (∀ c ∈ w', isSpace c = true) ∧ RelaidFrom xs cs cs'

theorem lexed_of_spaces {p : Position} {w cs : List Char} {ls : List (Located Lexeme)}
    (hw : ∀ c ∈ w, isSpace c = true) : Lexed p (w ++ cs) ls ↔ Lexed (p.after w) cs ls := by
  induction w generalizing p with
  | nil => rfl
  | cons c w ih =>
    rw [List.forall_mem_cons] at hw
    rw [List.cons_append, lexed_space hw.1, ih hw.2]
    rfl

theorem RelaidFrom.frays {xs : List Lexeme} {cs cs' : List Char} (h : RelaidFrom xs cs cs') :
    Frays cs cs' := by
  induction h with
  | @last w w' _ hw' => exact .cut fun c hc => isBlank_of_isSpace (hw' c (List.mem_of_mem_head? hc))
  | @lexeme w w' x xs cs cs' hgap _ _ ih =>
    cases w' with
    | nil =>
      rw [hgap.apart rfl]
      exact ih.append _
    | cons d w' =>
      refine .cut fun c hc => isBlank_of_isSpace (hgap.spaces.2 c ?_)
      cases hc
      exact List.mem_cons_self ..

/-- The last token ends on the line of `p` or before it, and the same is true of `q` on the other
side. -/
def SameLines (prev prev' : Option Position) (p q : Position) : Prop :=
  (prev = none ∧ prev' = none) ∨ ∃ s s', prev = some s ∧ prev' = some s' ∧ s.line ≤ p.line ∧
    s'.line ≤ q.line ∧ (s.line < p.line ↔ s'.line < q.line)

theorem SameLines.after {prev prev' : Option Position} {p q : Position} {w w' : List Char}
    (h : SameLines prev prev' p q) (hfeeds : '\n' ∈ w ↔ '\n' ∈ w') :
    SameLines prev prev' (p.after w) (q.after w') := by
  rcases h with h | ⟨s, s', rfl, rfl, hp, hq, hlines⟩
  · exact .inl h
  · refine .inr ⟨s, s', rfl, rfl, ?_⟩
    rw [← List.count_pos_iff, ← List.count_pos_iff] at hfeeds
    rw [Position.line_after, Position.line_after]
    omega

theorem SameLines.bit_eq {prev prev' : Option Position} {p q : Position}
    (h : SameLines prev prev' p q) :
    prev.map (fun s => decide (s.line < p.line)) = prev'.map (fun s => decide (s.line < q.line)) := by
  rcases h with ⟨rfl, rfl⟩ | ⟨s, s', rfl, rfl, -, -, hlines⟩
  · rfl
  · simpa using hlines

theorem SameLines.lexeme {prev prev' : Option Position} {p q : Position}
    (h : SameLines prev prev' p q) (x : Lexeme) :
    SameLines (Located.lastStop prev ⟨x, p, p.after x.spelling.toList⟩)
      (Located.lastStop prev' ⟨x, q, q.after x.spelling.toList⟩)
      (p.after x.spelling.toList) (q.after x.spelling.toList) := by
  cases x with
  | comment k => exact h.after .rfl
  | token t => exact .inr ⟨_, _, rfl, rfl, Nat.le_refl _, Nat.le_refl _, by simp⟩

/-- White space in front of a lexeme ends at its first character. -/
theorem eq_of_spaces_append {v w ds rest cs : List Char} {c : Char} {x : Lexeme}
    (hv : ∀ c ∈ v, isSpace c = true) (hw : ∀ c ∈ w, isSpace c = true) (hc : isSpace c = false)
    (hscan : scan c ds = some (x, rest)) (h : w ++ (x.spelling.toList ++ cs) = v ++ c :: ds) :
    v = w ∧ rest = cs := by
  have hspelling := spelling_of_scan hscan
  obtain ⟨u, hu⟩ := spelling_eq_cons_of_scan hscan
  rw [hu, List.cons_append] at h hspelling
  obtain ⟨-, rfl⟩ := List.cons.inj hspelling
  have htake := congrArg (List.takeWhile isSpace) h
  rw [takeWhile_append_of_head hw (by simpa using hc),
    takeWhile_append_of_head hv (by simpa using hc)] at htake
  subst htake
  exact ⟨rfl, (List.append_cancel_left (List.cons.inj (List.append_cancel_left h)).2).symm⟩

theorem RelaidFrom.lexed {xs : List Lexeme} {cs cs' : List Char} (h : RelaidFrom xs cs cs')
    {p q : Position} {ls : List (Located Lexeme)} (hlexed : Lexed p cs ls)
    (hls : ls.map Located.value = xs) {prev prev' : Option Position}
    (hlines : SameLines prev prev' p q) :
    ∃ ls', Lexed q cs' ls' ∧ ls.map Located.value = ls'.map Located.value ∧
      breaksFrom prev ls = breaksFrom prev' ls' := by
  induction h generalizing p q ls prev prev' with
  | @last w w' hw hw' =>
    obtain rfl : ls = [] := List.map_eq_nil_iff.mp hls
    refine ⟨[], ?_, rfl, rfl⟩
    rw [← List.append_nil w', lexed_of_spaces hw']
    exact .nil
  | @lexeme w w' x xs cs cs' hgap hline hrest ih =>
    cases ls with
    | nil => cases hls
    | cons l ls =>
      obtain ⟨_, v, c, ds, rest, rfl, htext, hv, hc, hscan, hafter⟩ := hlexed.of_cons
      obtain ⟨rfl, rfl⟩ := List.cons.inj hls
      obtain ⟨rfl, rfl⟩ := eq_of_spaces_append hv hgap.spaces.1 hc hscan htext
      obtain ⟨u, hu⟩ := spelling_eq_cons_of_scan hscan
      have htext' := congrArg (· ++ cs') hu
      have hscan' := scan_of_frays hscan hrest.frays hline htext'
      have hstart := hlines.after hgap.feeds
      obtain ⟨ls', hlexed', hvalues, hbreaks⟩ := ih hafter rfl (hstart.lexeme _)
      have hlexed' := (lexed_scan htext' hscan').mpr ⟨ls', rfl, hlexed'⟩
      refine ⟨_, (lexed_of_spaces hgap.spaces.2).mpr hlexed', congrArg (_ :: ·) hvalues, ?_⟩
      rw [breaksFrom, breaksFrom, hstart.bit_eq, hbreaks]

/-- Other white space between the lexemes of a text leaves the lexemes and their bits. -/
theorem Relaid.tokenize {text₁ text₂ : String} {ls₁ : List (Located Lexeme)}
    (h₁ : Reprint.tokenize text₁ = .ok ls₁)
    (h : Relaid (ls₁.map Located.value) text₁.toList text₂.toList) :
    ∃ ls₂, Reprint.tokenize text₂ = .ok ls₂ ∧ ls₁.map Located.value = ls₂.map Located.value ∧
      breaks ls₁ = breaks ls₂ := by
  obtain ⟨w, w', cs, cs', htext, htext', hw, hw', hrelaid⟩ := h
  have hlexed := tokenize_eq_ok_iff.mp h₁
  rw [htext, lexed_of_spaces hw] at hlexed
  obtain ⟨ls₂, hlexed', hvalues, hbreaks⟩ :=
    hrelaid.lexed (q := Position.origin.after w') hlexed rfl (.inl ⟨rfl, rfl⟩)
  refine ⟨ls₂, tokenize_eq_ok_iff.mpr ?_, hvalues, hbreaks⟩
  rw [htext']
  exact (lexed_of_spaces hw').mpr hlexed'

/-- Layout matters only through the line breaks behind tokens: texts with the same lexemes and the
same breaks are read alike, and so is a text whose white space is laid out anew. -/
theorem Fragment.agrees_of_same_breaks (f : Fragment) {text₁ : String} {ls₁ : List (Located Lexeme)}
    (h₁ : tokenize text₁ = .ok ls₁) :
    (∀ text₂ ls₂, tokenize text₂ = .ok ls₂ → ls₁.map Located.value = ls₂.map Located.value →
        breaks ls₁ = breaks ls₂ → f.Agrees text₁ ls₁ text₂ ls₂) ∧
      ∀ text₂ : String, Relaid (ls₁.map Located.value) text₁.toList text₂.toList →
        ∃ ls₂, tokenize text₂ = .ok ls₂ ∧ f.Agrees text₁ ls₁ text₂ ls₂ := by
  constructor
  · intro text₂ ls₂ h₂ hvalues hbreaks
    exact f.agrees_of_breaks h₁ h₂ hvalues hbreaks
  · intro text₂ hrelaid
    obtain ⟨ls₂, h₂, hvalues, hbreaks⟩ := hrelaid.tokenize h₁
    exact ⟨ls₂, h₂, f.agrees_of_breaks h₁ h₂ hvalues hbreaks⟩

/-- Another indentation, another end of line, a blank line and spaces around a sign. -/
theorem Fragment.agrees_of_same_breaks_indented :
    ∃ ls₁ ls₂, tokenize "q=1 // c\np" = .ok ls₁ ∧
      Relaid (ls₁.map Located.value) "q=1 // c\np".toList "\tq = 1 // c\r\n\r\n  p".toList ∧
      tokenize "\tq = 1 // c\r\n\r\n  p" = .ok ls₂ ∧
      program.Agrees "q=1 // c\np" ls₁ "\tq = 1 // c\r\n\r\n  p" ls₂ := by
  have h₁ : tokenize "q=1 // c\np" = .ok
      [⟨.token (.ident "q"), ⟨0, 1, 1⟩, ⟨1, 1, 2⟩⟩, ⟨.token .equals, ⟨1, 1, 2⟩, ⟨2, 1, 3⟩⟩,
        ⟨.token (.number ⟨"1"⟩), ⟨2, 1, 3⟩, ⟨3, 1, 4⟩⟩,
        ⟨.comment ⟨.line, "// c"⟩, ⟨4, 1, 5⟩, ⟨8, 1, 9⟩⟩,
        ⟨.token (.ident "p"), ⟨9, 2, 1⟩, ⟨10, 2, 2⟩⟩] := by cbv
  have hgap : ∀ w w' : List Char, w.all isSpace = true → w'.all isSpace = true →
      (w' = [] → w = []) → ('\n' ∈ w ↔ '\n' ∈ w') → Gap w w' := by
    intro w w' hw hw' hempty hfeeds
    exact ⟨⟨List.all_eq_true.mp hw, List.all_eq_true.mp hw'⟩, hempty, hfeeds⟩
  have hrelaid : Relaid [.token (.ident "q"), .token .equals, .token (.number ⟨"1"⟩),
      .comment ⟨.line, "// c"⟩, .token (.ident "p")] "q=1 // c\np".toList
      "\tq = 1 // c\r\n\r\n  p".toList := by
    refine ⟨[], ['\t'], _, _, ?_, ?_, by simp, by simp [isSpace],
      .lexeme (hgap [] [] rfl rfl (by simp) .rfl) (by simp)
        (.lexeme (hgap [] [' '] rfl rfl (by simp) (by decide)) (by simp)
          (.lexeme (hgap [] [' '] rfl rfl (by simp) (by decide)) (by simp)
            (.lexeme (hgap [' '] [' '] rfl rfl (by simp) .rfl) ?_
              (.lexeme (hgap ['\n'] ['\r', '\n', '\r', '\n', ' ', ' '] rfl rfl (by simp) (by decide))
                (by simp) (@RelaidFrom.last [] [] (by simp) (by simp))))))⟩
    · cbv
    · cbv
    · intro k _ _ d hd
      cases hd
      rfl
  obtain ⟨ls₂, h₂, hagrees⟩ := (program.agrees_of_same_breaks h₁).2 _ hrelaid
  exact ⟨_, ls₂, h₁, hrelaid, h₂, hagrees⟩

end Reprint
