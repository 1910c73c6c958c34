import Reprint.Proofs.Layout
import Reprint.Proofs.WellFormed

/-!
# Lexing printed trees

When every lexeme of a layout is spelled and none runs into what follows it, lexing gives the
lexemes back (`lexed_of_parts`). In a printed tree only a trailing line comment in front of another
comment can run into what follows (`Fragment.separated`, `Fragment.linesEnded_iff`), and when one
does, lexing no longer gives the comments back (`linesEnded_of_lexed`).
-/

namespace Reprint

/-! ## Lexing parts -/

/-- The lexemes among parts that stand at a position, each with its place. -/
def locate (p : Position) : List Part → List (Located Lexeme)
  | [] => []
  | .lexeme x :: ps =>
    ⟨x, p, p.after x.spelling.toList⟩ :: locate (p.after x.spelling.toList) ps
  | .space :: ps => locate (p.next ' ') ps
  | .newline :: ps => locate (p.next '\n') ps
  | .indent n :: ps => locate (p.after (List.replicate n ' ')) ps

/-- No word or numeral among the parts runs into what follows it. -/
def Separated : List Part → Prop
  | [] => True
  | .lexeme (.token t) :: ps => t.StopsBefore (layout ps) ∧ Separated ps
  | _ :: ps => Separated ps

/-- No line comment among the parts runs into what follows it. -/
def LinesEnded : List Part → Prop
  | [] => True
  | .lexeme (.comment c) :: ps => c.StopsBefore (layout ps) ∧ LinesEnded ps
  | _ :: ps => LinesEnded ps

theorem isSpace_of_scan {c : Char} {cs rest : List Char} {x : Lexeme}
    (h : scan c cs = some (x, rest)) : isSpace c = false := by
  rw [Bool.eq_false_iff]
  intro hc
  simp only [isSpace, Bool.or_eq_true, decide_eq_true_eq] at hc
  rcases hc with (((rfl | rfl) | rfl) | rfl) | rfl <;>
    simp [scan, isQuote, isIdentStart, Char.isAlpha, Char.isUpper, Char.isLower, Char.isDigit,
      Token.ofPunctuation?] at h

theorem lexed_space {p : Position} {c : Char} {cs : List Char} {ls : List (Located Lexeme)}
    (hc : isSpace c = true) : Lexed p (c :: cs) ls ↔ Lexed (p.next c) cs ls := by
  constructor
  · intro h
    cases h with
    | space _ h => exact h
    | lexeme hc' _ _ => simp [hc] at hc'
  · exact .space hc

theorem lexed_spaces {p : Position} {n : Nat} {cs : List Char} {ls : List (Located Lexeme)} :
    Lexed p (List.replicate n ' ' ++ cs) ls ↔ Lexed (p.after (List.replicate n ' ')) cs ls := by
  induction n generalizing p with
  | zero => rfl
  | succ n ih =>
    rw [List.replicate_succ, List.cons_append, lexed_space (by decide), ih]
    rfl

theorem lexed_scan {p : Position} {text cs rest : List Char} {ls : List (Located Lexeme)} {x : Lexeme}
    {c : Char} (htext : text = c :: cs) (hscan : scan c cs = some (x, rest)) :
    Lexed p text ls ↔ ∃ ls', ls = ⟨x, p, p.after x.spelling.toList⟩ :: ls' ∧
      Lexed (p.after x.spelling.toList) rest ls' := by
  have hspace := isSpace_of_scan hscan
  subst htext
  constructor
  · intro h
    cases h with
    | space hc _ => simp [hspace] at hc
    | lexeme _ hscan' h =>
      rw [hscan] at hscan'
      cases hscan'
      exact ⟨_, rfl, h⟩
  · intro h
    obtain ⟨ls', rfl, h⟩ := h
    exact .lexeme hspace hscan h

theorem Lexeme.Spelled.ne_nil {x : Lexeme} (hx : x.Spelled) : x.spelling.toList ≠ [] := by
  cases x with
  | comment c =>
    obtain ⟨kind, text⟩ := c
    cases kind <;> obtain ⟨cs, htext, -⟩ := hx <;> simp [Lexeme.spelling, htext]
  | token t =>
    cases t with
    | number n =>
      intro h
      obtain ⟨whole, fraction, exponent, hraw, -, -, -, hne⟩ := hx
      rw [show n.raw.toList = [] from h, eq_comm, List.append_eq_nil_iff, List.append_eq_nil_iff] at hraw
      simp [hraw.1.1, hraw.1.2] at hne
    | string raw =>
      obtain ⟨quote, tail, hraw, -⟩ := hx
      simp [Lexeme.spelling, Token.spelling, hraw]
    | ident name =>
      obtain ⟨⟨c, cs, hname, -⟩, -⟩ := hx
      simp [Lexeme.spelling, Token.spelling, hname]
    | bool b => cases b <;> decide
    | _ => decide

theorem lexed_of_spelled {p : Position} {x : Lexeme} {rest : List Char} {ls : List (Located Lexeme)}
    (hx : x.Spelled) (hrest : x.StopsBefore rest) :
    Lexed p (x.spelling.toList ++ rest) ls ↔ ∃ ls', ls = ⟨x, p, p.after x.spelling.toList⟩ :: ls' ∧
      Lexed (p.after x.spelling.toList) rest ls' := by
  obtain ⟨c, cs, hcs⟩ := List.exists_cons_of_ne_nil hx.ne_nil
  have htext : x.spelling.toList ++ rest = c :: (cs ++ rest) := by rw [hcs, List.cons_append]
  exact lexed_scan htext (scan_of_spelled hx hrest htext)

/-- Spelled lexemes that do not run into each other are what lexing gives. -/
theorem lexed_of_parts {p : Position} {ps : List Part} (hps : ∀ x, .lexeme x ∈ ps → x.Spelled)
    (hsep : Separated ps) (hends : LinesEnded ps) : Lexed p (layout ps) (locate p ps) := by
  induction ps generalizing p with
  | nil => exact .nil
  | cons q ps ih =>
    have hps' : ∀ x, .lexeme x ∈ ps → x.Spelled := fun x hx => hps x (List.mem_cons_of_mem _ hx)
    rw [layout_cons]
    cases q with
    | space => exact (lexed_space (by decide)).mpr (ih hps' hsep hends)
    | newline => exact (lexed_space (by decide)).mpr (ih hps' hsep hends)
    | indent n => exact lexed_spaces.mpr (ih hps' hsep hends)
    | lexeme x =>
      have hx := hps x (List.mem_cons_self ..)
      cases x with
      | token t =>
        exact (lexed_of_spelled hx hsep.1).mpr ⟨_, rfl, ih hps' hsep.2 hends⟩
      | comment c =>
        exact (lexed_of_spelled hx hends.1).mpr ⟨_, rfl, ih hps' hsep hends.2⟩

/-- A line comment that comes back from lexing had the end of its line behind it: otherwise it would
have come back longer. -/
theorem endsLine_of_lexed {p : Position} {c : Comment} {rest : List Char}
    {ls : List (Located Lexeme)} (hc : c.Spelled) (hkind : c.kind = .line)
    (h : Lexed p (c.text.toList ++ rest) ls) (hhead : (lexemeComments ls).head? = some c) :
    EndsLine rest := by
  obtain ⟨cs, hcs⟩ := hc.slash
  rw [hcs, List.cons_append] at h
  cases h with
  | space hspace _ => cases hspace
  | lexeme _ hscan _ =>
    rw [scan_slash] at hscan
    obtain ⟨⟨k, rest'⟩, hk, heq⟩ := Option.map_eq_some_iff.mp hscan
    cases heq
    obtain rfl : k = c := by simpa [lexemeComments, Lexeme.comment?] using hhead
    -- the comment that came back is the one that was written, so it left all of `rest`
    have htext := text_of_scanComment hk
    rw [← List.cons_append, ← hcs] at htext
    obtain rfl := List.append_cancel_left htext
    exact stopsBefore_of_scanComment hk hkind

/-- Where lexing gives back the comments, no line comment had anything behind it. -/
theorem linesEnded_of_lexed {p : Position} {ps : List Part} {ls : List (Located Lexeme)}
    (hps : ∀ x, .lexeme x ∈ ps → x.Spelled) (hsep : Separated ps) (h : Lexed p (layout ps) ls)
    (hcs : lexemeComments ls = partComments ps) : LinesEnded ps := by
  induction ps generalizing p ls with
  | nil => trivial
  | cons q ps ih =>
    have hps' : ∀ x, .lexeme x ∈ ps → x.Spelled := fun x hx => hps x (List.mem_cons_of_mem _ hx)
    rw [layout_cons] at h
    cases q with
    | space => exact ih hps' hsep ((lexed_space (by decide)).mp h) hcs
    | newline => exact ih hps' hsep ((lexed_space (by decide)).mp h) hcs
    | indent n => exact ih hps' hsep (lexed_spaces.mp h) hcs
    | lexeme x =>
      have hx := hps x (List.mem_cons_self ..)
      cases x with
      | token t =>
        obtain ⟨ls', rfl, h'⟩ := (lexed_of_spelled hx hsep.1).mp h
        exact ih hps' hsep.2 h' hcs
      | comment c =>
        -- only once its line is known to end here is the rest lexed from behind the comment
        have hstops : c.StopsBefore (layout ps) := fun hkind =>
          endsLine_of_lexed hx hkind h (by rw [hcs]; rfl)
        obtain ⟨ls', rfl, h'⟩ := (lexed_of_spelled hx hstops).mp h
        exact ⟨hstops, ih hps' hsep h' (List.cons.inj hcs).2⟩

/-! ## Printed trees -/

@[simp] theorem separated_indent (n : Nat) (ps : List Part) :
    Separated (.indent n :: ps) ↔ Separated ps := .rfl

theorem delimits_cons {c : Char} (cs : List Char) (hc : isIdentPart c = false ∧ c ≠ '.') :
    Delimits (c :: cs) := by
  intro d hd
  cases hd
  exact hc

@[simp] theorem delimits_space (ps : List Part) : Delimits (layout (.space :: ps)) :=
  delimits_cons _ (by decide)

@[simp] theorem delimits_openParen (ps : List Part) :
    Delimits (layout (.token .openParen :: ps)) :=
  delimits_cons _ (by decide)

@[simp] theorem delimits_closeParen (ps : List Part) :
    Delimits (layout (.token .closeParen :: ps)) :=
  delimits_cons _ (by decide)

@[simp] theorem delimits_comma (ps : List Part) : Delimits (layout (.token .comma :: ps)) :=
  delimits_cons _ (by decide)

@[simp] theorem delimits_semicolon (ps : List Part) : Delimits (layout (.token .semicolon :: ps)) :=
  delimits_cons _ (by decide)

theorem separated_open {t : Token} {ps : List Part} (hd : Delimits (layout ps)) (hps : Separated ps) :
    Separated (.token t :: ps) :=
  ⟨fun _ => hd, hps⟩

theorem separated_closed {t : Token} {ps : List Part} (ht : t.isOpen = false) (hps : Separated ps) :
    Separated (.token t :: ps) :=
  ⟨fun h => by simp [ht] at h, hps⟩

theorem separated_expr (e : Expr) {ps : List Part} (hd : Delimits (layout ps)) (hps : Separated ps) :
    Separated (e.parts ++ ps) := by
  induction e generalizing ps with
  | paren inner ih =>
    rw [Expr.parts, List.cons_append, List.append_assoc]
    exact separated_closed rfl (ih (delimits_closeParen _) (separated_closed rfl hps))
  | assign target value ih =>
    exact separated_open (delimits_space _) (separated_closed rfl (ih hd hps))
  | _ => exact separated_open hd hps

theorem separated_name (name : String) {ps : List Part} (hd : Delimits (layout ps))
    (hps : Separated ps) : Separated (nameParts name ++ ps) :=
  separated_open hd hps

theorem separated_declarator (d : Declarator) {ps : List Part} (hd : Delimits (layout ps))
    (hps : Separated ps) : Separated (d.parts ++ ps) := by
  unfold Declarator.parts
  split
  · exact separated_open hd hps
  · exact separated_expr (.assign d.name _) hd hps

/-- Items that can stand before a delimiter can stand in a list with commas before one. -/
theorem separated_comma {α : Type} {item : α → List Part}
    (hitem : ∀ a {ps}, Delimits (layout ps) → Separated ps → Separated (item a ++ ps))
    (as : List α) {ps : List Part} (hd : Delimits (layout ps)) (hps : Separated ps) :
    Separated (commaParts item as ++ ps) := by
  have htail : ∀ as : List α, Delimits (layout (commaTail item as ++ ps)) ∧
      Separated (commaTail item as ++ ps) := by
    intro as
    induction as with
    | nil => exact ⟨hd, hps⟩
    | cons a as ih =>
      simp only [commaTail, List.flatMap_cons, List.cons_append, List.append_assoc]
      exact ⟨delimits_comma _, separated_closed rfl (hitem a ih.1 ih.2)⟩
  cases as with
  | nil => exact hps
  | cons a as =>
    rw [commaParts, List.append_assoc]
    exact hitem a (htail as).1 (htail as).2

theorem separated_lines (n : Nat) (cs : List Comment) {ps : List Part} (hps : Separated ps) :
    Separated (lineParts n cs ++ ps) := by
  induction cs with
  | nil => exact hps
  | cons c cs ih => exact ih

theorem separated_behind (cs : List Comment) {ps : List Part} (hps : Separated ps) :
    Separated (behindParts cs ++ ps) := by
  induction cs with
  | nil => exact hps
  | cons c cs ih => exact ih

mutual
theorem Stmt.separated (w d : Nat) (s : Stmt) {ps : List Part} (hps : Separated ps) :
    Separated (s.parts w d ++ ps) := by
  match s with
  | ⟨leading, f, trailing⟩ =>
    have hbehind : Separated (behindParts trailing ++ .newline :: ps) := separated_behind trailing hps
    rw [Stmt.parts, List.append_assoc]
    refine separated_lines _ leading ?_
    simpa using f.separated w d hbehind

theorem Form.separated (w d : Nat) (f : Form) {ps : List Part} (hps : Separated ps) :
    Separated (f.parts w d ++ ps) := by
  match f with
  | .block b =>
    rw [Form.parts]
    exact b.separated w d hps
  | .empty =>
    rw [Form.parts]
    exact separated_closed rfl hps
  | .function name params b =>
    have hbody : Separated (.token .closeParen :: .space :: (b.blockParts w d ++ ps)) :=
      separated_closed rfl (b.separated w d hps)
    have hparams := separated_comma separated_name params (delimits_closeParen _) hbody
    rw [Form.parts]
    simp only [List.cons_append, List.append_assoc]
    exact separated_open (delimits_space _) (separated_open (delimits_openParen _)
      (separated_closed rfl hparams))
  | .var ds =>
    have hds := separated_comma separated_declarator ds (delimits_semicolon ps) (separated_closed rfl hps)
    rw [Form.parts]
    simp only [List.cons_append, List.append_assoc]
    exact separated_open (delimits_space _) hds
  | .expr e =>
    rw [Form.parts, List.append_assoc]
    exact separated_expr e (delimits_semicolon _) (separated_closed rfl hps)

theorem Body.separated (w d : Nat) (b : Body) {ps : List Part} (hps : Separated ps) :
    Separated (b.blockParts w d ++ ps) := by
  match b with
  | ⟨ss, dangling⟩ =>
    rcases Body.blockParts_cases w d ss dangling with ⟨-, -, h⟩ | h
    · rw [h]
      exact separated_closed rfl (separated_closed rfl hps)
    · have hclose : Separated (.indent (d * w) :: .token .closeBrace :: ps) := separated_closed rfl hps
      rw [h]
      simp only [List.cons_append, List.append_assoc]
      exact separated_closed rfl (stmtsSeparated w (d + 1) ss (separated_lines _ dangling hclose))

theorem stmtsSeparated (w d : Nat) (ss : List Stmt) {ps : List Part} (hps : Separated ps) :
    Separated (stmtsParts w d ss ++ ps) := by
  match ss with
  | [] => simpa [stmtsParts] using hps
  | s :: ss =>
    rw [stmtsParts, List.append_assoc]
    exact s.separated w d (stmtsSeparated w d ss hps)
end

theorem Fragment.separated (f : Fragment) (w : Nat) (b : Body) : Separated (f.parts w b) := by
  cases f with
  | program =>
    have hnil : Separated [] := trivial
    have := stmtsSeparated w 0 b.stmts (separated_lines 0 b.dangling hnil)
    simpa [Fragment.parts] using this
  | function =>
    have hnewline : Separated [.newline] := trivial
    exact b.separated w 0 hnewline

/-! ## Ends of lines in printed trees -/

@[simp] theorem linesEnded_space (ps : List Part) : LinesEnded (.space :: ps) ↔ LinesEnded ps := .rfl

@[simp] theorem linesEnded_newline (ps : List Part) :
    LinesEnded (.newline :: ps) ↔ LinesEnded ps := .rfl

@[simp] theorem linesEnded_indent (n : Nat) (ps : List Part) :
    LinesEnded (.indent n :: ps) ↔ LinesEnded ps := .rfl

@[simp] theorem linesEnded_token (t : Token) (ps : List Part) :
    LinesEnded (.token t :: ps) ↔ LinesEnded ps := .rfl

@[simp] theorem linesEnded_comment (c : Comment) (ps : List Part) :
    LinesEnded (.comment c :: ps) ↔ c.StopsBefore (layout ps) ∧ LinesEnded ps := .rfl

theorem stopsBefore_newline (c : Comment) (ps : List Part) :
    c.StopsBefore (layout (.newline :: ps)) := by
  intro _ d hd
  cases hd
  decide

theorem stopsBefore_space_iff (c : Comment) (ps : List Part) :
    c.StopsBefore (layout (.space :: ps)) ↔ c.kind = .block := by
  constructor
  · intro h
    cases hk : c.kind with
    | block => rfl
    | line => exact absurd (h hk ' ' rfl) (by decide)
  · intro hk hline
    simp [hk] at hline

@[simp] theorem linesEnded_expr (e : Expr) (ps : List Part) :
    LinesEnded (e.parts ++ ps) ↔ LinesEnded ps := by
  induction e generalizing ps with
  | paren inner ih => simp [Expr.parts, ih]
  | assign target value ih => simp [Expr.parts, ih]
  | _ => simp [Expr.parts]

theorem linesEnded_declarator (d : Declarator) (ps : List Part) :
    LinesEnded (d.parts ++ ps) ↔ LinesEnded ps := by
  unfold Declarator.parts
  split <;> simp

theorem linesEnded_comma {α : Type} {item : α → List Part}
    (hitem : ∀ a ps, LinesEnded (item a ++ ps) ↔ LinesEnded ps) (as : List α) (ps : List Part) :
    LinesEnded (commaParts item as ++ ps) ↔ LinesEnded ps := by
  have htail : ∀ as : List α, LinesEnded (commaTail item as ++ ps) ↔ LinesEnded ps := by
    intro as
    induction as with
    | nil => rfl
    | cons a as ih =>
      simp only [commaTail, List.flatMap_cons, List.cons_append, List.append_assoc, linesEnded_token,
        linesEnded_space, hitem]
      exact ih
  cases as with
  | nil => rfl
  | cons a as => rw [commaParts, List.append_assoc, hitem, htail]

@[simp] theorem linesEnded_lines (n : Nat) (cs : List Comment) (ps : List Part) :
    LinesEnded (lineParts n cs ++ ps) ↔ LinesEnded ps := by
  induction cs with
  | nil => rfl
  | cons c cs ih =>
    simp only [lineParts, List.flatMap_cons, List.cons_append, List.nil_append, linesEnded_indent,
      linesEnded_comment, linesEnded_newline, stopsBefore_newline, true_and]
    exact ih

/-- Comments behind a statement: a line comment must be the last. -/
theorem linesEnded_behind (cs : List Comment) (ps : List Part) :
    LinesEnded (behindParts cs ++ .newline :: ps) ↔
      (∀ c ∈ cs.dropLast, c.kind = .block) ∧ LinesEnded ps := by
  induction cs with
  | nil => simp [behindParts]
  | cons c cs ih =>
    have hcons : behindParts (c :: cs) ++ .newline :: ps =
      .space :: .comment c :: (behindParts cs ++ .newline :: ps) := rfl
    rw [hcons, linesEnded_space, linesEnded_comment, ih]
    cases cs with
    | nil =>
      have hstops : c.StopsBefore (layout (behindParts [] ++ .newline :: ps)) :=
        stopsBefore_newline c ps
      rw [and_iff_right hstops]
      rfl
    | cons d cs =>
      have hspace : behindParts (d :: cs) ++ .newline :: ps =
        .space :: .comment d :: (behindParts cs ++ .newline :: ps) := rfl
      rw [hspace, stopsBefore_space_iff, List.dropLast_cons_cons, List.forall_mem_cons, and_assoc]

mutual
theorem Stmt.linesEnded_iff (w d : Nat) (s : Stmt) (ps : List Part) :
    LinesEnded (s.parts w d ++ ps) ↔ (∀ s' ∈ s.within, s'.LineLast) ∧ LinesEnded ps := by
  match s with
  | ⟨leading, f, trailing⟩ =>
    rw [Stmt.parts, Stmt.within, List.forall_mem_cons]
    simp only [List.append_assoc, List.cons_append, List.nil_append, linesEnded_lines,
      linesEnded_indent, f.linesEnded_iff w d, linesEnded_behind]
    exact and_left_comm.trans and_assoc.symm

theorem Form.linesEnded_iff (w d : Nat) (f : Form) (ps : List Part) :
    LinesEnded (f.parts w d ++ ps) ↔ (∀ s ∈ f.within, s.LineLast) ∧ LinesEnded ps := by
  match f with
  | .block b =>
    rw [Form.parts, Form.within]
    exact b.linesEnded_iff w d ps
  | .empty => simp [Form.parts, Form.within]
  | .function name params b =>
    have hname : ∀ name ps, LinesEnded (nameParts name ++ ps) ↔ LinesEnded ps := fun _ _ => .rfl
    simp [Form.parts, Form.within, linesEnded_comma hname, b.linesEnded_iff w d ps]
  | .var ds => simp [Form.parts, Form.within, linesEnded_comma linesEnded_declarator]
  | .expr e => simp [Form.parts, Form.within]

theorem Body.linesEnded_iff (w d : Nat) (b : Body) (ps : List Part) :
    LinesEnded (b.blockParts w d ++ ps) ↔ (∀ s ∈ b.within, s.LineLast) ∧ LinesEnded ps := by
  match b with
  | ⟨ss, dangling⟩ =>
    rw [Body.within]
    rcases Body.blockParts_cases w d ss dangling with ⟨rfl, rfl, h⟩ | h
    · simp [h, stmtsWithin]
    · simp [h, stmtsLinesEnded_iff w (d + 1) ss]

theorem stmtsLinesEnded_iff (w d : Nat) (ss : List Stmt) (ps : List Part) :
    LinesEnded (stmtsParts w d ss ++ ps) ↔ (∀ s ∈ stmtsWithin ss, s.LineLast) ∧ LinesEnded ps := by
  match ss with
  | [] => simp [stmtsParts, stmtsWithin]
  | s :: ss =>
    rw [stmtsParts, stmtsWithin, List.append_assoc, s.linesEnded_iff w d, stmtsLinesEnded_iff w d ss,
      List.forall_mem_append, and_assoc]
end

theorem Fragment.linesEnded_iff (f : Fragment) (w : Nat) (b : Body) :
    LinesEnded (f.parts w b) ↔ ∀ s ∈ b.within, s.LineLast := by
  cases f with
  | program =>
    obtain ⟨ss, dangling⟩ := b
    have hlines := linesEnded_lines 0 dangling []
    simp only [List.append_nil] at hlines
    rw [Fragment.parts, stmtsLinesEnded_iff, hlines, Body.within]
    exact and_iff_left trivial
  | function =>
    rw [Fragment.parts, b.linesEnded_iff]
    exact and_iff_left trivial

/-! ## Spelling of printed trees -/

def Part.TokenSpelled : Part → Prop
  | .lexeme (.token t) => t.Spelled
  | _ => True

def TokensSpelled (ps : List Part) : Prop := ∀ p ∈ ps, p.TokenSpelled

@[simp] theorem tokensSpelled_nil : TokensSpelled [] := by simp [TokensSpelled]

@[simp] theorem tokensSpelled_cons (p : Part) (ps : List Part) :
    TokensSpelled (p :: ps) ↔ p.TokenSpelled ∧ TokensSpelled ps :=
  List.forall_mem_cons

@[simp] theorem tokensSpelled_append (ps qs : List Part) :
    TokensSpelled (ps ++ qs) ↔ TokensSpelled ps ∧ TokensSpelled qs :=
  List.forall_mem_append

@[simp] theorem tokenSpelled_space : Part.space.TokenSpelled := trivial

@[simp] theorem tokenSpelled_newline : Part.newline.TokenSpelled := trivial

@[simp] theorem tokenSpelled_indent (n : Nat) : (Part.indent n).TokenSpelled := trivial

@[simp] theorem tokenSpelled_comment (c : Comment) : (Part.comment c).TokenSpelled := trivial

@[simp] theorem tokenSpelled_token (t : Token) : (Part.token t).TokenSpelled ↔ t.Spelled := .rfl

theorem tokensSpelled_expr {e : Expr} (h : e.Spelled) : TokensSpelled e.parts := by
  induction e with
  | paren inner ih => simpa [Expr.parts, Token.Spelled] using ih h
  | assign target value ih => simpa [Expr.parts, Token.Spelled] using ⟨h.1, ih h.2⟩
  | _ => exact List.forall_mem_singleton.mpr h

theorem tokensSpelled_declarator {d : Declarator} (h : d.Spelled) : TokensSpelled d.parts := by
  unfold Declarator.parts
  split
  · simpa [Token.Spelled] using h.1
  · rename_i e he
    simpa [Token.Spelled] using ⟨h.1, tokensSpelled_expr (h.2 e he)⟩

theorem tokensSpelled_comma {α : Type} {item : α → List Part} {as : List α}
    (h : ∀ a ∈ as, TokensSpelled (item a)) : TokensSpelled (commaParts item as) := by
  cases as with
  | nil => simp [commaParts]
  | cons a as =>
    rw [List.forall_mem_cons] at h
    refine (tokensSpelled_append ..).mpr ⟨h.1, fun p hp => ?_⟩
    obtain ⟨b, hb, hp⟩ := List.mem_flatMap.mp hp
    simp only [List.mem_cons] at hp
    rcases hp with rfl | rfl | hp
    · trivial
    · trivial
    · exact h.2 b hb p hp

@[simp] theorem tokensSpelled_lines (n : Nat) (cs : List Comment) : TokensSpelled (lineParts n cs) := by
  induction cs with
  | nil => simp [lineParts]
  | cons c cs ih => simpa [lineParts] using ih

@[simp] theorem tokensSpelled_behind (cs : List Comment) : TokensSpelled (behindParts cs) := by
  induction cs with
  | nil => simp [behindParts]
  | cons c cs ih => simpa [behindParts] using ih

mutual
theorem Stmt.tokensSpelled (w d : Nat) (s : Stmt) (h : ∀ s' ∈ s.within, s'.form.Spelled) :
    TokensSpelled (s.parts w d) := by
  match s with
  | ⟨leading, f, trailing⟩ =>
    rw [Stmt.within, List.forall_mem_cons] at h
    simp [Stmt.parts, f.tokensSpelled w d h.1 h.2]

theorem Form.tokensSpelled (w d : Nat) (f : Form) (hf : f.Spelled)
    (h : ∀ s ∈ f.within, s.form.Spelled) : TokensSpelled (f.parts w d) := by
  match f with
  | .block b =>
    rw [Form.within] at h
    simpa [Form.parts] using b.tokensSpelled w d h
  | .empty => simp [Form.parts, Token.Spelled]
  | .function name params b =>
    have hparams : TokensSpelled (commaParts nameParts params) :=
      tokensSpelled_comma fun p hp => by simpa [nameParts, Token.Spelled] using hf.2 p hp
    rw [Form.within] at h
    simpa [Form.parts, Token.Spelled, hparams, b.tokensSpelled w d h] using hf.1
  | .var ds =>
    have hds := tokensSpelled_comma fun d hd => tokensSpelled_declarator (hf.2 d hd)
    simp [Form.parts, Token.Spelled, hds]
  | .expr e => simp [Form.parts, Token.Spelled, tokensSpelled_expr hf]

theorem Body.tokensSpelled (w d : Nat) (b : Body) (h : ∀ s ∈ b.within, s.form.Spelled) :
    TokensSpelled (b.blockParts w d) := by
  match b with
  | ⟨ss, dangling⟩ =>
    rw [Body.within] at h
    rcases Body.blockParts_cases w d ss dangling with ⟨-, -, hb⟩ | hb
    · simp [hb, Token.Spelled]
    · simp [hb, Token.Spelled, stmtsTokensSpelled w (d + 1) ss h]

theorem stmtsTokensSpelled (w d : Nat) (ss : List Stmt) (h : ∀ s ∈ stmtsWithin ss, s.form.Spelled) :
    TokensSpelled (stmtsParts w d ss) := by
  match ss with
  | [] => simp [stmtsParts]
  | s :: ss =>
    rw [stmtsWithin, List.forall_mem_append] at h
    simp [stmtsParts, s.tokensSpelled w d h.1, stmtsTokensSpelled w d ss h.2]
end

theorem Fragment.spelled_parts (f : Fragment) (w : Nat) (b : Body)
    (hforms : ∀ s ∈ b.within, s.form.Spelled) (hcomments : ∀ c ∈ b.comments, c.Spelled) :
    ∀ x, .lexeme x ∈ f.parts w b → x.Spelled := by
  have htokens : TokensSpelled (f.parts w b) := by
    cases f with
    | program =>
      obtain ⟨ss, dangling⟩ := b
      rw [Body.within] at hforms
      simp [Fragment.parts, stmtsTokensSpelled w 0 ss hforms]
    | function => simp [Fragment.parts, b.tokensSpelled w 0 hforms]
  intro x hx
  cases x with
  | token t => exact htokens _ hx
  | comment c =>
    rw [← f.partComments w b] at hcomments
    exact hcomments c (List.mem_filterMap.mpr ⟨_, hx, rfl⟩)

/-- A printed tree is lexed into the lexemes that were printed. -/
theorem Fragment.tokenize_printWith (f : Fragment) (w : Nat) {b : Body} (hb : b.WellFormed) :
    tokenize (f.printWith w b) = .ok (locate .origin (f.parts w b)) := by
  rw [tokenize_eq_ok_iff, f.printWith_eq]
  refine lexed_of_parts (f.spelled_parts w b hb.forms hb.comments) (f.separated w b) ?_
  exact (f.linesEnded_iff w b).mpr fun s hs c hc => (hb.trailing s hs c hc).1

end Reprint
