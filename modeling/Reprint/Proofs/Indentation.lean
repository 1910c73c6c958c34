import Reprint.Proofs.Lines
import Reprint.Proofs.Semicolons

/-!
# Levels of printed lines

The level of a printed line is the number of blocks that are open where it starts, less one if the line
closes the innermost of them; a line that starts inside a comment has level zero (`LevelAt`). The width
of the printer shows in nothing but the spaces in front of the lines, and there by the level
(`Fragment.lines_indented_by_level`).

What a printer writes follows a few rules (`Laid`), whatever the tree. The lines are cut from behind:
each rule says how one more part in front changes the first line and the lines below it (`Lined`).
-/

namespace Reprint

/-! ## Levels -/

def opened (ps : List Part) : Nat := (partTokens ps).count .openBrace

def closed (ps : List Part) : Nat := (partTokens ps).count .closeBrace

@[simp] theorem opened_nil : opened [] = 0 := rfl

@[simp] theorem closed_nil : closed [] = 0 := rfl

@[simp] theorem opened_append (ps qs : List Part) : opened (ps ++ qs) = opened ps + opened qs := by
  simp [opened]

@[simp] theorem closed_append (ps qs : List Part) : closed (ps ++ qs) = closed ps + closed qs := by
  simp [closed]

/-- The blocks that are open behind parts, from those that are open in front of them. -/
theorem open_append {n n' : Nat} {ps qs : List Part} (h : n + closed ps = opened ps)
    (hqs : n + opened qs = n' + closed qs) : n' + closed (ps ++ qs) = opened (ps ++ qs) := by
  rw [opened_append, closed_append]
  omega

theorem count_partTokens_cons {t : Token} {p : Part} (h : p ≠ .token t) (ps : List Part) :
    (partTokens (p :: ps)).count t = (partTokens ps).count t := by
  match p with
  | .space | .newline | .indent _ | .lexeme (.comment _) => rfl
  | .lexeme (.token t') =>
    have ht : t' ≠ t := fun ht => h (ht ▸ rfl)
    exact List.count_cons_of_ne ht

theorem opened_cons {p : Part} (h : p ≠ .token .openBrace) (ps : List Part) :
    opened (p :: ps) = opened ps :=
  count_partTokens_cons h ps

theorem closed_cons {p : Part} (h : p ≠ .token .closeBrace) (ps : List Part) :
    closed (p :: ps) = closed ps :=
  count_partTokens_cons h ps

/-- The innermost of the blocks that are open in front of the parts is closed on their first line. -/
def ClosesBlock (ps : List Part) : Prop :=
  ∃ us vs, ps = us ++ .token .closeBrace :: vs ∧ opened us = closed us ∧ '\n' ∉ layout us

/-- Behind the text `before` the layout goes on inside a block comment that spans lines. -/
def InsideComment (ps : List Part) (before : List Char) : Prop :=
  ∃ qs c rs u v, ps = qs ++ .comment c :: rs ∧ before = layout qs ++ u ∧ c.kind = .block ∧
    c.text.toList = u ++ v ∧ '\n' ∈ u ∧ v ≠ []

/-- The level of the line that starts behind the text `before` in the layout of some parts. -/
inductive LevelAt (ps : List Part) (before : List Char) : Nat → Prop
  | comment : InsideComment ps before → LevelAt ps before 0
  | plain {qs rs d} : ps = qs ++ rs → before = layout qs → ¬ ClosesBlock rs →
      d + closed qs = opened qs → LevelAt ps before d
  | closing {qs rs d} : ps = qs ++ rs → before = layout qs → ClosesBlock rs →
      d + 1 + closed qs = opened qs → LevelAt ps before d

theorem closesBlock_cons_iff {p : Part} (hopen : p ≠ .token .openBrace) (hclose : p ≠ .token .closeBrace)
    (ps : List Part) : ClosesBlock (p :: ps) ↔ '\n' ∉ p.chars ∧ ClosesBlock ps := by
  constructor
  · rintro ⟨us, vs, hps, hus, hline⟩
    cases us with
    | nil => exact absurd (List.cons.inj hps).1 hclose
    | cons q us =>
      obtain ⟨rfl, hrest⟩ := List.cons.inj hps
      rw [opened_cons hopen, closed_cons hclose] at hus
      rw [layout_cons, List.mem_append, not_or] at hline
      exact ⟨hline.1, us, vs, hrest, hus, hline.2⟩
  · rintro ⟨hp, us, vs, rfl, hus, hline⟩
    refine ⟨p :: us, vs, rfl, ?_, by simp [hp, hline]⟩
    rw [opened_cons hopen, closed_cons hclose, hus]

theorem braces_of_layout_eq_nil {ms : List Part} (h : layout ms = []) (rs : List Part) :
    opened ms = 0 ∧ closed ms = 0 ∧ (ClosesBlock (ms ++ rs) ↔ ClosesBlock rs) := by
  induction ms with
  | nil => simp
  | cons p ms ih =>
    rw [layout_cons, List.append_eq_nil_iff] at h
    obtain ⟨hp, hms⟩ := h
    -- a brace would be a character
    have hopen : p ≠ .token .openBrace := by
      rintro rfl
      simp [Token.spelling] at hp
    have hclose : p ≠ .token .closeBrace := by
      rintro rfl
      simp [Token.spelling] at hp
    rw [opened_cons hopen, closed_cons hclose, List.cons_append, closesBlock_cons_iff hopen hclose, hp]
    simpa using ih hms

theorem braces_of_layout_eq {qs rs qs' rs' : List Part} (h : qs ++ rs = qs' ++ rs')
    (hlayout : layout qs = layout qs') :
    opened qs = opened qs' ∧ closed qs = closed qs' ∧ (ClosesBlock rs ↔ ClosesBlock rs') := by
  rcases List.append_eq_append_iff.mp h with ⟨ms, rfl, rfl⟩ | ⟨ms, rfl, rfl⟩
  · have hms : layout ms = [] := by simpa using hlayout.symm
    obtain ⟨ho, hc, hiff⟩ := braces_of_layout_eq_nil hms rs'
    simp [ho, hc, hiff]
  · have hms : layout ms = [] := by simpa using hlayout
    obtain ⟨ho, hc, hiff⟩ := braces_of_layout_eq_nil hms rs
    simp [ho, hc, hiff]

theorem not_insideComment (qs rs : List Part) : ¬ InsideComment (qs ++ rs) (layout qs) := by
  rintro ⟨qs', c, rs', u, v, hps, hlayout, -, htext, hu, hv⟩
  have hune : u ≠ [] := List.ne_nil_of_mem hu
  rcases List.append_eq_append_iff.mp hps with ⟨ms, rfl, -⟩ | ⟨ms, rfl, hms⟩
  · simp [hune] at hlayout
  · cases ms with
    | nil => simp [hune] at hlayout
    | cons m ms =>
      obtain ⟨rfl, -⟩ := List.cons.inj hms
      simp [htext, hv] at hlayout

theorem LevelAt.unique {ps : List Part} {before : List Char} {d d' : Nat} (h : LevelAt ps before d)
    (h' : LevelAt ps before d') : d = d' := by
  cases h with
  | comment hin =>
    cases h' with
    | comment _ => rfl
    | plain hps hb => exact absurd (hps ▸ hb ▸ hin) (not_insideComment _ _)
    | closing hps hb => exact absurd (hps ▸ hb ▸ hin) (not_insideComment _ _)
  | plain hps hb hrs hd =>
    subst hps hb
    cases h' with
    | comment hin => exact absurd hin (not_insideComment _ _)
    | plain hps hb hrs' hd' =>
      obtain ⟨ho, hc, -⟩ := braces_of_layout_eq hps hb
      omega
    | closing hps hb hrs' _ => exact absurd ((braces_of_layout_eq hps hb).2.2.mpr hrs') hrs
  | closing hps hb hrs hd =>
    subst hps hb
    cases h' with
    | comment hin => exact absurd hin (not_insideComment _ _)
    | plain hps hb hrs' _ => exact absurd ((braces_of_layout_eq hps hb).2.2.mp hrs) hrs'
    | closing hps hb hrs' hd' =>
      obtain ⟨ho, hc, -⟩ := braces_of_layout_eq hps hb
      omega

/-! ## What a printer writes -/

/-- What a printer of any width writes from some point on, where `n` blocks are open and, as the flag
says, a line starts or has started. Whatever a printer writes at the start of a line is either the spaces
of the level or, one level up, those in front of the brace that closes a block. -/
inductive Laid : Nat → Bool → (Nat → List Part) → Prop
  | done : Laid 0 true fun _ => []
  | line {n ps} : Laid n false ps → Laid n true fun w => .indent (n * w) :: ps w
  | closes {n ps} : Laid n false ps →
      Laid (n + 1) true fun w => .indent (n * w) :: .token .closeBrace :: ps w
  | newline {n ps} : Laid n true ps → Laid n false fun w => .newline :: ps w
  | opens {n ps} : Laid (n + 1) true ps → Laid n false fun w => .token .openBrace :: .newline :: ps w
  | braces {n ps} : Laid n false ps →
      Laid n false fun w => .token .openBrace :: .token .closeBrace :: ps w
  | space {n ps} : Laid n false ps → Laid n false fun w => .space :: ps w
  | token {n ps t} : t ∉ [Token.openBrace, .closeBrace] → Laid n false ps →
      Laid n false fun w => .token t :: ps w
  | comment {n ps c} : Laid n false ps → Laid n false fun w => .comment c :: ps w

namespace Laid

variable {n : Nat} {ps : Nat → List Part}

theorem expr (e : Expr) (h : Laid n false ps) : Laid n false fun w => e.parts ++ ps w := by
  induction e generalizing ps with
  | paren inner ih =>
    have hall := token (t := .openParen) (by simp)
      (ih (token (t := .closeParen) (by simp) h))
    simpa [Expr.parts] using hall
  | assign target value ih =>
    have hvalue := (token (t := .equals) (by simp) (ih h).space).space
    exact token (by simp) hvalue
  | _ => exact token (by simp) h

theorem name (x : String) (h : Laid n false ps) : Laid n false fun w => nameParts x ++ ps w :=
  token (by simp) h

theorem declarator (d : Declarator) (h : Laid n false ps) : Laid n false fun w => d.parts ++ ps w := by
  unfold Declarator.parts
  cases d.init with
  | none => exact name d.name h
  | some e => exact expr (.assign d.name e) h

theorem commas {α : Type} (item : α → List Part)
    (hitem : ∀ (a : α) {ps : Nat → List Part}, Laid n false ps → Laid n false fun w => item a ++ ps w)
    (as : List α) (h : Laid n false ps) : Laid n false fun w => commaParts item as ++ ps w := by
  have htail : ∀ as : List α, Laid n false fun w => commaTail item as ++ ps w := by
    intro as
    induction as with
    | nil => exact h
    | cons a as ih =>
      have hall := token (t := .comma) (by simp) (hitem a ih).space
      simpa [commaTail] using hall
  cases as with
  | nil => exact h
  | cons a as => simpa [commaParts] using hitem a (htail as)

theorem lines (cs : List Comment) (h : Laid n true ps) :
    Laid n true fun w => lineParts (n * w) cs ++ ps w := by
  induction cs with
  | nil => exact h
  | cons c cs ih => exact ih.newline.comment.line

theorem behind (cs : List Comment) (h : Laid n false ps) :
    Laid n false fun w => behindParts cs ++ ps w := by
  induction cs with
  | nil => exact h
  | cons c cs ih => exact ih.comment.space

mutual
theorem stmt {n : Nat} {ps : Nat → List Part} (s : Stmt) (h : Laid n true ps) :
    Laid n true fun w => s.parts w n ++ ps w := by
  match s with
  | ⟨leading, f, trailing⟩ =>
    have hall := lines leading (form f (behind trailing h.newline)).line
    simpa [Stmt.parts] using hall

theorem form {n : Nat} {ps : Nat → List Part} (f : Form) (h : Laid n false ps) :
    Laid n false fun w => f.parts w n ++ ps w := by
  match f with
  | .block b =>
    simp only [Form.parts]
    exact block b h
  | .empty =>
    simp only [Form.parts]
    exact token (by simp) h
  | .function x params b =>
    have hparams := commas nameParts (fun x _ => name x) params
      (token (t := .closeParen) (by simp) (block b h).space)
    have hall := token (t := .function) (by simp) (name x
      (token (t := .openParen) (by simp) hparams)).space
    simpa [Form.parts, nameParts] using hall
  | .var ds =>
    have hds := commas Declarator.parts (fun d _ => declarator d) ds
      (token (t := .semicolon) (by simp) h)
    have hall := token (t := .var) (by simp) hds.space
    simpa [Form.parts] using hall
  | .expr e =>
    have hall := expr e (token (t := .semicolon) (by simp) h)
    simpa [Form.parts] using hall

theorem block {n : Nat} {ps : Nat → List Part} (b : Body) (h : Laid n false ps) :
    Laid n false fun w => b.blockParts w n ++ ps w := by
  match b with
  | ⟨[], []⟩ =>
    simp only [Body.blockParts]
    exact h.braces
  | ⟨s :: ss, dangling⟩ =>
    have hall := (stmts (s :: ss) (lines dangling h.closes)).opens
    simpa [Body.blockParts] using hall
  | ⟨[], c :: dangling⟩ =>
    have hall := (stmts [] (lines (c :: dangling) h.closes)).opens
    simpa [Body.blockParts] using hall

theorem stmts {n : Nat} {ps : Nat → List Part} (ss : List Stmt) (h : Laid n true ps) :
    Laid n true fun w => stmtsParts w n ss ++ ps w := by
  match ss with
  | [] =>
    simp only [stmtsParts]
    exact h
  | s :: ss =>
    have hall := stmt s (stmts ss h)
    simpa [stmtsParts] using hall
end

theorem program (b : Body) : Laid 0 true fun w => Fragment.program.parts w b := by
  have hall := stmts b.stmts (lines b.dangling done)
  simpa [Fragment.parts] using hall

end Laid

/-! ## Cutting into lines -/

def indented (w : Nat) (row : Nat × List Char) : List Char := List.replicate (w * row.1) ' ' ++ row.2

/-- Each line of the rows, which start behind the text `before`, is at its level in the layout. -/
def Leveled (w : Nat) (ps : List Part) : List Char → List (Nat × List Char) → Prop
  | _, [] => True
  | before, row :: rows =>
    LevelAt ps before row.1 ∧ Leveled w ps (before ++ (indented w row ++ ['\n'])) rows

/-- Behind the parts `done` the parts `ps` end a line with `head` and go on with the rows, at every
width. -/
structure Lined (done ps : Nat → List Part) (head : List Char) (rows : List (Nat × List Char)) :
    Prop where
  newline_not_mem : ∀ row ∈ rows, '\n' ∉ row.2
  layout_eq : ∀ w, layout (ps w) = head ++ unlines (rows.map (indented w))
  leveled : ∀ w, Leveled w (done w ++ ps w) (layout (done w) ++ head) rows

namespace Lined

variable {done ps qs : Nat → List Part} {l m head : List Char} {rows : List (Nat × List Char)}

theorem inline (h : Lined (fun w => done w ++ qs w) ps head rows) (hqs : ∀ w, layout (qs w) = l) :
    Lined done (fun w => qs w ++ ps w) (l ++ head) rows := by
  refine ⟨h.newline_not_mem, fun w => ?_, fun w => ?_⟩
  · rw [layout_append, hqs, h.layout_eq, List.append_assoc]
  · have hlevels := h.leveled w
    rwa [layout_append, hqs, List.append_assoc, List.append_assoc] at hlevels

theorem row {d : Nat} (h : Lined (fun w => done w ++ qs w) ps (l ++ ['\n']) rows)
    (hqs : ∀ w, layout (qs w) = List.replicate (w * d) ' ' ++ m) (hl : '\n' ∉ m ++ l)
    (hd : ∀ w, LevelAt (done w ++ (qs w ++ ps w)) (layout (done w)) d) :
    Lined done (fun w => qs w ++ ps w) [] ((d, m ++ l) :: rows) := by
  refine ⟨List.forall_mem_cons.mpr ⟨hl, h.newline_not_mem⟩, fun w => ?_, fun w => ⟨?_, ?_⟩⟩
  · rw [layout_append, hqs, h.layout_eq]
    simp [indented]
  · rw [List.append_nil]
    exact hd w
  · have hlevels := h.leveled w
    rw [layout_append, hqs, List.append_assoc] at hlevels
    simpa [indented] using hlevels

end Lined

theorem Comment.Spelled.newline {c : Comment} (h : c.Spelled) (hnewline : '\n' ∈ c.text.toList) :
    c.kind = .block ∧ ∃ cs, c.text.toList = cs ++ ['/'] := by
  obtain ⟨kind, text⟩ := c
  cases kind with
  | line =>
    obtain ⟨cs, htext, hcs⟩ := h
    change '\n' ∈ text.toList at hnewline
    have hmem : '\n' ∈ cs := by simpa [htext] using hnewline
    exact absurd (hcs _ hmem) (by decide)
  | block =>
    obtain ⟨cs, htext, inner, rfl, -⟩ := h
    exact ⟨rfl, '/' :: '*' :: (inner ++ ['*']), by simp [htext]⟩

/-- The lines of a comment but for the first are rows of level zero, the last of them with what stands
behind the comment. -/
theorem Lined.comment {done ps : Nat → List Part} {l : List Char} {rows : List (Nat × List Char)}
    {c : Comment} (hc : c.Spelled) (hl : '\n' ∉ l)
    (h : Lined (fun w => done w ++ [.comment c]) ps (l ++ ['\n']) rows) :
    ∃ l' rows', '\n' ∉ l' ∧ Lined done (fun w => .comment c :: ps w) (l' ++ ['\n']) rows' := by
  suffices hrest : ∀ u v, c.text.toList = u ++ v → ∃ l' rows', '\n' ∉ l' ∧
      (∀ row ∈ rows', '\n' ∉ row.2) ∧ ∀ w,
        v ++ layout (ps w) = l' ++ '\n' :: unlines (rows'.map (indented w)) ∧
        Leveled w (done w ++ .comment c :: ps w) (layout (done w) ++ u ++ (l' ++ ['\n'])) rows' by
    obtain ⟨l', rows', hl', hrows, hall⟩ := hrest [] c.text.toList rfl
    refine ⟨l', rows', hl', hrows, fun w => ?_, fun w => ?_⟩
    · simpa using (hall w).1
    · simpa using (hall w).2
  intro u v huv
  -- `u` has been gone through, and `v` is what is left of the comment
  induction v generalizing u with
  | nil =>
    refine ⟨l, rows, hl, h.newline_not_mem, fun w => ⟨by simp [h.layout_eq w], ?_⟩⟩
    have hlevels := h.leveled w
    simpa [huv] using hlevels
  | cons a v ih =>
    obtain ⟨l', rows', hl', hrows, hall⟩ := ih (u ++ [a]) (by simp [huv])
    by_cases ha : a = '\n'
    · subst ha
      obtain ⟨hkind, cs, hcs⟩ := hc.newline (by simp [huv])
      have hv : v ≠ [] := by
        rintro rfl
        have hlast := List.append_inj_right' (huv.symm.trans hcs) rfl
        simp at hlast
      refine ⟨[], (0, l') :: rows', by simp, List.forall_mem_cons.mpr ⟨hl', hrows⟩, fun w => ⟨?_, ?_, ?_⟩⟩
      · simp [(hall w).1, indented]
      · exact .comment ⟨done w, c, ps w, u ++ ['\n'], v, rfl, by simp, hkind, by simp [huv], by simp, hv⟩
      · simpa [indented] using (hall w).2
    · refine ⟨a :: l', rows', by simp [Ne.symm ha, hl'], hrows, fun w => ⟨by simp [(hall w).1], ?_⟩⟩
      simpa using (hall w).2

/-- What is left of a line where it starts, and where it has started. -/
def LineRest : Bool → List Char → Prop
  | true, cs => cs = []
  | false, cs => ∃ l, cs = l ++ ['\n'] ∧ '\n' ∉ l

namespace Laid

variable {n : Nat} {ps : Nat → List Part} {start : Bool}

theorem ne_of_braceless {t : Token} (h : t ∉ [Token.openBrace, .closeBrace]) :
    Part.token t ≠ .token .openBrace ∧ Part.token t ≠ .token .closeBrace := by
  simpa [Part.token] using h

/-- What is left of a line closes no block but those that it opens itself. -/
theorem not_closesBlock (h : Laid n start ps) (hstart : start = false) (w : Nat) :
    ¬ ClosesBlock (ps w) := by
  induction h with
  | done | line _ | closes _ => cases hstart
  | newline _ =>
    intro hps
    exact ((closesBlock_cons_iff (p := .newline) nofun nofun _).mp hps).1 (by simp [Part.chars])
  | opens _ =>
    rintro ⟨us, vs, hps, -, hline⟩
    match us with
    | [] => exact absurd (List.cons.inj hps).1 nofun
    | [_] => exact absurd (List.cons.inj (List.cons.inj hps).2).1 nofun
    | _ :: q :: us =>
      obtain ⟨rfl, -⟩ := List.cons.inj (List.cons.inj hps).2
      simp [Part.chars] at hline
  | braces _ ih =>
    rintro ⟨us, vs, hps, hus, hline⟩
    match us with
    | [] => exact absurd (List.cons.inj hps).1 nofun
    | [p] =>
      obtain ⟨rfl, -⟩ := List.cons.inj hps
      exact absurd hus (by decide)
    | p :: q :: us =>
      obtain ⟨rfl, htail⟩ := List.cons.inj hps
      obtain ⟨rfl, hrest⟩ := List.cons.inj htail
      refine ih rfl ⟨us, vs, hrest, ?_, ?_⟩
      · simpa [opened, closed] using hus
      · simp only [layout_cons, List.mem_append, not_or] at hline
        exact hline.2.2
  | space _ ih =>
    intro hps
    exact ih rfl ((closesBlock_cons_iff (p := .space) nofun nofun _).mp hps).2
  | token ht _ ih =>
    intro hps
    exact ih rfl ((closesBlock_cons_iff (ne_of_braceless ht).1 (ne_of_braceless ht).2 _).mp hps).2
  | @comment _ _ c _ ih =>
    intro hps
    exact ih rfl ((closesBlock_cons_iff (p := .comment c) nofun nofun _).mp hps).2

theorem lined (h : Laid n start ps) (hps : ∀ w x, .lexeme x ∈ ps w → x.Spelled) (done : Nat → List Part)
    (hdone : ∀ w, n + closed (done w) = opened (done w)) :
    ∃ head rows, LineRest start head ∧ Lined done ps head rows := by
  induction h generalizing done with
  | done => exact ⟨[], [], rfl, by simp, fun w => by simp, fun w => trivial⟩
  | @line n ps hin ih =>
    obtain ⟨_, rows, ⟨l, rfl, hl⟩, hlined⟩ := ih (fun w x hx => hps w x (.tail _ hx))
      (fun w => done w ++ [.indent (n * w)]) (fun w => open_append (hdone w) rfl)
    refine ⟨[], (n, [] ++ l) :: rows, rfl, hlined.row (fun w => by simp [Nat.mul_comm]) hl fun w => ?_⟩
    refine .plain rfl rfl ?_ (hdone w)
    intro hcloses
    have hps := (closesBlock_cons_iff (p := .indent (n * w)) nofun nofun _).mp hcloses
    exact hin.not_closesBlock rfl w hps.2
  | @closes n ps _ ih =>
    obtain ⟨_, rows, ⟨l, rfl, hl⟩, hlined⟩ := ih (fun w x hx => hps w x (.tail _ (.tail _ hx)))
      (fun w => done w ++ [.indent (n * w), .token .closeBrace]) (fun w => open_append (hdone w) rfl)
    refine ⟨[], (n, ['\x7d'] ++ l) :: rows, rfl, hlined.row (fun w => ?_) (by simpa using hl) fun w => ?_⟩
    · simp [Nat.mul_comm, Token.spelling]
    · exact .closing rfl rfl ⟨[.indent (n * w)], ps w, rfl, rfl, by simp⟩ (hdone w)
  | newline _ ih =>
    obtain ⟨_, rows, rfl, hlined⟩ := ih (fun w x hx => hps w x (.tail _ hx))
      (fun w => done w ++ [.newline]) (fun w => open_append (hdone w) rfl)
    exact ⟨_, rows, ⟨[], rfl, by simp⟩, hlined.inline fun _ => rfl⟩
  | opens _ ih =>
    obtain ⟨_, rows, rfl, hlined⟩ := ih (fun w x hx => hps w x (.tail _ (.tail _ hx)))
      (fun w => done w ++ [.token .openBrace, .newline]) (fun w => open_append (hdone w) rfl)
    exact ⟨_, rows, ⟨['\x7b'], rfl, by simp⟩, hlined.inline fun _ => rfl⟩
  | braces _ ih =>
    obtain ⟨_, rows, ⟨l, rfl, hl⟩, hlined⟩ := ih (fun w x hx => hps w x (.tail _ (.tail _ hx)))
      (fun w => done w ++ [.token .openBrace, .token .closeBrace]) (fun w => open_append (hdone w) rfl)
    exact ⟨_, rows, ⟨['\x7b', '\x7d'] ++ l, rfl, by simpa using hl⟩, hlined.inline fun _ => rfl⟩
  | space _ ih =>
    obtain ⟨_, rows, ⟨l, rfl, hl⟩, hlined⟩ := ih (fun w x hx => hps w x (.tail _ hx))
      (fun w => done w ++ [.space]) (fun w => open_append (hdone w) rfl)
    exact ⟨_, rows, ⟨' ' :: l, rfl, by simpa using hl⟩, hlined.inline fun _ => rfl⟩
  | @token n ps t ht _ ih =>
    have hspelled : t.Spelled := hps 0 (.token t) (List.mem_cons_self ..)
    have hbraces : n + opened [.token t] = n + closed [.token t] := by
      rw [opened_cons (ne_of_braceless ht).1, closed_cons (ne_of_braceless ht).2, opened_nil, closed_nil]
    obtain ⟨_, rows, ⟨l, rfl, hl⟩, hlined⟩ := ih (fun w x hx => hps w x (.tail _ hx))
      (fun w => done w ++ [.token t]) (fun w => open_append (hdone w) hbraces)
    refine ⟨t.spelling.toList ++ (l ++ ['\n']), rows, ⟨t.spelling.toList ++ l, by simp, ?_⟩,
      hlined.inline fun _ => by simp⟩
    simpa [hl] using hspelled.newline_not_mem
  | @comment n ps c _ ih =>
    have hspelled : c.Spelled := hps 0 (.comment c) (List.mem_cons_self ..)
    obtain ⟨_, rows, ⟨l, rfl, hl⟩, hlined⟩ := ih (fun w x hx => hps w x (.tail _ hx))
      (fun w => done w ++ [.comment c]) (fun w => open_append (hdone w) rfl)
    obtain ⟨l', rows', hl', hlined'⟩ := hlined.comment hspelled hl
    exact ⟨_, rows', ⟨l', rfl, hl'⟩, hlined'⟩

end Laid

/-! ## Printed lines -/

theorem Leveled.getElem? {w : Nat} {ps : List Part} {before : List Char} {rows : List (Nat × List Char)}
    (h : Leveled w ps before rows) {k : Nat} {row : Nat × List Char} (hk : rows[k]? = some row) :
    LevelAt ps (before ++ unlines ((rows.map (indented w)).take k)) row.1 := by
  induction rows generalizing before k with
  | nil => simp at hk
  | cons first rows ih =>
    cases k with
    | zero =>
      obtain rfl : first = row := by simpa using hk
      simpa using h.1
    | succ k => simpa using ih h.2 (by simpa using hk)

def Fragment.printedLines (f : Fragment) (w : Nat) (b : Body) : List (List Char) :=
  lines (f.printWith w b).toList

/-- The width of the printer shows only in the spaces in front of the lines, and there by their levels,
which do not depend on it. -/
theorem Fragment.lines_indented_by_level {text : String} {b : Body} (h : program.parse text = .ok b) :
    ∃ level : Nat → Nat, ∀ w,
      (program.printWith w b).toList = layout (program.parts w b) ∧
      (program.printWith w b).toList = unlines (program.printedLines w b) ∧
      (program.printedLines w b).length = (program.printedLines 0 b).length ∧
      ∀ k l, (program.printedLines 0 b)[k]? = some l →
        (program.printedLines w b)[k]? = some (List.replicate (w * level k) ' ' ++ l) ∧
        ∀ d, LevelAt (program.parts w b) (unlines ((program.printedLines w b).take k)) d ↔
          d = level k := by
  have hspelled w := program.spelled_parts w b (forms_of_parse h) (comments_spelled_of_parse h)
  obtain ⟨_, rows, rfl, hlined⟩ := (Laid.program b).lined hspelled (fun _ => []) fun _ => rfl
  have htext w : (program.printWith w b).toList = unlines (rows.map (indented w)) := by
    rw [program.printWith_eq, hlined.layout_eq, List.nil_append]
  have hlines w : program.printedLines w b = rows.map (indented w) := by
    rw [printedLines, htext, lines_unlines]
    intro l hl
    obtain ⟨row, hrow, rfl⟩ := List.mem_map.mp hl
    simpa [indented] using hlined.newline_not_mem row hrow
  refine ⟨fun k => (rows[k]?.map Prod.fst).getD 0, fun w => ⟨program.printWith_eq w b, ?_, ?_, ?_⟩⟩
  · rw [hlines, htext]
  · rw [hlines, hlines, List.length_map, List.length_map]
  · intro k l hl
    rw [hlines, List.getElem?_map, Option.map_eq_some_iff] at hl
    obtain ⟨row, hk, rfl⟩ := hl
    have hlevel : LevelAt (program.parts w b) (unlines ((rows.map (indented w)).take k)) row.1 :=
      (hlined.leveled w).getElem? hk
    simp only [hlines, List.getElem?_map, hk, Option.map_some, Option.getD_some]
    refine ⟨by simp [indented], fun d => ⟨fun hd => hd.unique hlevel, ?_⟩⟩
    rintro rfl
    exact hlevel

/-- A comment of two lines in front of a function in a block. -/
theorem Fragment.lines_indented_by_level_nested :
    ∃ b level, program.parse "\x7b /*a\n \x7d*/ function f() \x7b x \x7d \x7d" = .ok b ∧
      (List.range 7).map level = [0, 1, 0, 1, 2, 1, 0] ∧
      ∀ w, (program.printedLines w b).length = 7 ∧ ∀ k l, (program.printedLines 0 b)[k]? = some l →
        (program.printedLines w b)[k]? = some (List.replicate (w * level k) ' ' ++ l) ∧
        ∀ d, LevelAt (program.parts w b) (unlines ((program.printedLines w b).take k)) d ↔
          d = level k := by
  have h : program.parse "\x7b /*a\n \x7d*/ function f() \x7b x \x7d \x7d" =
      .ok ⟨[⟨[], .block ⟨[⟨[⟨.block, "/*a\n \x7d*/"⟩],
        .function "f" [] ⟨[⟨[], .expr (.ident "x"), []⟩], []⟩, []⟩], []⟩, []⟩], []⟩ := by cbv
  obtain ⟨level, hlevel⟩ := lines_indented_by_level h
  generalize hb : Body.mk _ _ = b at *
  have hzero : program.printedLines 0 b = ["\x7b".toList, "/*a".toList, " \x7d*/".toList,
      "function f() \x7b".toList, "x;".toList, "\x7d".toList, "\x7d".toList] := by
    subst hb
    cbv
  have hone : program.printedLines 1 b = ["\x7b".toList, " /*a".toList, " \x7d*/".toList,
      " function f() \x7b".toList, "  x;".toList, " \x7d".toList, "\x7d".toList] := by
    subst hb
    cbv
  -- the lines of width one are longer than those of width zero by their levels
  have hlong (k : Nat) (l m : List Char) (hl : (program.printedLines 0 b)[k]? = some l)
      (hm : (program.printedLines 1 b)[k]? = some m) : level k = m.length - l.length := by
    obtain ⟨-, -, -, hlines⟩ := hlevel 1
    obtain rfl := Option.some.inj ((hlines k l hl).1.symm.trans hm)
    simp
  rw [hzero, hone] at hlong
  refine ⟨b, level, h, ?_, fun w => ⟨?_, (hlevel w).2.2.2⟩⟩
  · simp [List.range_succ, hlong 0 _ _ rfl rfl, hlong 1 _ _ rfl rfl, hlong 2 _ _ rfl rfl,
      hlong 3 _ _ rfl rfl, hlong 4 _ _ rfl rfl, hlong 5 _ _ rfl rfl, hlong 6 _ _ rfl rfl]
  · rw [(hlevel w).2.2.1, hzero]
    rfl

end Reprint
