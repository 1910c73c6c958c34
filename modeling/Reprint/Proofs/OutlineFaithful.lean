import Reprint.Proofs.Carriage
import Reprint.Proofs.OutlineLines

/-!
# Outlines tell trees apart

From the outline of a tree that was read the tree can be recovered but for the line breaks in its
comments: two outlines are the same text exactly when the trees are the same once every comment is put
on one line (`Fragment.dump_eq_iff_flattened`). A line tells the level by its spaces, the kind of node
by the first word behind them, and the names and the text of the node by the rest; the levels then tell
how the nodes nest.
-/

namespace Reprint

/-! ## Words and their separators -/

/-- Two texts that are equal are equal up to the first `stop` and behind it. -/
theorem append_inj_of_stop {stop : Char} {u v r s : List Char} (h : u ++ r = v ++ s) (hu : stop ∉ u)
    (hv : stop ∉ v) (hr : ∀ c ∈ r.head?, c = stop) (hs : ∀ c ∈ s.head?, c = stop) : u = v ∧ r = s := by
  have hword {w : List Char} (hw : stop ∉ w) : ∀ c ∈ w, (fun c => decide (c ≠ stop)) c = true := by
    intro c hc
    have hne : c ≠ stop := fun hstop => hw (hstop ▸ hc)
    simpa using hne
  have hhead {w : List Char} (hw : ∀ c ∈ w.head?, c = stop) :
      ∀ c ∈ w.head?, (fun c => decide (c ≠ stop)) c = false := by
    intro c hc
    simp [hw c hc]
  have huv : u = v := by
    rw [← takeWhile_append_of_head (hword hu) (hhead hr), h,
      takeWhile_append_of_head (hword hv) (hhead hs)]
  subst huv
  exact ⟨rfl, List.append_cancel_left h⟩

theorem intercalate_cons_eq {α : Type} (sep l : List α) (ls : List (List α)) :
    sep.intercalate (l :: ls) = l ++ ls.flatMap (sep ++ ·) := by
  induction ls generalizing l with
  | nil => simp
  | cons l' ls ih => simp [List.intercalate_cons_cons, ih]

theorem head_flatMap_comma (ls : List (List Char)) :
    ∀ c ∈ (ls.flatMap ([',', ' '] ++ ·)).head?, c = ',' := by
  cases ls <;> simp

theorem flatMap_comma_inj {ls ls' : List (List Char)} (h : ∀ l ∈ ls, ',' ∉ l) (h' : ∀ l ∈ ls', ',' ∉ l)
    (heq : ls.flatMap ([',', ' '] ++ ·) = ls'.flatMap ([',', ' '] ++ ·)) : ls = ls' := by
  induction ls generalizing ls' with
  | nil =>
    cases ls' with
    | nil => rfl
    | cons l' ls' => simp at heq
  | cons l ls ih =>
    cases ls' with
    | nil => simp at heq
    | cons l' ls' =>
      obtain ⟨hl, hls⟩ := List.forall_mem_cons.mp h
      obtain ⟨hl', hls'⟩ := List.forall_mem_cons.mp h'
      rw [List.flatMap_cons, List.flatMap_cons, List.append_assoc, List.append_assoc,
        List.append_right_inj] at heq
      obtain ⟨rfl, hrest⟩ := append_inj_of_stop heq hl hl' (head_flatMap_comma ls) (head_flatMap_comma ls')
      rw [ih hls hls' hrest]

/-- Words can be told from their text with commas between them. -/
theorem intercalate_comma_inj {ls ls' : List (List Char)} (h : ∀ l ∈ ls, l ≠ [] ∧ ',' ∉ l)
    (h' : ∀ l ∈ ls', l ≠ [] ∧ ',' ∉ l)
    (heq : [',', ' '].intercalate ls = [',', ' '].intercalate ls') : ls = ls' := by
  cases ls with
  | nil =>
    cases ls' with
    | nil => rfl
    | cons l' ls' => simp [intercalate_cons_eq, (h' l' (by simp)).1] at heq
  | cons l ls =>
    cases ls' with
    | nil => simp [intercalate_cons_eq, (h l (by simp)).1] at heq
    | cons l' ls' =>
      obtain ⟨hl, hls⟩ := List.forall_mem_cons.mp h
      obtain ⟨hl', hls'⟩ := List.forall_mem_cons.mp h'
      rw [intercalate_cons_eq, intercalate_cons_eq] at heq
      obtain ⟨rfl, hrest⟩ := append_inj_of_stop heq hl.2 hl'.2 (head_flatMap_comma ls)
        (head_flatMap_comma ls')
      rw [flatMap_comma_inj (fun m hm => (hls m hm).2) (fun m hm => (hls' m hm).2) hrest]

/-! ## Labels -/

theorem Label.key_relabel (g : Comment → Comment) (l : Label) : (l.relabel g).key = l.key := by
  cases l <;> rfl

theorem Label.spelled_relabel {l : Label} (h : l.Spelled) (g : Comment → Comment) :
    (l.relabel g).Spelled := by
  cases l <;> exact h

theorem Label.head_detail (l : Label) : ∀ c ∈ l.detail.head?, c = ' ' := by
  cases l <;> simp [Label.detail]

theorem IsIdentifier.commaFree {name : String} (h : IsIdentifier name) :
    name.toList ≠ [] ∧ ',' ∉ name.toList := by
  refine ⟨?_, h.not_mem (by decide)⟩
  obtain ⟨⟨c, cs, hname, -⟩, -⟩ := h
  simp [hname]

theorem Label.function_inj {name name' : String} {params params' : List String}
    (h : (Label.function name params).Spelled) (h' : (Label.function name' params').Spelled)
    (hdetail : (Label.function name params).detail = (Label.function name' params').detail) :
    name = name' ∧ params = params' := by
  rw [Label.detail, Label.detail, List.cons.injEq] at hdetail
  have hspace : isIdentPart ' ' = false := by decide
  obtain ⟨hname, hrest⟩ := append_inj_of_stop hdetail.2 (h.1.not_mem hspace) (h'.1.not_mem hspace)
    (by simp) (by simp)
  have hparams := List.append_cancel_right (List.cons.inj (List.cons.inj hrest).2).2
  have hwords {ps : List String} (hps : ∀ p ∈ ps, IsIdentifier p) :
      ∀ l ∈ ps.map String.toList, l ≠ [] ∧ ',' ∉ l := by
    intro l hl
    obtain ⟨p, hp, rfl⟩ := List.mem_map.mp hl
    exact (hps p hp).commaFree
  have hmap := intercalate_comma_inj (hwords h.2) (hwords h'.2) hparams
  exact ⟨String.toList_inj.mp hname, List.map_injective_iff.mpr (fun _ _ => String.toList_inj.mp) hmap⟩

theorem Label.key_ne_role {l : Label} (h : ∀ role c, l ≠ .comment role c) (role : Role) :
    l.key ≠ role.text := by
  cases l with
  | comment role' c => exact absurd rfl (h role' c)
  | _ => cases role <;> simp [Label.key, Role.text]

theorem Role.text_inj {role role' : Role} (h : role.text = role'.text) : role = role' := by
  cases role <;> cases role' <;> simp [Role.text] at h ⊢

theorem Label.comment_inj {role role' : Role} {c c' : Comment}
    (h : (Label.comment role c).detail = (Label.comment role' c').detail) : c = c' := by
  obtain ⟨kind, text⟩ := c
  obtain ⟨kind', text'⟩ := c'
  cases kind <;> cases kind' <;> simp_all [Label.detail, CommentKind.text, String.toList_inj]

theorem Label.eq_of_key_detail {l l' : Label} (h : l.Spelled) (h' : l'.Spelled) (hkey : l.key = l'.key)
    (hdetail : l.detail = l'.detail) : l = l' := by
  cases l with
  | comment role c =>
    cases l' with
    | comment role' c' => rw [Role.text_inj hkey, Label.comment_inj hdetail]
    | _ => exact absurd hkey.symm (Label.key_ne_role (by simp) role)
  | function name params =>
    cases l' with
    | function name' params' =>
      obtain ⟨rfl, rfl⟩ := Label.function_inj h h' hdetail
      rfl
    | comment role' c' => exact absurd hkey (Label.key_ne_role (by simp) role')
    | _ => simp [Label.key] at hkey
  | bool b =>
    cases l' with
    | bool b' => cases b <;> cases b' <;> simp [Label.detail, Token.spelling] at hdetail ⊢
    | comment role' c' => exact absurd hkey (Label.key_ne_role (by simp) role')
    | _ => simp [Label.key] at hkey
  | number n =>
    cases l' with
    | number n' =>
      obtain ⟨raw⟩ := n
      obtain ⟨raw'⟩ := n'
      simpa [Label.detail, String.toList_inj] using hdetail
    | comment role' c' => exact absurd hkey (Label.key_ne_role (by simp) role')
    | _ => simp [Label.key] at hkey
  | _ =>
    cases l' with
    | comment role' c' => exact absurd hkey (Label.key_ne_role (by simp) role')
    | _ => simp_all [Label.key, Label.detail, String.toList_inj]

/-- Labels of the same text are the same on one line. -/
theorem Label.text_eq_iff {l l' : Label} (h : l.Spelled) (h' : l'.Spelled) :
    l.text.toList = l'.text.toList ↔ l.relabel Comment.flattened = l'.relabel Comment.flattened := by
  rw [l.text_eq, l'.text_eq]
  constructor
  · intro htext
    obtain ⟨hkey, hdetail⟩ := append_inj_of_stop htext l.key_class.2.1 l'.key_class.2.1
      (Label.head_detail _) (Label.head_detail _)
    refine Label.eq_of_key_detail (Label.spelled_relabel h _) (Label.spelled_relabel h' _) ?_ hdetail
    rw [Label.key_relabel, Label.key_relabel]
    exact String.toList_inj.mp hkey
  · intro heq
    rw [← l.key_relabel Comment.flattened, ← l'.key_relabel Comment.flattened, heq]

/-! ## Rows -/

def Row.relabel (g : Comment → Comment) (r : Row) : Row := ⟨r.depth, r.label.relabel g⟩

theorem Row.line_eq_iff {r r' : Row} (h : r.label.Spelled) (h' : r'.label.Spelled) :
    r.line = r'.line ↔ r.relabel Comment.flattened = r'.relabel Comment.flattened := by
  simp only [Row.relabel, Row.mk.injEq, ← Label.text_eq_iff h h']
  constructor
  · intro hline
    have hspaces := congrArg (fun l => (List.takeWhile (· = ' ') l).length) hline
    simp only [r.cut_line.1, r'.cut_line.1, List.length_replicate] at hspaces
    have hdepth : r.depth = r'.depth := by omega
    rw [Row.line, Row.line, hdepth] at hline
    exact ⟨hdepth, List.append_cancel_left hline⟩
  · rintro ⟨hdepth, htext⟩
    rw [Row.line, Row.line, hdepth, htext]

theorem outline_eq_iff {rows rows' : List Row} (h : ∀ r ∈ rows, r.label.Spelled)
    (h' : ∀ r ∈ rows', r.label.Spelled) : outline rows = outline rows' ↔
      rows.map (Row.relabel Comment.flattened) = rows'.map (Row.relabel Comment.flattened) := by
  have hlines : outline rows = outline rows' ↔ rows.map Row.line = rows'.map Row.line := by
    constructor
    · intro heq
      rw [← lines_outline h, ← lines_outline h', heq]
    · intro heq
      apply String.toList_inj.mp
      rw [outline_eq, outline_eq, heq]
  rw [hlines]
  clear hlines
  induction rows generalizing rows' with
  | nil => cases rows' <;> simp
  | cons r rows ih =>
    cases rows' with
    | nil => simp
    | cons r' rows' =>
      obtain ⟨hr, hrows⟩ := List.forall_mem_cons.mp h
      obtain ⟨hr', hrows'⟩ := List.forall_mem_cons.mp h'
      simp only [List.map_cons, List.cons.injEq]
      exact and_congr (Row.line_eq_iff hr hr') (ih hrows hrows')

/-! ## Relabelled trees -/

theorem commentRows_relabel (g : Comment → Comment) (role : Role) (d : Nat) (cs : List Comment) :
    commentRows role d (cs.map g) = (commentRows role d cs).map (Row.relabel g) := by
  simp [commentRows, Row.relabel, Label.relabel]

theorem Expr.rows_relabel (g : Comment → Comment) (d : Nat) (e : Expr) :
    (e.rows d).map (Row.relabel g) = e.rows d := by
  induction e generalizing d with
  | paren inner ih => simp [Expr.rows, Row.relabel, Label.relabel, ih]
  | assign target value ih => simp [Expr.rows, Row.relabel, Label.relabel, ih]
  | _ => rfl

theorem Declarator.rows_relabel (g : Comment → Comment) (d : Nat) (decl : Declarator) :
    (decl.rows d).map (Row.relabel g) = decl.rows d := by
  unfold Declarator.rows
  cases decl.init with
  | none => rfl
  | some e => simp [Row.relabel, Label.relabel, e.rows_relabel]

mutual
theorem Stmt.rows_relabel (g : Comment → Comment) (d : Nat) : (s : Stmt) →
    (s.relabel g).rows d = (s.rows d).map (Row.relabel g)
  | ⟨leading, f, trailing⟩ => by
    simp [Stmt.relabel, Stmt.rows, commentRows_relabel, f.rows_relabel g d]
theorem Form.rows_relabel (g : Comment → Comment) (d : Nat) : (f : Form) →
    (f.relabel g).rows d = (f.rows d).map (Row.relabel g)
  | .block b => by rw [Form.relabel, Form.rows, Form.rows, b.rows_relabel g d]
  | .empty => by simp [Form.relabel, Form.rows, Row.relabel, Label.relabel]
  | .function _ _ b => by
    simp [Form.relabel, Form.rows, b.rows_relabel g (d + 1), Row.relabel, Label.relabel]
  | .var ds => by
    simp [Form.relabel, Form.rows, List.map_flatMap, Declarator.rows_relabel, Row.relabel, Label.relabel]
  | .expr e => by simp [Form.relabel, Form.rows, Expr.rows_relabel, Row.relabel, Label.relabel]
theorem Body.rows_relabel (g : Comment → Comment) (d : Nat) : (b : Body) →
    (b.relabel g).blockRows d = (b.blockRows d).map (Row.relabel g)
  | ⟨ss, dangling⟩ => by
    simp [Body.relabel, Body.blockRows, stmtRows_relabel g (d + 1) ss, commentRows_relabel, Row.relabel,
      Label.relabel]
theorem stmtRows_relabel (g : Comment → Comment) (d : Nat) : (ss : List Stmt) →
    stmtRows d (stmtsRelabel g ss) = (stmtRows d ss).map (Row.relabel g)
  | [] => by simp [stmtsRelabel, stmtRows]
  | s :: ss => by simp [stmtsRelabel, stmtRows, s.rows_relabel g d, stmtRows_relabel g d ss]
end

namespace Fragment

theorem rows_relabel (f : Fragment) (g : Comment → Comment) (b : Body) :
    f.rows (b.relabel g) = (f.rows b).map (Row.relabel g) := by
  cases f with
  | program =>
    obtain ⟨ss, dangling⟩ := b
    simp [rows, Body.programRows, Body.relabel, stmtRows_relabel, commentRows_relabel, Row.relabel,
      Label.relabel]
  | function => exact b.rows_relabel g 0

theorem rows_inj (f : Fragment) {b b' : Body} (h : f.rows b = f.rows b') : b = b' := by
  rw [f.rows_eq, f.rows_eq, ← List.append_nil (Sketch.rows ..),
    ← List.append_nil ((f.sketch b').rows 0)] at h
  have hsketch := Sketch.rows_inj _ _ h (by simp [EndsLevel]) (by simp [EndsLevel])
  exact b.sketch_inj b' f.root hsketch.1

/-- Outlines are the same exactly when the trees are, with every comment put on one line. -/
theorem dump_eq_iff_flattened {f : Fragment} {text text' : String} {b b' : Body} (h : f.parse text = .ok b)
    (h' : f.parse text' = .ok b') :
    f.dump b = f.dump b' ↔ b.relabel Comment.flattened = b'.relabel Comment.flattened := by
  rw [f.dump_eq, f.dump_eq, outline_eq_iff (spelled_rows h) (spelled_rows h'), ← f.rows_relabel,
    ← f.rows_relabel]
  constructor
  · exact f.rows_inj
  · intro heq
    rw [heq]

/-- Two comments end their lines in different ways, and what follows is indented differently. The third
is not broken where they are. -/
theorem dump_eq_iff_flattened_crlf :
    ∃ b b' b'', program.parse "/*a\r\n b*/ x = 'y'" = .ok b ∧
      program.parse "/*a\n\tb*/ x = 'y'" = .ok b' ∧ program.parse "/*ab*/ x = 'y'" = .ok b'' ∧
      b ≠ b' ∧ program.dump b = program.dump b' ∧ program.dump b ≠ program.dump b'' := by
  have h : program.parse "/*a\r\n b*/ x = 'y'" =
      .ok ⟨[⟨[⟨.block, "/*a\r\n b*/"⟩], .expr (.assign "x" (.string "'y'")), []⟩], []⟩ := by cbv
  have h' : program.parse "/*a\n\tb*/ x = 'y'" =
      .ok ⟨[⟨[⟨.block, "/*a\n\tb*/"⟩], .expr (.assign "x" (.string "'y'")), []⟩], []⟩ := by cbv
  have h'' : program.parse "/*ab*/ x = 'y'" =
      .ok ⟨[⟨[⟨.block, "/*ab*/"⟩], .expr (.assign "x" (.string "'y'")), []⟩], []⟩ := by cbv
  refine ⟨_, _, _, h, h', h'', by simp, (dump_eq_iff_flattened h h').mpr (by cbv), ?_⟩
  rw [Ne, dump_eq_iff_flattened h h'']
  decide +kernel

end Fragment

end Reprint
