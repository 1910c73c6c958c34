import Reprint.Proofs.Lines
import Reprint.Proofs.Sketches
import Reprint.Proofs.WellFormed

/-!
# One node to a line

No label of a tree that was read holds a line feed, although its strings may hold any other character
and its comments may span lines. So the lines of an outline are its rows (`lines_outline`), and these
are the nodes of the tree in pre-order (`Fragment.dump_lists_nodes`).
-/

namespace Reprint

/-! ## Labels -/

/-- The names and literals of a label are lexemes. -/
def Label.Spelled : Label → Prop
  | .function name params => IsIdentifier name ∧ ∀ p ∈ params, IsIdentifier p
  | .declarator name | .ident name | .assign name => IsIdentifier name
  | .number n => IsNumeral n.raw.toList
  | .string raw => IsQuoted raw.toList
  | _ => True

/-- The first word of a label. -/
def Label.key : Label → String
  | .program => "Program"
  | .block => "BlockStatement"
  | .empty => "EmptyStatement"
  | .function _ _ => "FunctionDeclaration"
  | .var => "VariableDeclaration"
  | .declarator _ => "VariableDeclarator"
  | .exprStmt => "ExpressionStatement"
  | .number _ => "NumericLiteral"
  | .bool _ => "BooleanLiteral"
  | .null => "NullLiteral"
  | .string _ => "StringLiteral"
  | .ident _ => "Identifier"
  | .this => "ThisExpression"
  | .paren => "ParenthesizedExpression"
  | .assign _ => "AssignmentExpression"
  | .comment role _ => role.text

/-- What follows the first word, with the text of a comment as it stands. -/
def Label.detail : Label → List Char
  | .function name params =>
    ' ' :: (name.toList ++ ' ' :: '(' :: ([',', ' '].intercalate (params.map String.toList) ++ [')']))
  | .declarator name | .ident name | .assign name => ' ' :: name.toList
  | .number n => ' ' :: n.raw.toList
  | .bool b => ' ' :: (Token.bool b).spelling.toList
  | .string raw => ' ' :: raw.toList
  | .comment _ c => ' ' :: '(' :: (c.kind.text.toList ++ ')' :: ' ' :: c.text.toList)
  | .program | .block | .empty | .var | .exprStmt | .null | .this | .paren => []

def Label.relabel (g : Comment → Comment) : Label → Label
  | .comment role c => .comment role (g c)
  | l => l

/-- The text of a label is its first word and the detail of what it says on one line. -/
theorem Label.text_eq (l : Label) :
    l.text.toList = l.key.toList ++ (l.relabel Comment.flattened).detail := by
  cases l with
  | function name params =>
    change ("FunctionDeclaration " ++ name ++ " (" ++ ", ".intercalate params ++ ")").toList = _
    simp [Label.key, Label.relabel, Label.detail]
  | declarator name =>
    change ("VariableDeclarator " ++ name).toList = _
    simp [Label.key, Label.relabel, Label.detail]
  | number n =>
    change ("NumericLiteral " ++ n.raw).toList = _
    simp [Label.key, Label.relabel, Label.detail]
  | bool b => cases b <;> decide
  | string raw =>
    change ("StringLiteral " ++ raw).toList = _
    simp [Label.key, Label.relabel, Label.detail]
  | ident name =>
    change ("Identifier " ++ name).toList = _
    simp [Label.key, Label.relabel, Label.detail]
  | assign target =>
    change ("AssignmentExpression " ++ target).toList = _
    simp [Label.key, Label.relabel, Label.detail]
  | comment role c =>
    change (role.text ++ " (" ++ c.kind.text ++ ") " ++ c.flat).toList = _
    simp [Label.key, Label.relabel, Label.detail, ← c.text_flattened, Comment.flattened]
  | _ => decide

theorem Label.key_class (l : Label) :
    l.key.toList ≠ [] ∧ ' ' ∉ l.key.toList ∧ '\n' ∉ l.key.toList := by
  cases l with
  | comment role c => cases role <;> simp [Label.key, Role.text]
  | _ => simp [Label.key]

theorem Label.head_text (l : Label) : l.text.toList.head? ≠ some ' ' := by
  obtain ⟨hne, hspace, -⟩ := l.key_class
  obtain ⟨c, cs, hkey⟩ := List.exists_cons_of_ne_nil hne
  rw [hkey] at hspace
  have hc : c ≠ ' ' := fun hc => hspace (hc ▸ List.mem_cons_self ..)
  simpa [l.text_eq, hkey] using hc

theorem newline_not_mem_params {params : List String} (h : ∀ p ∈ params, IsIdentifier p) :
    '\n' ∉ [',', ' '].intercalate (params.map String.toList) := by
  intro hmem
  rcases mem_of_mem_intercalate hmem with hmem | ⟨l, hl, hmem⟩
  · simp at hmem
  · obtain ⟨p, hp, rfl⟩ := List.mem_map.mp hl
    exact (h p hp).not_mem (by decide) hmem

theorem newline_not_mem_detail {l : Label} (h : l.Spelled) :
    '\n' ∉ (l.relabel Comment.flattened).detail := by
  cases l with
  | function name params =>
    have hname := h.1.not_mem (c := '\n') (by decide)
    have hparams := newline_not_mem_params h.2
    simp [Label.relabel, Label.detail, hname, hparams]
  | declarator name => simpa [Label.relabel, Label.detail] using IsIdentifier.not_mem h (by decide)
  | number n => simpa [Label.relabel, Label.detail] using IsNumeral.newline_not_mem h
  | bool b => cases b <;> decide
  | string raw => simpa [Label.relabel, Label.detail] using IsQuoted.newline_not_mem h
  | ident name => simpa [Label.relabel, Label.detail] using IsIdentifier.not_mem h (by decide)
  | assign target => simpa [Label.relabel, Label.detail] using IsIdentifier.not_mem h (by decide)
  | comment role c =>
    have hflat := newline_not_mem_flatten c.text
    have hkind : '\n' ∉ c.flattened.kind.text.toList := by
      cases c.flattened.kind <;> simp [CommentKind.text]
    simp [Label.relabel, Label.detail, c.text_flattened, Comment.flat, hflat, hkind]
  | _ => simp [Label.relabel, Label.detail]

theorem Label.Spelled.newline_not_mem {l : Label} (h : l.Spelled) : '\n' ∉ l.text.toList := by
  rw [l.text_eq, List.mem_append]
  rintro (hmem | hmem)
  · exact l.key_class.2.2 hmem
  · exact newline_not_mem_detail h hmem

/-! ## Rows -/

def Row.line (r : Row) : List Char := List.replicate (2 * r.depth) ' ' ++ r.label.text.toList

theorem outline_eq (rows : List Row) : (outline rows).toList = unlines (rows.map Row.line) := by
  rw [outline, String.toList_join]
  induction rows with
  | nil => rfl
  | cons r rows ih =>
    rw [List.map_cons, List.flatMap_cons, ih, List.map_cons, unlines_cons]
    simp [Row.text, Row.line]

theorem lines_outline {rows : List Row} (h : ∀ r ∈ rows, r.label.Spelled) :
    lines (outline rows).toList = rows.map Row.line := by
  rw [outline_eq]
  apply lines_unlines
  intro l hl
  obtain ⟨r, hr, rfl⟩ := List.mem_map.mp hl
  simp [Row.line, (h r hr).newline_not_mem]

theorem Row.cut_line (r : Row) : r.line.takeWhile (· = ' ') = List.replicate (2 * r.depth) ' ' ∧
    r.line.dropWhile (· = ' ') = r.label.text.toList := by
  have hspaces : ∀ c ∈ List.replicate (2 * r.depth) ' ', decide (c = ' ') = true := by
    intro c hc
    simp [List.eq_of_mem_replicate hc]
  have htext : ∀ c ∈ r.label.text.toList.head?, decide (c = ' ') = false := by
    intro c hc
    have hne : c ≠ ' ' := by
      rintro rfl
      exact r.label.head_text hc
    simp [hne]
  exact ⟨takeWhile_append_of_head hspaces htext, dropWhile_append_of_head hspaces htext⟩

/-! ## Rows of trees -/

theorem spelled_commentRows (role : Role) (d : Nat) (cs : List Comment) :
    ∀ r ∈ commentRows role d cs, r.label.Spelled := by
  simp [commentRows, Label.Spelled]

theorem Expr.spelled_rows {e : Expr} (h : e.Spelled) (d : Nat) : ∀ r ∈ e.rows d, r.label.Spelled := by
  induction e generalizing d with
  | paren inner ih => simpa [Expr.rows, Label.Spelled] using ih h (d + 1)
  | assign target value ih => simpa [Expr.rows, Label.Spelled, h.1] using ih h.2 (d + 1)
  | number n => simpa [Expr.rows, Label.Spelled, Expr.Spelled] using h
  | string raw => simpa [Expr.rows, Label.Spelled, Expr.Spelled] using h
  | ident name => simpa [Expr.rows, Label.Spelled, Expr.Spelled] using h
  | _ => simp [Expr.rows, Label.Spelled]

theorem Declarator.spelled_rows {decl : Declarator} (h : decl.Spelled) (d : Nat) :
    ∀ r ∈ decl.rows d, r.label.Spelled := by
  obtain ⟨name, init⟩ := decl
  cases init with
  | none => simpa [Declarator.rows, Label.Spelled] using h.1
  | some e =>
    have he := Expr.spelled_rows (h.2 e rfl) (d + 1)
    simpa [Declarator.rows, Label.Spelled, show IsIdentifier name from h.1] using he

mutual
theorem Stmt.spelled_rows (d : Nat) : (s : Stmt) → (∀ s' ∈ s.within, s'.form.Spelled) →
    ∀ r ∈ s.rows d, r.label.Spelled
  | ⟨leading, f, trailing⟩, h => by
    rw [Stmt.within] at h
    obtain ⟨hf, hin⟩ := List.forall_mem_cons.mp h
    rw [Stmt.rows, List.forall_mem_append, List.forall_mem_append]
    exact ⟨⟨spelled_commentRows _ d leading, f.spelled_rows d hf hin⟩, spelled_commentRows _ d trailing⟩
theorem Form.spelled_rows (d : Nat) : (f : Form) → f.Spelled → (∀ s ∈ f.within, s.form.Spelled) →
    ∀ r ∈ f.rows d, r.label.Spelled
  | .block b, _, h => by
    rw [Form.within] at h
    rw [Form.rows]
    exact b.spelled_blockRows d h
  | .empty, _, _ => by simp [Form.rows, Label.Spelled]
  | .function _ _ b, hf, h => by
    rw [Form.within] at h
    rw [Form.rows]
    exact List.forall_mem_cons.mpr ⟨hf, b.spelled_blockRows (d + 1) h⟩
  | .var ds, hf, _ => by
    rw [Form.rows]
    refine List.forall_mem_cons.mpr ⟨trivial, ?_⟩
    intro r hr
    obtain ⟨decl, hdecl, hr⟩ := List.mem_flatMap.mp hr
    exact Declarator.spelled_rows (hf.2 decl hdecl) (d + 1) r hr
  | .expr e, hf, _ => by
    rw [Form.rows]
    exact List.forall_mem_cons.mpr ⟨trivial, Expr.spelled_rows hf (d + 1)⟩
theorem Body.spelled_blockRows (d : Nat) : (b : Body) → (∀ s ∈ b.within, s.form.Spelled) →
    ∀ r ∈ b.blockRows d, r.label.Spelled
  | ⟨ss, dangling⟩, h => by
    rw [Body.within] at h
    rw [Body.blockRows]
    refine List.forall_mem_cons.mpr ⟨trivial, List.forall_mem_append.mpr ⟨?_, ?_⟩⟩
    · exact spelled_stmtRows (d + 1) ss h
    · exact spelled_commentRows _ (d + 1) dangling
theorem spelled_stmtRows (d : Nat) : (ss : List Stmt) → (∀ s ∈ stmtsWithin ss, s.form.Spelled) →
    ∀ r ∈ stmtRows d ss, r.label.Spelled
  | [], _ => by simp [stmtRows]
  | s :: ss, h => by
    rw [stmtsWithin, List.forall_mem_append] at h
    rw [stmtRows, List.forall_mem_append]
    exact ⟨s.spelled_rows d h.1, spelled_stmtRows d ss h.2⟩
end

namespace Fragment

variable {f : Fragment} {text : String} {b : Body}

theorem spelled_rows (h : f.parse text = .ok b) : ∀ r ∈ f.rows b, r.label.Spelled := by
  have hforms := forms_of_parse h
  cases f with
  | program =>
    obtain ⟨ss, dangling⟩ := b
    rw [Body.within] at hforms
    refine List.forall_mem_cons.mpr ⟨trivial, List.forall_mem_append.mpr ⟨?_, ?_⟩⟩
    · exact spelled_stmtRows 1 ss hforms
    · exact spelled_commentRows _ 1 dangling
  | function => exact b.spelled_blockRows 0 hforms

end Fragment

/-! ## Lines and nodes -/

/-- The line shows a node of level `d` with this label: it starts with two spaces to a level and no
more, and behind them stands the text of the label. A comment is called by the list it is in, and its
text is put on one line. -/
structure Label.OnLine (l : Label) (d : Nat) (line : List Char) : Prop where
  indent : line.takeWhile (· = ' ') = List.replicate (2 * d) ' '
  text : line = List.replicate (2 * d) ' ' ++ l.text.toList
  leading : ∀ c, l = .comment .leading c → line.dropWhile (· = ' ') =
    ("LeadingComment" ++ " (" ++ c.kind.text ++ ") " ++ c.flattened.text).toList
  trailing : ∀ c, l = .comment .trailing c → line.dropWhile (· = ' ') =
    ("TrailingComment" ++ " (" ++ c.kind.text ++ ") " ++ c.flattened.text).toList
  dangling : ∀ c, l = .comment .dangling c → line.dropWhile (· = ' ') =
    ("DanglingComment" ++ " (" ++ c.kind.text ++ ") " ++ c.flattened.text).toList

theorem Row.onLine (r : Row) : r.label.OnLine r.depth r.line := by
  obtain ⟨hindent, htext⟩ := r.cut_line
  have hcomment (role : Role) (c : Comment) (hl : r.label = .comment role c) :
      r.line.dropWhile (· = ' ') =
        (role.text ++ " (" ++ c.kind.text ++ ") " ++ c.flattened.text).toList := by
    rw [htext, hl, c.text_flattened]
    rfl
  exact ⟨hindent, rfl, hcomment .leading, hcomment .trailing, hcomment .dangling⟩

/-- The lines of an outline are the nodes of the tree one by one: their addresses are all there are, they
ascend from line to line, and each is as long as its line is indented. -/
theorem Fragment.dump_lists_nodes {f : Fragment} {text : String} {b : Body} (h : f.parse text = .ok b) :
    (f.dump b).toList = unlines (lines (f.dump b).toList) ∧ lines (f.dump b).toList ≠ [] ∧
    (∀ line ∈ lines (f.dump b).toList, '\n' ∉ line) ∧
    (f.sketch b).addresses.Pairwise (· < ·) ∧
    (∀ a, a ∈ (f.sketch b).addresses ↔ ∃ t, (f.sketch b).at? a = some t) ∧
    List.Forall₂ (fun a line => ∃ t, (f.sketch b).at? a = some t ∧ t.label.OnLine a.length line)
      (f.sketch b).addresses (lines (f.dump b).toList) := by
  have hlines : lines (f.dump b).toList = ((f.sketch b).rows 0).map Row.line := by
    rw [f.dump_eq, lines_outline (spelled_rows h), f.rows_eq]
  have htext : (f.dump b).toList = unlines (((f.sketch b).rows 0).map Row.line) := by
    rw [f.dump_eq, outline_eq, f.rows_eq]
  refine ⟨?_, ?_, fun _ => not_mem_of_mem_lines, (f.sketch b).addresses_ascend,
    fun a => Sketch.mem_addresses, ?_⟩
  · rw [hlines]
    exact htext
  · rw [hlines, sketch, Body.sketch_eq, Sketch.rows]
    simp
  · rw [hlines, List.forall₂_map_right_iff]
    refine ((f.sketch b).rows_addresses 0).imp ?_
    rintro a r ⟨t, ht, rfl⟩
    have hline := Row.onLine ⟨0 + a.length, t.label⟩
    rw [Nat.zero_add] at hline ⊢
    exact ⟨t, ht, hline⟩

/-- A function with a comment in front of it, one behind it, and one of two lines that is all there is in
its body. -/
theorem Fragment.dump_lists_nodes_nested :
    ∃ b, program.parse "//l\nfunction f(a, b) \x7b /*x\n y*/ \x7d //t" = .ok b ∧
      (program.sketch b).addresses = [[], [0], [1], [1, 0], [1, 0, 0], [2]] ∧
      (∃ t, (program.sketch b).at? [1, 0, 0] = some t ∧ t.label = .comment .dangling ⟨.block, "/*x\n y*/"⟩) ∧
      program.dump b = String.join [
        "Program\n",
        "  LeadingComment (line) //l\n",
        "  FunctionDeclaration f (a, b)\n",
        "    BlockStatement\n",
        "      DanglingComment (block) /*x y*/\n",
        "  TrailingComment (line) //t\n"] ∧
      List.Forall₂ (fun a line => ∃ t, (program.sketch b).at? a = some t ∧ t.label.OnLine a.length line)
        [[], [0], [1], [1, 0], [1, 0, 0], [2]] (lines (program.dump b).toList) := by
  have h : program.parse "//l\nfunction f(a, b) \x7b /*x\n y*/ \x7d //t" = .ok ⟨[⟨[⟨.line, "//l"⟩],
      .function "f" ["a", "b"] ⟨[], [⟨.block, "/*x\n y*/"⟩]⟩, [⟨.line, "//t"⟩]⟩], []⟩ := by cbv
  obtain ⟨-, -, -, -, -, hshown⟩ := dump_lists_nodes h
  exact ⟨_, h, rfl, ⟨_, rfl, rfl⟩, by decide +kernel, hshown⟩

end Reprint
