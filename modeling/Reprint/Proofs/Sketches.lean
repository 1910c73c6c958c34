import Mathlib
import Reprint.Proofs.OutlineRows

/-!
# Trees of labels

A sketch is the tree of the nodes that an outline shows: a body, a statement that is no block, a
declarator, an expression or a comment, each with its parts in order. The comments of a statement stand
beside it, and those of a body are its last parts. The rows of an outline are the nodes of the sketch in
pre-order (`Fragment.rows_eq`): the addresses of nodes, which are paths of indices from the root,
ascend from row to row, and the length of an address is the depth of its row (`Sketch.rows_addresses`).
The rows determine the sketch (`Sketch.rows_inj`), and the sketch determines the tree
(`Body.sketch_inj`).
-/

namespace Reprint

inductive Sketch where
  | node (label : Label) (parts : List Sketch)

namespace Sketch

def label : Sketch → Label
  | node l _ => l

def parts : Sketch → List Sketch
  | node _ ts => ts

/-- The node at the end of a path of indices. -/
def at? (t : Sketch) : List Nat → Option Sketch
  | [] => some t
  | i :: a => t.parts[i]?.bind fun u => u.at? a

end Sketch

mutual
/-- The nodes in pre-order, the root at level `d`. -/
def Sketch.rows (d : Nat) : Sketch → List Row
  | .node l ts => ⟨d, l⟩ :: forestRows (d + 1) ts
def forestRows (d : Nat) : List Sketch → List Row
  | [] => []
  | t :: ts => t.rows d ++ forestRows d ts
end

mutual
def Sketch.addresses : Sketch → List (List Nat)
  | .node _ ts => [] :: forestAddresses 0 ts
/-- The addresses in a forest whose first tree is number `i`. -/
def forestAddresses (i : Nat) : List Sketch → List (List Nat)
  | [] => []
  | t :: ts => t.addresses.map (i :: ·) ++ forestAddresses (i + 1) ts
end

/-! ## Sketches of trees -/

def commentSketches (role : Role) (cs : List Comment) : List Sketch :=
  cs.map fun c => .node (.comment role c) []

def Expr.sketch : Expr → Sketch
  | .number n => .node (.number n) []
  | .bool b => .node (.bool b) []
  | .null => .node .null []
  | .string raw => .node (.string raw) []
  | .ident name => .node (.ident name) []
  | .this => .node .this []
  | .paren inner => .node .paren [inner.sketch]
  | .assign target value => .node (.assign target) [value.sketch]

def Declarator.sketch (d : Declarator) : Sketch :=
  .node (.declarator d.name) (d.init.toList.map Expr.sketch)

mutual
def Stmt.sketches : Stmt → List Sketch
  | ⟨leading, f, trailing⟩ =>
    commentSketches .leading leading ++ f.sketch :: commentSketches .trailing trailing
def Form.sketch : Form → Sketch
  | .block b => b.sketch .block
  | .empty => .node .empty []
  | .function name params b => .node (.function name params) [b.sketch .block]
  | .var ds => .node .var (ds.map Declarator.sketch)
  | .expr e => .node .exprStmt [e.sketch]
def Body.sketch (l : Label) : Body → Sketch
  | ⟨ss, dangling⟩ => .node l (stmtSketches ss ++ commentSketches .dangling dangling)
def stmtSketches : List Stmt → List Sketch
  | [] => []
  | s :: ss => s.sketches ++ stmtSketches ss
end

theorem Body.sketch_eq (l : Label) (b : Body) : b.sketch l =
    .node l (stmtSketches b.stmts ++ commentSketches .dangling b.dangling) := by
  obtain ⟨ss, dangling⟩ := b
  rw [Body.sketch]

namespace Fragment

def root : Fragment → Label
  | program => .program
  | function => .block

def sketch (f : Fragment) (b : Body) : Sketch := b.sketch f.root

end Fragment

/-! ## The rows of an outline -/

theorem forestRows_append (d : Nat) (ts us : List Sketch) :
    forestRows d (ts ++ us) = forestRows d ts ++ forestRows d us := by
  induction ts with
  | nil => rfl
  | cons t ts ih => simp [forestRows, ih]

theorem forestRows_comments (role : Role) (d : Nat) (cs : List Comment) :
    forestRows d (commentSketches role cs) = commentRows role d cs := by
  induction cs with
  | nil => rfl
  | cons c cs ih =>
    simp only [commentSketches, commentRows, List.map_cons, forestRows, Sketch.rows] at ih ⊢
    rw [ih]
    rfl

theorem Expr.rows_eq (d : Nat) (e : Expr) : e.rows d = e.sketch.rows d := by
  induction e generalizing d with
  | paren inner ih => simp [Expr.rows, Expr.sketch, Sketch.rows, forestRows, ih]
  | assign target value ih => simp [Expr.rows, Expr.sketch, Sketch.rows, forestRows, ih]
  | _ => simp [Expr.rows, Expr.sketch, Sketch.rows, forestRows]

theorem Declarator.rows_eq (d : Nat) (decl : Declarator) : decl.rows d = decl.sketch.rows d := by
  unfold Declarator.rows Declarator.sketch
  cases decl.init with
  | none => simp [Sketch.rows, forestRows]
  | some e => simp [Sketch.rows, forestRows, e.rows_eq]

theorem declaratorRows_eq (d : Nat) (ds : List Declarator) :
    ds.flatMap (Declarator.rows d) = forestRows d (ds.map Declarator.sketch) := by
  induction ds with
  | nil => rfl
  | cons decl ds ih => simp [forestRows, decl.rows_eq, ih]

mutual
theorem Stmt.rows_eq (d : Nat) : (s : Stmt) → s.rows d = forestRows d s.sketches
  | ⟨leading, f, trailing⟩ => by
    simp [Stmt.rows, Stmt.sketches, forestRows_append, forestRows, forestRows_comments, f.rows_eq d]
theorem Form.rows_eq (d : Nat) : (f : Form) → f.rows d = f.sketch.rows d
  | .block b => by rw [Form.rows, Form.sketch, b.blockRows_eq d]
  | .empty => by simp [Form.rows, Form.sketch, Sketch.rows, forestRows]
  | .function _ _ b => by simp [Form.rows, Form.sketch, Sketch.rows, forestRows, b.blockRows_eq (d + 1)]
  | .var ds => by simp [Form.rows, Form.sketch, Sketch.rows, declaratorRows_eq]
  | .expr e => by simp [Form.rows, Form.sketch, Sketch.rows, forestRows, e.rows_eq]
theorem Body.blockRows_eq (d : Nat) : (b : Body) → b.blockRows d = (b.sketch .block).rows d
  | ⟨ss, dangling⟩ => by
    simp [Body.blockRows, Body.sketch, Sketch.rows, forestRows_append, forestRows_comments,
      stmtRows_eq (d + 1) ss]
theorem stmtRows_eq (d : Nat) : (ss : List Stmt) → stmtRows d ss = forestRows d (stmtSketches ss)
  | [] => by simp [stmtRows, stmtSketches, forestRows]
  | s :: ss => by simp [stmtRows, stmtSketches, forestRows_append, s.rows_eq d, stmtRows_eq d ss]
end

theorem Fragment.rows_eq (f : Fragment) (b : Body) : f.rows b = (f.sketch b).rows 0 := by
  cases f with
  | program =>
    simp [rows, Body.programRows, sketch, root, Body.sketch_eq, Sketch.rows, forestRows_append,
      forestRows_comments, stmtRows_eq]
  | function => exact b.blockRows_eq 0

/-! ## Addresses -/

theorem mem_forestAddresses {i : Nat} {ts : List Sketch} {a : List Nat} :
    a ∈ forestAddresses i ts ↔ ∃ j t q, a = (i + j) :: q ∧ ts[j]? = some t ∧ q ∈ t.addresses := by
  induction ts generalizing i with
  | nil => simp [forestAddresses]
  | cons t ts ih =>
    rw [forestAddresses, List.mem_append, List.mem_map, ih]
    constructor
    · rintro (⟨q, hq, rfl⟩ | ⟨j, u, q, rfl, hu, hq⟩)
      · exact ⟨0, t, q, rfl, rfl, hq⟩
      · exact ⟨j + 1, u, q, by rw [Nat.add_assoc, Nat.add_comm 1 j], hu, hq⟩
    · rintro ⟨j, u, q, rfl, hu, hq⟩
      cases j with
      | zero =>
        obtain rfl : t = u := by simpa using hu
        exact .inl ⟨q, hq, rfl⟩
      | succ j => exact .inr ⟨j, u, q, by rw [Nat.add_assoc, Nat.add_comm 1 j], by simpa using hu, hq⟩

/-- The addresses that are listed are those at which there is a node. -/
theorem Sketch.mem_addresses {t : Sketch} {a : List Nat} : a ∈ t.addresses ↔ ∃ u, t.at? a = some u := by
  induction a generalizing t with
  | nil =>
    cases t
    simp [addresses, at?]
  | cons i a ih =>
    obtain ⟨l, ts⟩ := t
    rw [addresses, at?, parts]
    simp only [List.mem_cons, reduceCtorEq, false_or, mem_forestAddresses, Nat.zero_add, List.cons.injEq,
      Option.bind_eq_some_iff]
    constructor
    · rintro ⟨j, t, q, ⟨rfl, rfl⟩, ht, hq⟩
      obtain ⟨u, hu⟩ := ih.mp hq
      exact ⟨u, t, ht, hu⟩
    · rintro ⟨u, t, ht, hu⟩
      exact ⟨i, t, a, ⟨rfl, rfl⟩, ht, ih.mpr ⟨u, hu⟩⟩

theorem lt_of_mem_forestAddresses {i : Nat} {ts : List Sketch} {a b : List Nat}
    (hb : b ∈ forestAddresses (i + 1) ts) : i :: a < b := by
  obtain ⟨j, -, q, rfl, -⟩ := mem_forestAddresses.mp hb
  rw [List.cons_lt_cons_iff]
  exact .inl (by omega)

mutual
/-- Pre-order is the lexicographic order of addresses. -/
theorem Sketch.addresses_ascend : (t : Sketch) → t.addresses.Pairwise (· < ·)
  | .node _ ts => by
    rw [Sketch.addresses, List.pairwise_cons]
    refine ⟨fun a ha => ?_, forestAddresses_ascend 0 ts⟩
    obtain ⟨j, -, q, rfl, -⟩ := mem_forestAddresses.mp ha
    exact List.nil_lt_cons _ _
theorem forestAddresses_ascend (i : Nat) : (ts : List Sketch) → (forestAddresses i ts).Pairwise (· < ·)
  | [] => by
    rw [forestAddresses]
    exact .nil
  | t :: ts => by
    rw [forestAddresses, List.pairwise_append, List.pairwise_map]
    refine ⟨t.addresses_ascend.imp fun h => ?_, forestAddresses_ascend (i + 1) ts, ?_⟩
    · exact List.cons_lt_cons_iff.mpr (.inr ⟨rfl, h⟩)
    · intro a ha b hb
      obtain ⟨q, -, rfl⟩ := List.mem_map.mp ha
      exact lt_of_mem_forestAddresses hb
end

mutual
/-- Row by row, an outline shows the node at the next address, as deep as the address is long. -/
theorem Sketch.rows_addresses (d : Nat) : (t : Sketch) →
    List.Forall₂ (fun a r => ∃ u, t.at? a = some u ∧ r = ⟨d + a.length, u.label⟩) t.addresses (t.rows d)
  | .node l ts => by
    rw [Sketch.addresses, Sketch.rows]
    refine .cons ⟨.node l ts, rfl, rfl⟩ ?_
    refine (forestRows_addresses d 0 ts).imp ?_
    rintro a r ⟨j, t, q, u, rfl, ht, hu, rfl⟩
    refine ⟨u, ?_, rfl⟩
    simp [Sketch.at?, Sketch.parts, ht, hu]
theorem forestRows_addresses (d i : Nat) : (ts : List Sketch) →
    List.Forall₂ (fun a r => ∃ j t q u, a = (i + j) :: q ∧ ts[j]? = some t ∧ t.at? q = some u ∧
      r = ⟨d + a.length, u.label⟩) (forestAddresses i ts) (forestRows (d + 1) ts)
  | [] => by
    rw [forestAddresses, forestRows]
    exact .nil
  | t :: ts => by
    rw [forestAddresses, forestRows]
    refine List.rel_append ?_ ?_
    · rw [List.forall₂_map_left_iff]
      refine (t.rows_addresses (d + 1)).imp ?_
      rintro a r ⟨u, hu, rfl⟩
      refine ⟨0, t, a, u, rfl, rfl, hu, ?_⟩
      rw [List.length_cons, Nat.add_assoc, Nat.add_comm 1]
    · refine (forestRows_addresses d (i + 1) ts).imp ?_
      rintro a r ⟨j, t', q, u, rfl, ht', hu, rfl⟩
      exact ⟨j + 1, t', q, u, by rw [Nat.add_assoc, Nat.add_comm 1 j], by simpa using ht', hu, rfl⟩
end

/-! ## Rows determine the sketch -/

/-- What follows does not start at level `d` or deeper. -/
def EndsLevel (d : Nat) (rs : List Row) : Prop := ∀ r ∈ rs.head?, r.depth < d

theorem endsLevel_forest {d : Nat} {rs : List Row} (h : EndsLevel d rs) (ts : List Sketch) :
    EndsLevel (d + 1) (forestRows d ts ++ rs) := by
  cases ts with
  | nil =>
    intro r hr
    exact Nat.lt_succ_of_lt (h r hr)
  | cons t ts =>
    obtain ⟨l, us⟩ := t
    simp [EndsLevel, forestRows, Sketch.rows]

mutual
theorem Sketch.rows_inj : (t t' : Sketch) → {d : Nat} → {rs rs' : List Row} →
    t.rows d ++ rs = t'.rows d ++ rs' → EndsLevel (d + 1) rs → EndsLevel (d + 1) rs' → t = t' ∧ rs = rs'
  | .node l ts, .node l' ts', d, rs, rs', h, hrs, hrs' => by
    simp only [Sketch.rows, List.cons_append, List.cons.injEq, Row.mk.injEq, true_and] at h
    obtain ⟨rfl, h⟩ := h
    obtain ⟨rfl, rfl⟩ := forestRows_inj ts ts' h hrs hrs'
    exact ⟨rfl, rfl⟩
theorem forestRows_inj : (ts ts' : List Sketch) → {d : Nat} → {rs rs' : List Row} →
    forestRows d ts ++ rs = forestRows d ts' ++ rs' → EndsLevel d rs → EndsLevel d rs' →
      ts = ts' ∧ rs = rs'
  | [], [], d, rs, rs', h, _, _ => ⟨rfl, h⟩
  | [], .node l us :: ts', d, rs, rs', h, hrs, _ => by
    -- the other forest has a row of level `d` where this one has ended
    rw [forestRows, forestRows, List.nil_append] at h
    have := hrs ⟨d, l⟩ (by rw [h, Sketch.rows]; rfl)
    simp at this
  | .node l us :: ts, [], d, rs, rs', h, _, hrs' => by
    rw [forestRows, forestRows, List.nil_append] at h
    have := hrs' ⟨d, l⟩ (by rw [← h, Sketch.rows]; rfl)
    simp at this
  | t :: ts, t' :: ts', d, rs, rs', h, hrs, hrs' => by
    rw [forestRows, forestRows, List.append_assoc, List.append_assoc] at h
    obtain ⟨rfl, htail⟩ := t.rows_inj t' h (endsLevel_forest hrs ts) (endsLevel_forest hrs' ts')
    obtain ⟨rfl, rfl⟩ := forestRows_inj ts ts' htail hrs hrs'
    exact ⟨rfl, rfl⟩
end

/-! ## The sketch determines the tree -/

/-- No comment of the role comes first. -/
def NoneAhead (role : Role) (ts : List Sketch) : Prop := ∀ t ∈ ts.head?, ∀ c, t.label ≠ .comment role c

theorem commentSketches_inj {role : Role} {cs cs' : List Comment} {ts ts' : List Sketch}
    (h : commentSketches role cs ++ ts = commentSketches role cs' ++ ts') (hts : NoneAhead role ts)
    (hts' : NoneAhead role ts') : cs = cs' ∧ ts = ts' := by
  induction cs generalizing cs' with
  | nil =>
    cases cs' with
    | nil => exact ⟨rfl, h⟩
    | cons c cs' =>
      have hhead : ts.head? = some (.node (.comment role c) []) := by
        rw [show ts = _ from h]
        rfl
      exact absurd rfl (hts _ hhead c)
  | cons c cs ih =>
    cases cs' with
    | nil =>
      have hhead : ts'.head? = some (.node (.comment role c) []) := by
        rw [show ts' = _ from h.symm]
        rfl
      exact absurd rfl (hts' _ hhead c)
    | cons c' cs' =>
      simp only [commentSketches, List.map_cons, List.cons_append, List.cons.injEq, Sketch.node.injEq,
        Label.comment.injEq, true_and, and_true] at h
      obtain ⟨rfl, h⟩ := h
      obtain ⟨rfl, rfl⟩ := ih h
      exact ⟨rfl, rfl⟩

theorem Expr.sketch_inj {e e' : Expr} (h : e.sketch = e'.sketch) : e = e' := by
  induction e generalizing e' with
  | paren inner ih =>
    cases e' <;> simp [Expr.sketch] at h
    rw [ih h]
  | assign target value ih =>
    cases e' <;> simp [Expr.sketch] at h
    rw [h.1, ih h.2]
  | _ => cases e' <;> simp_all [Expr.sketch]

theorem Declarator.sketch_inj {d d' : Declarator} (h : d.sketch = d'.sketch) : d = d' := by
  obtain ⟨name, init⟩ := d
  obtain ⟨name', init'⟩ := d'
  simp only [Declarator.sketch, Sketch.node.injEq, Label.declarator.injEq] at h
  obtain ⟨rfl, h⟩ := h
  cases init with
  | none =>
    cases init' with
    | none => rfl
    | some e' => simp at h
  | some e =>
    cases init' with
    | none => simp at h
    | some e' =>
      have he : e = e' := Expr.sketch_inj (by simpa using h)
      rw [he]

theorem noneAhead_form (role : Role) (f : Form) (ts : List Sketch) : NoneAhead role (f.sketch :: ts) := by
  intro t ht c
  obtain rfl : f.sketch = t := by simpa using ht
  cases f <;> simp [Form.sketch, Body.sketch_eq, Sketch.label]

/-- The only comments in front of a statement are leading ones. -/
theorem noneAhead_stmt {role : Role} (hrole : role ≠ .leading) (s : Stmt) (ts : List Sketch) :
    NoneAhead role (s.sketches ++ ts) := by
  obtain ⟨leading, f, trailing⟩ := s
  cases leading with
  | nil =>
    rw [Stmt.sketches]
    exact noneAhead_form role f _
  | cons c leading =>
    simp [Stmt.sketches, commentSketches, NoneAhead, Sketch.label, Ne.symm hrole]

theorem noneAhead_stmts (ss : List Stmt) (cs : List Comment) :
    NoneAhead .trailing (stmtSketches ss ++ commentSketches .dangling cs) := by
  cases ss with
  | nil => cases cs <;> simp [stmtSketches, commentSketches, NoneAhead, Sketch.label]
  | cons s ss =>
    rw [stmtSketches, List.append_assoc]
    exact noneAhead_stmt (by simp) s _

theorem danglingSketches_ne (cs cs' : List Comment) (s : Stmt) (ss : List Stmt) :
    commentSketches .dangling cs ≠ stmtSketches (s :: ss) ++ commentSketches .dangling cs' := by
  intro h
  rw [stmtSketches, List.append_assoc] at h
  have hnone := @noneAhead_stmt .dangling (by simp) s (stmtSketches ss ++ commentSketches .dangling cs')
  have hcs : commentSketches .dangling cs ++ [] = commentSketches .dangling [] ++
      (s.sketches ++ (stmtSketches ss ++ commentSketches .dangling cs')) := by simpa [commentSketches] using h
  -- a statement does not start with a dangling comment, so that there can be none at all
  have hnil := (commentSketches_inj hcs (by simp [NoneAhead]) hnone).2
  obtain ⟨leading, f, trailing⟩ := s
  simp [Stmt.sketches] at hnil

mutual
theorem Form.sketch_inj : (f f' : Form) → f.sketch = f'.sketch → f = f'
  | .block b, f', h => by
    cases f' with
    | block b' => rw [b.sketch_inj b' .block h]
    | _ => simp [Form.sketch, Body.sketch_eq] at h
  | .empty, f', h => by
    cases f' with
    | empty => rfl
    | _ => simp [Form.sketch, Body.sketch_eq] at h
  | .function name params b, f', h => by
    cases f' with
    | function name' params' b' =>
      simp only [Form.sketch, Sketch.node.injEq, Label.function.injEq, List.cons.injEq, and_true] at h
      rw [h.1.1, h.1.2, b.sketch_inj b' .block h.2]
    | _ => simp [Form.sketch, Body.sketch_eq] at h
  | .var ds, f', h => by
    cases f' with
    | var ds' =>
      simp only [Form.sketch, Sketch.node.injEq, true_and] at h
      rw [List.map_injective_iff.mpr (fun _ _ => Declarator.sketch_inj) h]
    | _ => simp [Form.sketch, Body.sketch_eq] at h
  | .expr e, f', h => by
    cases f' with
    | expr e' =>
      simp only [Form.sketch, Sketch.node.injEq, List.cons.injEq, true_and, and_true] at h
      rw [Expr.sketch_inj h]
    | _ => simp [Form.sketch, Body.sketch_eq] at h
theorem Body.sketch_inj : (b b' : Body) → (l : Label) → b.sketch l = b'.sketch l → b = b'
  | ⟨ss, cs⟩, ⟨ss', cs'⟩, l, h => by
    simp only [Body.sketch_eq, Sketch.node.injEq, true_and] at h
    obtain ⟨rfl, rfl⟩ := stmtSketches_inj ss ss' h
    rfl
theorem stmtSketches_inj : (ss ss' : List Stmt) → {cs cs' : List Comment} →
    stmtSketches ss ++ commentSketches .dangling cs = stmtSketches ss' ++ commentSketches .dangling cs' →
      ss = ss' ∧ cs = cs'
  | [], [], cs, cs', h => by
    rw [stmtSketches, List.nil_append, List.nil_append, ← List.append_nil (commentSketches _ cs),
      ← List.append_nil (commentSketches _ cs')] at h
    exact ⟨rfl, (commentSketches_inj h (by simp [NoneAhead]) (by simp [NoneAhead])).1⟩
  | [], s :: ss, cs, cs', h => by
    rw [stmtSketches, List.nil_append] at h
    exact absurd h (danglingSketches_ne cs cs' s ss)
  | s :: ss, [], cs, cs', h => by
    rw [stmtSketches.eq_1, List.nil_append] at h
    exact absurd h.symm (danglingSketches_ne cs' cs s ss)
  | ⟨leading, f, trailing⟩ :: ss, ⟨leading', f', trailing'⟩ :: ss', cs, cs', h => by
    simp only [stmtSketches, Stmt.sketches, List.append_assoc, List.cons_append] at h
    obtain ⟨rfl, hform⟩ := commentSketches_inj h (noneAhead_form _ f _) (noneAhead_form _ f' _)
    obtain ⟨hf, hbehind⟩ := List.cons.inj hform
    obtain ⟨rfl, hrest⟩ := commentSketches_inj hbehind (noneAhead_stmts ss cs) (noneAhead_stmts ss' cs')
    obtain ⟨rfl, rfl⟩ := stmtSketches_inj ss ss' hrest
    rw [f.sketch_inj f' hf]
    exact ⟨rfl, rfl⟩
end

end Reprint
