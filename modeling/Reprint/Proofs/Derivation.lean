import Reprint.Fragment

/-!
# Successful readings as derivations

One inductive relation for each reader says which cursors it leads from and to and what it reads,
with no trace of fuel, bounds or binding powers. A reader gives a value exactly when there is a
derivation (`gives_expr_iff`, `gives_stmts_iff` and the like), so facts about successful readings
are inductions on derivations.
-/

namespace Reprint

/-! ## Readings that give a value -/

namespace Reading

variable {n m : Nat} {α β : Type}

def Gives (r : Reading n α) (a : α) (c : Cursor) : Prop := r.outcome = .ok a c

@[simp] theorem gives_ok {a b : α} {c c' : Cursor} {lt : c.left < n} :
    (Reading.ok a c lt : Reading n α).Gives b c' ↔ a = b ∧ c = c' := by
  simp [Gives, outcome]

@[simp] theorem gives_error {e : ParseError} {b : α} {c c' : Cursor} :
    (Reading.error e c : Reading n α).Gives b c' ↔ False := by
  simp [Gives, outcome]

theorem Gives.left_lt {r : Reading n α} {a : α} {c : Cursor} (h : r.Gives a c) : c.left < n := by
  cases r with
  | ok b c lt => obtain ⟨-, rfl⟩ := gives_ok.mp h; exact lt
  | error e c => exact (gives_error.mp h).elim

@[simp] theorem gives_andThen {r : Reading n α}
    {f : α → (rest : Cursor) → rest.left < n → Reading m β} {b : β} {c' : Cursor} :
    (r.andThen f).Gives b c' ↔ ∃ a c, ∃ h : r.Gives a c, (f a c h.left_lt).Gives b c' := by
  cases r with
  | ok a c lt =>
    constructor
    · exact fun h => ⟨a, c, gives_ok.mpr ⟨rfl, rfl⟩, h⟩
    · intro h
      obtain ⟨a', c', hr, h⟩ := h
      obtain ⟨rfl, rfl⟩ := gives_ok.mp hr
      exact h
  | error e c => simp [andThen]

end Reading

/-- The expression that a token is by itself. -/
def Token.operand? : Token → Option Expr
  | .number n => some (.number n)
  | .bool b => some (.bool b)
  | .string raw => some (.string raw)
  | .null => some .null
  | .ident name => some (.ident name)
  | .this => some .this
  | _ => none

namespace Cursor

open Reading

theorem gives_expect {c c' : Cursor} {t : Token} {u : Unit} :
    (c.expect t).Gives u c' ↔ c.token? = some t ∧ c.advance = c' := by
  unfold expect
  split <;> simp_all

theorem gives_identifier {c c' : Cursor} {name : String} :
    c.identifier.Gives name c' ↔ c.token? = some (.ident name) ∧ c.advance = c' := by
  unfold identifier
  split <;> simp_all

/-! ## Expressions -/

inductive ReadsExpr : Cursor → Expr → Cursor → Prop
  | operand {c t e} : c.token? = some t → t.operand? = some e → c.advance.token? ≠ some .equals →
      ReadsExpr c e c.advance
  | paren {c e c₁} : c.token? = some .openParen → ReadsExpr c.advance e c₁ →
      c₁.token? = some .closeParen → c₁.advance.token? ≠ some .equals →
      ReadsExpr c (.paren e) c₁.advance
  | assign {c name e c₁} : c.token? = some (.ident name) → c.advance.token? = some .equals →
      ReadsExpr c.advance.advance e c₁ → ReadsExpr c (.assign name e) c₁

theorem ReadsExpr.token?_ne_equals {c c' : Cursor} {e : Expr} (h : c.ReadsExpr e c') :
    c'.token? ≠ some .equals := by
  induction h with
  | operand _ _ hne => exact hne
  | paren _ _ _ hne _ => exact hne
  | assign _ _ _ ih => exact ih

theorem gives_operand {c c' : Cursor} {e : Expr} :
    c.operand.Gives e c' ↔
      (∃ t, c.token? = some t ∧ t.operand? = some e ∧ c.advance = c') ∨
      (c.token? = some .openParen ∧ ∃ inner c₁, (c.advance.exprAbove 0).Gives inner c₁ ∧
        c₁.token? = some .closeParen ∧ .paren inner = e ∧ c₁.advance = c') := by
  unfold operand
  split
  case h_7 h =>
    simp only [h, gives_andThen, gives_expect, gives_ok, Option.some.injEq, Token.operand?]
    constructor
    · intro h
      obtain ⟨inner, c₁, hin, -, c₂, ⟨hclose, rfl⟩, rfl, rfl⟩ := h
      exact .inr ⟨trivial, inner, c₁, hin, hclose, rfl, rfl⟩
    · intro h
      rcases h with ⟨t, rfl, hop, -⟩ | ⟨-, inner, c₁, hin, hclose, rfl, rfl⟩
      · cases hop
      · exact ⟨inner, c₁, hin, (), _, ⟨hclose, rfl⟩, rfl, rfl⟩
  case h_8 =>
    simp only [gives_error, false_iff, not_or, not_exists, not_and]
    refine ⟨fun t ht he => ?_, fun h => by simp_all⟩
    cases t <;> simp_all [Token.operand?]
  all_goals
    rename_i h
    simp [h, Token.operand?]

theorem gives_operators_of_ne {c c' : Cursor} {least : Nat} {lhs e : Expr}
    (h : c.token? ≠ some .equals) : (c.operators least lhs).Gives e c' ↔ lhs = e ∧ c = c' := by
  unfold operators
  split
  · simp
  · rename_i t ht
    have hpower : t.bindingPower? = none := by
      cases t <;> first | rfl | exact absurd ht h
    split
    · simp
    · simp_all

theorem gives_operators_of_eq {c c' : Cursor} {least : Nat} {lhs e : Expr}
    (h : c.token? = some .equals) (hleast : least ≤ 3) :
    (c.operators least lhs).Gives e c' ↔ ∃ name value c₁, lhs = .ident name ∧
      (c.advance.exprAbove 2).Gives value c₁ ∧
      (c₁.operators least (.assign name value)).Gives e c' := by
  rw [operators]
  split
  · simp_all
  · rename_i t ht
    obtain rfl : t = .equals := by simpa [h] using ht.symm
    simp only [Token.bindingPower?, if_neg (Nat.not_lt.mpr hleast)]
    split
    · simp
    · rename_i hlhs
      simp only [gives_error, false_iff, not_exists, not_and]
      exact fun name _ _ hname => absurd hname (hlhs name)

/-- Behind an operand, an equals sign makes it the target of an assignment. -/
theorem gives_exprAbove {c c' : Cursor} {least : Nat} {e : Expr} :
    (c.exprAbove least).Gives e c' ↔
      ∃ lhs c₁, c.operand.Gives lhs c₁ ∧ (c₁.operators least lhs).Gives e c' := by
  rw [exprAbove]
  simp

/-- Every operator there is binds its left operand with the power three, so no limit up to three
ends an expression early. -/
theorem reads_of_gives_exprAbove {c c' : Cursor} {least : Nat} {e : Expr} (hleast : least ≤ 3)
    (h : (c.exprAbove least).Gives e c') : c.ReadsExpr e c' := by
  obtain ⟨lhs, c₁, hlhs, hops⟩ := gives_exprAbove.mp h
  have hlt := hlhs.left_lt
  by_cases heq : c₁.token? = some .equals
  · obtain ⟨name, value, c₂, rfl, hvalue, hrest⟩ := (gives_operators_of_eq heq hleast).mp hops
    have hadv := left_advance_lt heq
    have ih := reads_of_gives_exprAbove (by omega) hvalue
    -- the value ends where no equals sign follows, which leaves the operators nothing
    obtain ⟨rfl, rfl⟩ := (gives_operators_of_ne ih.token?_ne_equals).mp hrest
    rcases gives_operand.mp hlhs with ⟨t, ht, hop, rfl⟩ | ⟨-, inner, c₃, -, -, hne, -⟩
    · obtain rfl : t = .ident name := by cases t <;> simp_all [Token.operand?]
      exact .assign ht heq ih
    · cases hne
  · obtain ⟨rfl, rfl⟩ := (gives_operators_of_ne heq).mp hops
    rcases gives_operand.mp hlhs with ⟨t, ht, hop, rfl⟩ | ⟨hopen, inner, c₃, hin, hclose, rfl, rfl⟩
    · exact .operand ht hop heq
    · have hadv := left_advance_lt hopen
      exact .paren hopen (reads_of_gives_exprAbove (by omega) hin) hclose heq
termination_by c.left

theorem ReadsExpr.gives {c c' : Cursor} {e : Expr} (h : c.ReadsExpr e c') :
    ∀ least ≤ 3, (c.exprAbove least).Gives e c' := by
  induction h with
  | operand ht hop hne =>
    intro least _
    refine gives_exprAbove.mpr ⟨_, _, gives_operand.mpr (.inl ⟨_, ht, hop, rfl⟩), ?_⟩
    exact (gives_operators_of_ne hne).mpr ⟨rfl, rfl⟩
  | paren hopen _ hclose hne ih =>
    intro least _
    have hin := ih 0 (by omega)
    refine gives_exprAbove.mpr ⟨_, _, gives_operand.mpr (.inr ⟨hopen, _, _, hin, hclose, rfl, rfl⟩), ?_⟩
    exact (gives_operators_of_ne hne).mpr ⟨rfl, rfl⟩
  | assign hname heq hvalue ih =>
    intro least hleast
    refine gives_exprAbove.mpr ⟨_, _, gives_operand.mpr (.inl ⟨_, hname, rfl, rfl⟩), ?_⟩
    refine (gives_operators_of_eq heq hleast).mpr ⟨_, _, _, rfl, ih 2 (by omega), ?_⟩
    exact (gives_operators_of_ne hvalue.token?_ne_equals).mpr ⟨rfl, rfl⟩

theorem gives_expr_iff {c c' : Cursor} {e : Expr} : c.expr.Gives e c' ↔ c.ReadsExpr e c' :=
  ⟨reads_of_gives_exprAbove (by omega), fun h => h.gives 0 (by omega)⟩

/-! ## Parts of statements -/

inductive ReadsNames : Cursor → List String → Cursor → Prop
  | last {c name} : c.token? = some (.ident name) → c.advance.token? = some .closeParen →
      ReadsNames c [name] c.advance.advance
  | more {c name names c'} : c.token? = some (.ident name) → c.advance.token? = some .comma →
      ReadsNames c.advance.advance names c' → ReadsNames c (name :: names) c'

inductive ReadsParams : Cursor → List String → Cursor → Prop
  | none {c} : c.token? = some .openParen → c.advance.token? = some .closeParen →
      ReadsParams c [] c.advance.advance
  | some {c names c'} : c.token? = some .openParen → ReadsNames c.advance names c' →
      ReadsParams c names c'

inductive ReadsInit : Cursor → Option Expr → Cursor → Prop
  | none {c} : c.token? ≠ some .equals → ReadsInit c none c
  | some {c e c'} : c.token? = some .equals → ReadsExpr c.advance e c' → ReadsInit c (some e) c'

inductive ReadsDeclarators : Cursor → List Declarator → Cursor → Prop
  | last {c name init c'} : c.token? = some (.ident name) → ReadsInit c.advance init c' →
      c'.token? ≠ some .comma → ReadsDeclarators c [⟨name, init⟩] c'
  | more {c name init c₁ ds c'} : c.token? = some (.ident name) → ReadsInit c.advance init c₁ →
      c₁.token? = some .comma → ReadsDeclarators c₁.advance ds c' →
      ReadsDeclarators c (⟨name, init⟩ :: ds) c'

inductive ReadsEnd : Cursor → Cursor → Prop
  | semicolon {c} : c.token? = some .semicolon → ReadsEnd c c.advance
  | closeBrace {c} : c.token? = some .closeBrace → ReadsEnd c c
  | endOfInput {c} : c.token? = none → ReadsEnd c c
  | laterLine {c} : c.token? ≠ some .semicolon → c.prevStop.line < c.here.line → ReadsEnd c c

theorem gives_paramNames_iff {c c' : Cursor} {names : List String} :
    c.paramNames.Gives names c' ↔ c.ReadsNames names c' := by
  constructor
  · intro h
    rw [paramNames] at h
    simp only [gives_andThen, gives_identifier] at h
    obtain ⟨name, c₁, ⟨hname, rfl⟩, h⟩ := h
    have hlt := left_advance_lt hname
    split at h
    · obtain ⟨rfl, rfl⟩ := gives_ok.mp h
      exact .last hname ‹_›
    · rename_i hcomma
      have hlt' := left_advance_lt hcomma
      simp only [gives_andThen, gives_ok] at h
      obtain ⟨rest, c₂, hrest, rfl, rfl⟩ := h
      exact .more hname hcomma (gives_paramNames_iff.mp hrest)
    · exact (gives_error.mp h).elim
  · intro h
    induction h with
    | last hname hclose =>
      rw [paramNames]
      simp only [gives_andThen, gives_identifier]
      refine ⟨_, _, ⟨hname, rfl⟩, ?_⟩
      split <;> simp_all
    | more hname hcomma _ ih =>
      rw [paramNames]
      simp only [gives_andThen, gives_identifier]
      refine ⟨_, _, ⟨hname, rfl⟩, ?_⟩
      split <;> simp_all
termination_by c.left

theorem gives_params_iff {c c' : Cursor} {names : List String} :
    c.params.Gives names c' ↔ c.ReadsParams names c' := by
  unfold params
  simp only [gives_andThen, gives_expect]
  constructor
  · intro h
    obtain ⟨_, c₁, ⟨hopen, rfl⟩, h⟩ := h
    split at h
    · obtain ⟨rfl, rfl⟩ := gives_ok.mp h
      exact .none hopen ‹_›
    · simp only [gives_andThen, gives_ok, gives_paramNames_iff] at h
      obtain ⟨_, _, hnames, rfl, rfl⟩ := h
      exact .some hopen hnames
  · intro h
    cases h with
    | none hopen hclose =>
      refine ⟨(), _, ⟨hopen, rfl⟩, ?_⟩
      split <;> simp_all
    | some hopen hnames =>
      refine ⟨(), _, ⟨hopen, rfl⟩, ?_⟩
      split
      · cases hnames <;> simp_all
      · simpa [gives_paramNames_iff] using hnames

theorem gives_initializer_iff {c c' : Cursor} {init : Option Expr} :
    c.initializer.Gives init c' ↔ c.ReadsInit init c' := by
  unfold initializer
  split
  · rename_i heq
    simp only [gives_andThen, gives_ok, gives_expr_iff]
    constructor
    · intro h
      obtain ⟨e, c₁, he, rfl, rfl⟩ := h
      exact .some heq he
    · intro h
      cases h with
      | none hne => exact absurd heq hne
      | some _ he => exact ⟨_, _, he, rfl, rfl⟩
  · rename_i hne
    rw [gives_ok]
    constructor
    · intro h
      obtain ⟨rfl, rfl⟩ := h
      exact .none hne
    · intro h
      cases h with
      | none _ => exact ⟨rfl, rfl⟩
      | some heq _ => exact absurd heq hne

theorem gives_declarators_iff {c c' : Cursor} {ds : List Declarator} :
    c.declarators.Gives ds c' ↔ c.ReadsDeclarators ds c' := by
  constructor
  · intro h
    rw [declarators] at h
    simp only [gives_andThen, gives_identifier] at h
    obtain ⟨name, c₁, ⟨hname, rfl⟩, init, c₂, hinit, h⟩ := h
    have hlt := left_advance_lt hname
    have hlt₂ := hinit.left_lt
    rw [gives_initializer_iff] at hinit
    split at h
    · rename_i hcomma
      have hlt' := left_advance_lt hcomma
      simp only [gives_andThen, gives_ok] at h
      obtain ⟨rest, c₃, hrest, rfl, rfl⟩ := h
      exact .more hname hinit hcomma (gives_declarators_iff.mp hrest)
    · obtain ⟨rfl, rfl⟩ := gives_ok.mp h
      exact .last hname hinit ‹_›
  · intro h
    induction h with
    | last hname hinit hne =>
      rw [declarators]
      simp only [gives_andThen, gives_identifier, gives_initializer_iff]
      refine ⟨_, _, ⟨hname, rfl⟩, _, _, hinit, ?_⟩
      split <;> simp_all
    | more hname hinit hcomma _ ih =>
      rw [declarators]
      simp only [gives_andThen, gives_identifier, gives_initializer_iff]
      refine ⟨_, _, ⟨hname, rfl⟩, _, _, hinit, ?_⟩
      split <;> simp_all
termination_by c.left

theorem gives_terminator_iff {c c' : Cursor} {u : Unit} :
    c.terminator.Gives u c' ↔ c.ReadsEnd c' := by
  unfold terminator
  constructor
  · intro h
    split at h
    · obtain ⟨-, rfl⟩ := gives_ok.mp h
      exact .semicolon ‹_›
    · obtain ⟨-, rfl⟩ := gives_ok.mp h
      exact .closeBrace ‹_›
    · obtain ⟨-, rfl⟩ := gives_ok.mp h
      exact .endOfInput ‹_›
    · rename_i t hsemi _ ht
      split at h
      · obtain ⟨-, rfl⟩ := gives_ok.mp h
        exact .laterLine (fun h => hsemi (Option.some.inj (ht.symm.trans h))) ‹_›
      · exact (gives_error.mp h).elim
  · intro h
    cases h <;> split <;> simp_all

/-! ## Statements and blocks -/

mutual
inductive ReadsBlock : Cursor → Body → Cursor → Prop
  | braces {c ss c₁ c₂} : c.token? = some .openBrace →
      ReadsStmts (some .closeBrace) (c.withQueue []).advance ss c₁ → c₁.token? = some .closeBrace →
      (c₁.withQueue []).advance = c₂ →
      ReadsBlock c ⟨ss, c₁.comments⟩ (c₂.withQueue (c.queue ++ c₂.queue))
inductive ReadsForm : Cursor → Form → Cursor → Prop
  | block {c b c'} : ReadsBlock c b c' → ReadsForm c (.block b) c'
  | empty {c} : c.token? = some .semicolon → ReadsForm c .empty c.advance
  | function {c name names c₁ b c'} : c.token? = some .function →
      c.advance.token? = some (.ident name) → c.advance.advance.ReadsParams names c₁ →
      ReadsBlock c₁ b c' → ReadsForm c (.function name names b) c'
  | var {c ds c₁ c'} : c.token? = some .var → c.advance.ReadsDeclarators ds c₁ → c₁.ReadsEnd c' →
      ReadsForm c (.var ds) c'
  | expr {c e c₁ c'} : c.ReadsExpr e c₁ → c₁.ReadsEnd c' → ReadsForm c (.expr e) c'
inductive ReadsStmt : Cursor → Stmt → Cursor → Prop
  | owning {c f c₁ shares} :
      ReadsForm ((c.withQueue []).record (.readingStmt c.here c.found)) f c₁ →
      shareOut c₁.prevStop c₁.queue = shares →
      ReadsStmt c ⟨c.comments ++ shares.inside, f, shares.behind⟩ (c₁.withQueue shares.rest)
inductive ReadsStmts : Option Token → Cursor → List Stmt → Cursor → Prop
  | nil {close c} : c.token? = close → ReadsStmts close c [] c
  | cons {close c t s c₁ ss c'} : c.token? = some t → close ≠ some t → ReadsStmt c s c₁ →
      ReadsStmts close c₁ ss c' → ReadsStmts close c (s :: ss) c'
end

@[simp] theorem token?_withQueue (c : Cursor) (q : List (Located Comment)) :
    (c.withQueue q).token? = c.token? := rfl

@[simp] theorem ahead_withQueue (c : Cursor) (q : List (Located Comment)) :
    (c.withQueue q).ahead = c.ahead := rfl

@[simp] theorem queue_withQueue (c : Cursor) (q : List (Located Comment)) :
    (c.withQueue q).queue = q := rfl

theorem ReadsExpr.token?_ne {c c' : Cursor} {e : Expr} (h : c.ReadsExpr e c') :
    c.token? ≠ some .openBrace ∧ c.token? ≠ some .semicolon ∧ c.token? ≠ some .function ∧
      c.token? ≠ some .var := by
  cases h with
  | @operand _ t _ ht hop _ => cases t <;> simp_all [Token.operand?]
  | paren ht _ _ _ => simp [ht]
  | assign ht _ _ => simp [ht]

mutual
theorem reads_of_gives_block {c c' : Cursor} {b : Body} (h : c.block.Gives b c') :
    c.ReadsBlock b c' := by
  rw [block] at h
  simp only [gives_andThen, gives_expect, gives_ok, token?_withQueue, exists_prop] at h
  obtain ⟨_, c₁, ⟨hopen, rfl⟩, ss, c₂, hss, _, c₃, ⟨hclose, rfl⟩, rfl, rfl⟩ := h
  have hlt : (c.withQueue []).advance.left < c.left := left_advance_lt hopen
  exact .braces hopen (reads_of_gives_stmts hss) hclose rfl
termination_by (c.left, 0)

theorem reads_of_gives_form {c c' : Cursor} {f : Form} (h : c.form.Gives f c') :
    c.ReadsForm f c' := by
  rw [form] at h
  split at h
  · simp only [gives_andThen, gives_ok] at h
    obtain ⟨b, c₁, hb, rfl, rfl⟩ := h
    exact .block (reads_of_gives_block hb)
  · obtain ⟨rfl, rfl⟩ := gives_ok.mp h
    exact .empty ‹_›
  · rename_i hfun
    simp only [gives_andThen, gives_identifier, gives_params_iff, gives_ok] at h
    obtain ⟨name, c₁, ⟨hname, rfl⟩, names, c₂, hnames, b, c₃, hb, rfl, rfl⟩ := h
    have hlt := left_advance_lt hfun
    have hlt₁ := left_advance_lt hname
    have hlt₂ := (gives_params_iff.mpr hnames).left_lt
    exact .function hfun hname hnames (reads_of_gives_block hb)
  · rename_i hvar
    simp only [gives_andThen, gives_declarators_iff, gives_terminator_iff, gives_ok] at h
    obtain ⟨ds, c₁, hds, _, c₂, hend, rfl, rfl⟩ := h
    exact .var hvar hds hend
  · simp only [gives_andThen, gives_expr_iff, gives_terminator_iff, gives_ok] at h
    obtain ⟨e, c₁, he, _, c₂, hend, rfl, rfl⟩ := h
    exact .expr he hend
termination_by (c.left, 1)

theorem reads_of_gives_stmt {c c' : Cursor} {s : Stmt} (h : c.stmt.Gives s c') :
    c.ReadsStmt s c' := by
  rw [stmt] at h
  simp only [gives_andThen, gives_ok] at h
  obtain ⟨f, c₁, hf, rfl, rfl⟩ := h
  exact .owning (reads_of_gives_form hf) rfl
termination_by (c.left, 2)

theorem reads_of_gives_stmts {close : Option Token} {c c' : Cursor} {ss : List Stmt}
    (h : (c.stmts close).Gives ss c') : c.ReadsStmts close ss c' := by
  rw [stmts.eq_def] at h
  cases ht : c.token? with
  | none =>
    cases close with
    | none =>
      simp only [ht, gives_ok] at h
      obtain ⟨rfl, rfl⟩ := h
      exact .nil ht
    | some t => simp [ht] at h
  | some t =>
    simp only [ht] at h
    split at h
    · rename_i hclose
      obtain ⟨rfl, rfl⟩ := gives_ok.mp h
      exact .nil (ht.trans hclose.symm)
    · rename_i hclose
      simp only [gives_andThen, gives_ok] at h
      obtain ⟨s, c₁, hs, rest, c₂, hrest, rfl, rfl⟩ := h
      have hlt := hs.left_lt
      exact .cons ht hclose (reads_of_gives_stmt hs) (reads_of_gives_stmts hrest)
termination_by (c.left, 3)
end

mutual
theorem ReadsBlock.gives {c c' : Cursor} {b : Body} (h : c.ReadsBlock b c') : c.block.Gives b c' := by
  match h with
  | .braces hopen hss hclose hc =>
    rw [block]
    simp only [gives_andThen, gives_expect, gives_ok, token?_withQueue, exists_prop]
    exact ⟨(), _, ⟨hopen, rfl⟩, _, _, hss.gives, (), _, ⟨hclose, hc⟩, rfl, rfl⟩

theorem ReadsForm.gives {c c' : Cursor} {f : Form} (h : c.ReadsForm f c') : c.form.Gives f c' := by
  rw [form]
  match h with
  | .block hb =>
    have hopen : c.token? = some .openBrace := by cases hb; assumption
    have hgives := hb.gives
    split
    case h_1 => simpa using hgives
    all_goals simp_all
  | .empty hsemi =>
    split
    case h_2 => simp
    all_goals simp_all
  | .function hfun hname hnames hb =>
    split
    case h_3 =>
      simp only [gives_andThen, gives_identifier, gives_params_iff, gives_ok, exists_prop]
      exact ⟨_, _, ⟨hname, rfl⟩, _, _, hnames, _, _, hb.gives, rfl, rfl⟩
    all_goals simp_all
  | .var hvar hds hend =>
    split
    case h_4 =>
      simp only [gives_andThen, gives_declarators_iff, gives_terminator_iff, gives_ok, exists_prop]
      exact ⟨_, _, hds, (), _, hend, rfl, rfl⟩
    all_goals simp_all
  | .expr he hend =>
    have hne := he.token?_ne
    split
    case h_5 =>
      simp only [gives_andThen, gives_expr_iff, gives_terminator_iff, gives_ok, exists_prop]
      exact ⟨_, _, he, (), _, hend, rfl, rfl⟩
    all_goals simp_all

theorem ReadsStmt.gives {c c' : Cursor} {s : Stmt} (h : c.ReadsStmt s c') : c.stmt.Gives s c' := by
  match h with
  | .owning hf hshares =>
    rw [stmt]
    simp only [gives_andThen, gives_ok, exists_prop]
    exact ⟨_, _, hf.gives, by rw [hshares], by rw [hshares]⟩

theorem ReadsStmts.gives {close : Option Token} {c c' : Cursor} {ss : List Stmt}
    (h : c.ReadsStmts close ss c') : (c.stmts close).Gives ss c' := by
  rw [stmts.eq_def]
  match h with
  | .nil hclose =>
    subst hclose
    cases c.token? <;> simp
  | .cons ht hne hs hss =>
    simp only [ht, if_neg hne, gives_andThen, gives_ok, exists_prop]
    exact ⟨_, _, hs.gives, _, _, hss.gives, rfl, rfl⟩
end

theorem gives_block_iff {c c' : Cursor} {b : Body} : c.block.Gives b c' ↔ c.ReadsBlock b c' :=
  ⟨reads_of_gives_block, fun h => h.gives⟩

theorem gives_stmts_iff {close : Option Token} {c c' : Cursor} {ss : List Stmt} :
    (c.stmts close).Gives ss c' ↔ c.ReadsStmts close ss c' :=
  ⟨reads_of_gives_stmts, fun h => h.gives⟩

/-! ## Whole texts -/

inductive ReadsHead : Cursor → Cursor → Prop
  | bare {c} : c.token? ≠ some .function → ReadsHead c c
  | named {c name names c₁} : c.token? = some .function → c.advance.token? = some (.ident name) →
      c.advance.advance.ReadsParams names c₁ →
      ReadsHead c (c₁.record (.readLiteral (some name) names))
  | anonymous {c names c₁} : c.token? = some .function → c.advance.ReadsParams names c₁ →
      ReadsHead c (c₁.record (.readLiteral none names))

theorem gives_program_iff {c c' : Cursor} {b : Body} :
    c.program.Gives b c' ↔
      ∃ ss c₁, c.ReadsStmts none ss c₁ ∧ ⟨ss, c₁.comments⟩ = b ∧ c₁.withQueue [] = c' := by
  unfold program
  simp only [gives_andThen, gives_ok, gives_stmts_iff, exists_prop]

theorem gives_literalHead_iff {c c' : Cursor} {u : Unit} :
    c.literalHead.Gives u c' ↔ c.ReadsHead c' := by
  unfold literalHead
  constructor
  · intro h
    split at h
    · rename_i hfun
      split at h
      · simp only [gives_andThen, gives_ok, gives_params_iff, exists_prop] at h
        obtain ⟨names, c₁, hnames, -, rfl⟩ := h
        exact .named hfun ‹_› hnames
      · simp only [gives_andThen, gives_ok, gives_params_iff, exists_prop] at h
        obtain ⟨names, c₁, hnames, -, rfl⟩ := h
        exact .anonymous hfun hnames
    · obtain ⟨-, rfl⟩ := gives_ok.mp h
      exact .bare ‹_›
  · intro h
    cases h with
    | bare hne => split <;> simp_all
    | named hfun hname hnames =>
      split
      case h_1 =>
        split
        case h_1 name' hname' =>
          obtain rfl : name' = _ := by simpa [hname] using hname'.symm
          simp only [gives_andThen, gives_ok, gives_params_iff, exists_prop]
          exact ⟨_, _, hnames, trivial, rfl⟩
        case h_2 hne => exact absurd hname (hne _)
      case h_2 hne => exact absurd hfun hne
    | anonymous hfun hnames =>
      have hopen : c.advance.token? = some .openParen := by cases hnames <;> assumption
      split
      case h_1 =>
        split
        case h_1 hname => simp [hopen] at hname
        case h_2 =>
          simp only [gives_andThen, gives_ok, gives_params_iff, exists_prop]
          exact ⟨_, _, hnames, trivial, rfl⟩
      case h_2 hne => exact absurd hfun hne

theorem gives_functionBody_iff {c c' : Cursor} {b : Body} :
    c.functionBody.Gives b c' ↔
      ∃ c₁ inner c₂, c.ReadsHead c₁ ∧ (c₁.withQueue []).ReadsBlock inner c₂ ∧ c₂.token? = none ∧
        (inner.lead c₁.comments).trail c₂.comments = b ∧ c₂.withQueue [] = c' := by
  unfold functionBody
  simp only [gives_andThen, gives_literalHead_iff, gives_block_iff]
  constructor
  · intro h
    obtain ⟨_, c₁, hhead, inner, c₂, hblock, h⟩ := h
    split at h
    · exact (gives_error.mp h).elim
    · obtain ⟨hb, hc⟩ := gives_ok.mp h
      exact ⟨c₁, inner, c₂, hhead, hblock, ‹_›, hb, hc⟩
  · intro h
    obtain ⟨c₁, inner, c₂, hhead, hblock, hnone, hb, hc⟩ := h
    refine ⟨(), c₁, hhead, inner, c₂, hblock, ?_⟩
    split
    · simp_all
    · exact gives_ok.mpr ⟨hb, hc⟩

end Cursor

/-! ## Fragments -/

def Cursor.start (text : String) (ls : List (Located Lexeme)) : Cursor :=
  let source := Source.ofString text
  .ofLexemes ls source.stop #[.lexed ls.length source.lineCount source.byteCount]

theorem Cursor.ofText_eq (text : String) : Cursor.ofText text = (tokenize text).map (start text) := rfl

theorem Fragment.parse_eq_ok_iff {f : Fragment} {text : String} {b : Body} :
    f.parse text = .ok b ↔
      ∃ ls, tokenize text = .ok ls ∧ ∃ c', f.read (Cursor.start text ls) = .ok b c' := by
  unfold parse parseLogged
  rw [Cursor.ofText_eq]
  cases tokenize text with
  | error e => simp [Except.map]
  | ok ls =>
    simp only [Except.map, Except.ok.injEq, exists_eq_left']
    cases f.read (Cursor.start text ls) with
    | ok b' c' => simp
    | error e c' => simp

theorem Fragment.read_program_iff {c c' : Cursor} {b : Body} :
    Fragment.program.read c = .ok b c' ↔
      ∃ ss c₁, c.ReadsStmts none ss c₁ ∧ ⟨ss, c₁.comments⟩ = b ∧ c₁.withQueue [] = c' :=
  Cursor.gives_program_iff

theorem Fragment.read_function_iff {c c' : Cursor} {b : Body} :
    Fragment.function.read c = .ok b c' ↔
      ∃ c₁ inner c₂, c.ReadsHead c₁ ∧ (c₁.withQueue []).ReadsBlock inner c₂ ∧ c₂.token? = none ∧
        (inner.lead c₁.comments).trail c₂.comments = b ∧ c₂.withQueue [] = c' :=
  Cursor.gives_functionBody_iff

end Reprint
