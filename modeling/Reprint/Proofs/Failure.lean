import Reprint.Proofs.Conservation

/-!
# Failing readings as derivations

Reading stops with an error at the token that does not fit, and the error says what would have fitted
there. One inductive relation for each reader says from which cursor it stops at which, next to the
relations for successful readings. A reader stops as its relation says and in no other way
(`stopsBy_stmts`, `FailsStmts.fails` and the like). Whether it succeeds or not, a reader only moves
forward (`Moves`).
-/

namespace Reprint

/-! ## Readings that stop -/

namespace Reading

variable {n m : Nat} {α β : Type}

/-- The reading stops at `c`, where `ex` would have fitted. -/
def Fails (r : Reading n α) (ex : Expected) (c : Cursor) : Prop :=
  r.outcome = .error (c.unexpected ex) c

/-- Where the reading stops and what would have fitted there is told by `F`. -/
def StopsBy (r : Reading n α) (F : Expected → Cursor → Prop) : Prop :=
  ∀ e c, r.outcome = .error e c → ∃ ex, e = c.unexpected ex ∧ F ex c

variable {F G : Expected → Cursor → Prop}

theorem fails_error (ex : Expected) (c : Cursor) :
    (Reading.error (c.unexpected ex) c : Reading n α).Fails ex c := rfl

theorem fails_andThen_left {r : Reading n α} {f : α → (rest : Cursor) → rest.left < n → Reading m β}
    {ex : Expected} {c : Cursor} (h : r.Fails ex c) : (r.andThen f).Fails ex c := by
  cases r with
  | ok a c lt => cases h
  | error e c =>
    cases h
    rfl

theorem fails_andThen_right {r : Reading n α}
    {f : α → (rest : Cursor) → rest.left < n → Reading m β} {a : α} {ex : Expected} {c c' : Cursor}
    (hr : r.Gives a c) (h : (f a c hr.left_lt).Fails ex c') : (r.andThen f).Fails ex c' := by
  cases r with
  | ok a c lt =>
    obtain ⟨rfl, rfl⟩ := gives_ok.mp hr
    exact h
  | error e c => cases hr

theorem StopsBy.imp {r : Reading n α} (h : r.StopsBy F) (hFG : ∀ ex c, F ex c → G ex c) :
    r.StopsBy G := by
  intro e c he
  obtain ⟨ex, heq, hF⟩ := h e c he
  exact ⟨ex, heq, hFG ex c hF⟩

theorem stopsBy_of_gives {r : Reading n α} {a : α} {c : Cursor} (h : r.Gives a c) : r.StopsBy F := by
  intro e c' he
  rw [show r.outcome = _ from h] at he
  cases he

theorem stopsBy_ok {a : α} {c : Cursor} {lt : c.left < n} :
    (Reading.ok a c lt : Reading n α).StopsBy F :=
  stopsBy_of_gives rfl

theorem stopsBy_error {ex : Expected} {c : Cursor} (h : F ex c) :
    (Reading.error (c.unexpected ex) c : Reading n α).StopsBy F := by
  intro e c' he
  cases he
  exact ⟨ex, rfl, h⟩

theorem stopsBy_andThen {r : Reading n α} {f : α → (rest : Cursor) → rest.left < n → Reading m β}
    (hr : r.StopsBy F) (hf : ∀ a c (h : r.Gives a c), (f a c h.left_lt).StopsBy F) :
    (r.andThen f).StopsBy F := by
  cases r with
  | ok a c lt => exact hf a c rfl
  | error e c =>
    intro e' c' he
    cases he
    exact hr e c rfl

end Reading

namespace Cursor

/-! ## How a reader stops -/

inductive FailsExpr : Cursor → Expected → Cursor → Prop
  | operand {c} : (∀ t, c.token? = some t → t.operand? = none ∧ t ≠ .openParen) →
      FailsExpr c .expression c
  | inside {c ex c'} : c.token? = some .openParen → FailsExpr c.advance ex c' → FailsExpr c ex c'
  | close {c e c₁} : c.token? = some .openParen → ReadsExpr c.advance e c₁ →
      c₁.token? ≠ some .closeParen → FailsExpr c (.token .closeParen) c₁
  | literalTarget {c t e} : c.token? = some t → t.operand? = some e → (∀ name, e ≠ .ident name) →
      c.advance.token? = some .equals → FailsExpr c .endOfExpression c.advance
  | parenTarget {c e c₁} : c.token? = some .openParen → ReadsExpr c.advance e c₁ →
      c₁.token? = some .closeParen → c₁.advance.token? = some .equals →
      FailsExpr c .endOfExpression c₁.advance
  | value {c name ex c'} : c.token? = some (.ident name) → c.advance.token? = some .equals →
      FailsExpr c.advance.advance ex c' → FailsExpr c ex c'

inductive FailsNames : Cursor → Expected → Cursor → Prop
  | name {c} : (∀ name, c.token? ≠ some (.ident name)) → FailsNames c .identifier c
  | comma {c name} : c.token? = some (.ident name) → c.advance.token? ≠ some .closeParen →
      c.advance.token? ≠ some .comma → FailsNames c .commaOrCloseParen c.advance
  | more {c name ex c'} : c.token? = some (.ident name) → c.advance.token? = some .comma →
      FailsNames c.advance.advance ex c' → FailsNames c ex c'

inductive FailsParams : Cursor → Expected → Cursor → Prop
  | opening {c} : c.token? ≠ some .openParen → FailsParams c (.token .openParen) c
  | names {c ex c'} : c.token? = some .openParen → c.advance.token? ≠ some .closeParen →
      FailsNames c.advance ex c' → FailsParams c ex c'

inductive FailsDeclarators : Cursor → Expected → Cursor → Prop
  | name {c} : (∀ name, c.token? ≠ some (.ident name)) → FailsDeclarators c .identifier c
  | init {c name ex c'} : c.token? = some (.ident name) → c.advance.token? = some .equals →
      FailsExpr c.advance.advance ex c' → FailsDeclarators c ex c'
  | more {c name init c₁ ex c'} : c.token? = some (.ident name) → ReadsInit c.advance init c₁ →
      c₁.token? = some .comma → FailsDeclarators c₁.advance ex c' → FailsDeclarators c ex c'

/-- A statement may not end here. -/
structure FailsEnd (c : Cursor) : Prop where
  token : ∃ t, c.token? = some t ∧ t ≠ .semicolon ∧ t ≠ .closeBrace
  line : ¬ c.prevStop.line < c.here.line

/-- No statement but an expression starts here. -/
def AtExpr (c : Cursor) : Prop :=
  c.token? ≠ some .openBrace ∧ c.token? ≠ some .semicolon ∧ c.token? ≠ some .function ∧
    c.token? ≠ some .var

mutual
inductive FailsBlock : Cursor → Expected → Cursor → Prop
  | opening {c} : c.token? ≠ some .openBrace → FailsBlock c (.token .openBrace) (c.withQueue [])
  | inside {c ex c'} : c.token? = some .openBrace →
      FailsStmts (some .closeBrace) (c.withQueue []).advance ex c' → FailsBlock c ex c'
inductive FailsForm : Cursor → Expected → Cursor → Prop
  | block {c ex c'} : c.token? = some .openBrace → FailsBlock c ex c' → FailsForm c ex c'
  | functionName {c} : c.token? = some .function → (∀ name, c.advance.token? ≠ some (.ident name)) →
      FailsForm c .identifier c.advance
  | functionParams {c name ex c'} : c.token? = some .function →
      c.advance.token? = some (.ident name) → FailsParams c.advance.advance ex c' → FailsForm c ex c'
  | functionBody {c name names c₁ ex c'} : c.token? = some .function →
      c.advance.token? = some (.ident name) → ReadsParams c.advance.advance names c₁ →
      FailsBlock c₁ ex c' → FailsForm c ex c'
  | declarators {c ex c'} : c.token? = some .var → FailsDeclarators c.advance ex c' →
      FailsForm c ex c'
  | varEnd {c ds c₁} : c.token? = some .var → ReadsDeclarators c.advance ds c₁ → FailsEnd c₁ →
      FailsForm c (.token .semicolon) c₁
  | expr {c ex c'} : AtExpr c → FailsExpr c ex c' → FailsForm c ex c'
  | exprEnd {c e c₁} : ReadsExpr c e c₁ → FailsEnd c₁ → FailsForm c (.token .semicolon) c₁
inductive FailsStmts : Option Token → Cursor → Expected → Cursor → Prop
  | unclosed {t c} : c.token? = none → FailsStmts (some t) c (.token t) c
  | now {close c t ex c'} : c.token? = some t → close ≠ some t →
      FailsForm ((c.withQueue []).record (.readingStmt c.here c.found)) ex c' →
      FailsStmts close c ex c'
  | later {close c t s c₁ ex c'} : c.token? = some t → close ≠ some t → ReadsStmt c s c₁ →
      FailsStmts close c₁ ex c' → FailsStmts close c ex c'
end

inductive FailsHead : Cursor → Expected → Cursor → Prop
  | named {c name ex c'} : c.token? = some .function → c.advance.token? = some (.ident name) →
      FailsParams c.advance.advance ex c' → FailsHead c ex c'
  | anonymous {c ex c'} : c.token? = some .function → (∀ name, c.advance.token? ≠ some (.ident name)) →
      FailsParams c.advance ex c' → FailsHead c ex c'

end Cursor

inductive Fragment.Fails : Fragment → Cursor → Expected → Cursor → Prop
  | program {c ex c'} : c.FailsStmts none ex c' → Fails .program c ex c'
  | head {c ex c'} : c.FailsHead ex c' → Fails .function c ex c'
  | block {c c₁ ex c'} : c.ReadsHead c₁ → (c₁.withQueue []).FailsBlock ex c' → Fails .function c ex c'
  | behind {c c₁ b c₂ t} : c.ReadsHead c₁ → (c₁.withQueue []).ReadsBlock b c₂ → c₂.token? = some t →
      Fails .function c .endOfInput c₂

/-! ## Single tokens -/

namespace Cursor

open Reading

variable {c c₁ c' : Cursor} {ex : Expected} {F : Expected → Cursor → Prop}

theorem stopsBy_expect {t : Token} (h : c.token? ≠ some t → F (.token t) c) :
    (c.expect t).StopsBy F := by
  unfold expect
  split
  · exact stopsBy_ok
  · exact stopsBy_error (h ‹_›)

theorem gives_expect_of {t : Token} (h : c.token? = some t) : (c.expect t).Gives () c.advance :=
  gives_expect.mpr ⟨h, rfl⟩

theorem fails_expect {t : Token} (h : c.token? ≠ some t) : (c.expect t).Fails (.token t) c := by
  unfold expect
  rw [dif_neg h]
  exact fails_error _ _

theorem stopsBy_identifier (h : (∀ name, c.token? ≠ some (.ident name)) → F .identifier c) :
    c.identifier.StopsBy F := by
  unfold identifier
  split
  · exact stopsBy_ok
  · exact stopsBy_error (h ‹_›)

theorem fails_identifier (h : ∀ name, c.token? ≠ some (.ident name)) :
    c.identifier.Fails .identifier c := by
  unfold identifier
  split
  · exact absurd ‹_› (h _)
  · exact fails_error _ _

/-! ## Expressions -/

theorem stopsBy_operators_of_eq {least : Nat} {lhs : Expr} (heq : c.token? = some .equals)
    (hleast : least ≤ 3) (htarget : (∀ name, lhs ≠ .ident name) → F .endOfExpression c)
    (hvalue : ∀ name, lhs = .ident name → (c.advance.exprAbove 2).StopsBy F) :
    (c.operators least lhs).StopsBy F := by
  rw [operators]
  split
  · exact stopsBy_ok
  · rename_i t ht
    obtain rfl : t = .equals := by simpa [heq] using ht.symm
    simp only [Token.bindingPower?, if_neg (Nat.not_lt.mpr hleast)]
    split
    · refine stopsBy_andThen (hvalue _ rfl) fun value c₁ hread => ?_
      refine stopsBy_andThen ?_ fun _ _ _ => stopsBy_ok
      -- behind the value there is no equals sign, and the operators end
      have hend := (reads_of_gives_exprAbove (by omega) hread).token?_ne_equals
      exact stopsBy_of_gives ((gives_operators_of_ne hend).mpr ⟨rfl, rfl⟩)
    · exact stopsBy_error (htarget ‹_›)

theorem stopsBy_exprAbove {c : Cursor} {least : Nat} (hleast : least ≤ 3) :
    (c.exprAbove least).StopsBy c.FailsExpr := by
  rw [exprAbove]
  refine stopsBy_andThen ?_ fun lhs c₁ hlhs => stopsBy_andThen ?_ fun _ _ _ => stopsBy_ok
  · unfold operand
    split
    case h_7 hopen =>
      have hlt := left_advance_lt hopen
      have hinner : (c.advance.exprAbove 0).StopsBy c.advance.FailsExpr := stopsBy_exprAbove (by omega)
      refine stopsBy_andThen (hinner.imp fun _ _ => .inside hopen) fun inner c₁ hread => ?_
      have hread := reads_of_gives_exprAbove (by omega) hread
      exact stopsBy_andThen (stopsBy_expect (.close hopen hread)) fun _ _ _ => stopsBy_ok
    case h_8 =>
      refine stopsBy_error (.operand fun t ht => ?_)
      cases t <;> simp_all [Token.operand?]
    all_goals exact stopsBy_ok
  · have hlt := hlhs.left_lt
    by_cases heq : c₁.token? = some .equals
    · have hadv := left_advance_lt heq
      have hoperand := gives_operand.mp hlhs
      refine stopsBy_operators_of_eq heq hleast (fun hne => ?_) fun name hname => ?_
      · rcases hoperand with ⟨t, ht, hop, rfl⟩ | ⟨hopen, inner, c₂, hin, hclose, rfl, rfl⟩
        · exact .literalTarget ht hop hne heq
        · exact .parenTarget hopen (reads_of_gives_exprAbove (by omega) hin) hclose heq
      · subst hname
        have hvalue : (c₁.advance.exprAbove 2).StopsBy c₁.advance.FailsExpr :=
          stopsBy_exprAbove (by omega)
        rcases hoperand with ⟨t, ht, hop, rfl⟩ | ⟨-, inner, c₂, -, -, hne, -⟩
        · obtain rfl : t = .ident name := by cases t <;> simp_all [Token.operand?]
          exact hvalue.imp fun _ _ => .value ht heq
        · cases hne
    · exact stopsBy_of_gives ((gives_operators_of_ne heq).mpr ⟨rfl, rfl⟩)
termination_by c.left

theorem fails_operand (h : ∀ t, c.token? = some t → t.operand? = none ∧ t ≠ .openParen) :
    c.operand.Fails .expression c := by
  unfold operand
  split
  case h_8 => exact fails_error _ _
  all_goals
    rename_i ht
    simp [Token.operand?] at h ht ⊢
    simp_all

theorem fails_operand_paren (hopen : c.token? = some .openParen)
    (h : (c.advance.exprAbove 0).Fails ex c' ∨
      ∃ inner, (c.advance.exprAbove 0).Gives inner c' ∧ c'.token? ≠ some .closeParen ∧
        ex = .token .closeParen) : c.operand.Fails ex c' := by
  unfold operand
  split
  case h_7 =>
    rcases h with h | ⟨inner, hread, hne, rfl⟩
    · exact fails_andThen_left h
    · exact fails_andThen_right hread (fails_andThen_left (fails_expect hne))
  case h_8 => simp_all
  all_goals
    rename_i ht
    rw [hopen] at ht
    cases ht

theorem fails_operators {least : Nat} {lhs : Expr} (heq : c.token? = some .equals) (hleast : least ≤ 3)
    (h : ((∀ name, lhs ≠ .ident name) ∧ ex = .endOfExpression ∧ c' = c) ∨
      ∃ name, lhs = .ident name ∧ (c.advance.exprAbove 2).Fails ex c') :
    (c.operators least lhs).Fails ex c' := by
  rw [operators]
  split
  · simp_all
  · rename_i t ht
    obtain rfl : t = .equals := by simpa [heq] using ht.symm
    simp only [Token.bindingPower?, if_neg (Nat.not_lt.mpr hleast)]
    rcases h with ⟨hne, rfl, rfl⟩ | ⟨name, rfl, h⟩
    · split
      · exact absurd rfl (hne _)
      · exact fails_error _ _
    · exact fails_andThen_left h

theorem FailsExpr.fails (h : c.FailsExpr ex c') : ∀ least ≤ 3, (c.exprAbove least).Fails ex c' := by
  induction h with
  | operand hnone =>
    intro least _
    rw [exprAbove]
    exact fails_andThen_left (fails_operand hnone)
  | inside hopen _ ih =>
    intro least _
    rw [exprAbove]
    exact fails_andThen_left (fails_operand_paren hopen (.inl (ih 0 (by omega))))
  | close hopen hread hne =>
    intro least _
    rw [exprAbove]
    refine fails_andThen_left (fails_operand_paren hopen (.inr ⟨_, hread.gives 0 (by omega), hne, rfl⟩))
  | literalTarget ht hop hne heq =>
    intro least hleast
    rw [exprAbove]
    refine fails_andThen_right (gives_operand.mpr (.inl ⟨_, ht, hop, rfl⟩)) (fails_andThen_left ?_)
    exact fails_operators heq hleast (.inl ⟨hne, rfl, rfl⟩)
  | parenTarget hopen hread hclose heq =>
    intro least hleast
    have hin := hread.gives 0 (by omega)
    rw [exprAbove]
    refine fails_andThen_right (gives_operand.mpr (.inr ⟨hopen, _, _, hin, hclose, rfl, rfl⟩))
      (fails_andThen_left ?_)
    exact fails_operators heq hleast (.inl ⟨by simp, rfl, rfl⟩)
  | value hname heq _ ih =>
    intro least hleast
    rw [exprAbove]
    refine fails_andThen_right (gives_operand.mpr (.inl ⟨_, hname, rfl, rfl⟩)) (fails_andThen_left ?_)
    exact fails_operators heq hleast (.inr ⟨_, rfl, ih 2 (by omega)⟩)

/-! ## Parts of statements -/

theorem stopsBy_paramNames {c : Cursor} : c.paramNames.StopsBy c.FailsNames := by
  rw [paramNames]
  refine stopsBy_andThen (stopsBy_identifier .name) fun name c₁ hread => ?_
  obtain ⟨hname, rfl⟩ := gives_identifier.mp hread
  have hlt := left_advance_lt hname
  split
  · exact stopsBy_ok
  · rename_i hcomma
    have hlt' := left_advance_lt hcomma
    refine stopsBy_andThen (stopsBy_paramNames.imp fun _ _ => .more hname hcomma) fun _ _ _ => stopsBy_ok
  · exact stopsBy_error (.comma hname ‹_› ‹_›)
termination_by c.left

theorem FailsNames.fails (h : c.FailsNames ex c') : c.paramNames.Fails ex c' := by
  induction h with
  | name hne =>
    rw [paramNames]
    exact fails_andThen_left (fails_identifier hne)
  | comma hname hclose hcomma =>
    rw [paramNames]
    refine fails_andThen_right (gives_identifier.mpr ⟨hname, rfl⟩) ?_
    split
    · exact absurd ‹_› hclose
    · exact absurd ‹_› hcomma
    · exact fails_error _ _
  | more hname hcomma _ ih =>
    rw [paramNames]
    refine fails_andThen_right (gives_identifier.mpr ⟨hname, rfl⟩) ?_
    split
    · simp_all
    · exact fails_andThen_left ih
    · exact absurd hcomma ‹_›

theorem stopsBy_params : c.params.StopsBy c.FailsParams := by
  unfold params
  refine stopsBy_andThen (stopsBy_expect .opening) fun _ c₁ hread => ?_
  obtain ⟨hopen, rfl⟩ := gives_expect.mp hread
  split
  · exact stopsBy_ok
  · rename_i hne
    exact stopsBy_andThen (stopsBy_paramNames.imp fun _ _ => .names hopen hne) fun _ _ _ => stopsBy_ok

theorem FailsParams.fails (h : c.FailsParams ex c') : c.params.Fails ex c' := by
  unfold params
  cases h with
  | opening hne => exact fails_andThen_left (fails_expect hne)
  | names hopen hne hnames =>
    refine fails_andThen_right (gives_expect_of hopen) ?_
    split
    · exact absurd ‹_› hne
    · exact fails_andThen_left hnames.fails

theorem stopsBy_declarators {c : Cursor} : c.declarators.StopsBy c.FailsDeclarators := by
  rw [declarators]
  refine stopsBy_andThen (stopsBy_identifier .name) fun name c₁ hread => ?_
  obtain ⟨hname, rfl⟩ := gives_identifier.mp hread
  have hlt := left_advance_lt hname
  refine stopsBy_andThen ?_ fun init c₂ hinit => ?_
  · unfold initializer
    split
    · rename_i heq
      refine stopsBy_andThen ?_ fun _ _ _ => stopsBy_ok
      exact (stopsBy_exprAbove (by omega)).imp fun _ _ => .init hname heq
    · exact stopsBy_ok
  · have hlt₂ := hinit.left_lt
    split
    · rename_i hcomma
      have hlt₃ := left_advance_lt hcomma
      have hinit := gives_initializer_iff.mp hinit
      exact stopsBy_andThen (stopsBy_declarators.imp fun _ _ => .more hname hinit hcomma)
        fun _ _ _ => stopsBy_ok
    · exact stopsBy_ok
termination_by c.left

theorem FailsDeclarators.fails (h : c.FailsDeclarators ex c') : c.declarators.Fails ex c' := by
  induction h with
  | name hne =>
    rw [declarators]
    exact fails_andThen_left (fails_identifier hne)
  | init hname heq hexpr =>
    rw [declarators]
    refine fails_andThen_right (gives_identifier.mpr ⟨hname, rfl⟩) (fails_andThen_left ?_)
    unfold initializer
    split
    · exact fails_andThen_left (hexpr.fails 0 (by omega))
    · exact absurd heq ‹_›
  | more hname hinit hcomma _ ih =>
    rw [declarators]
    refine fails_andThen_right (gives_identifier.mpr ⟨hname, rfl⟩)
      (fails_andThen_right (gives_initializer_iff.mpr hinit) ?_)
    split
    · exact fails_andThen_left ih
    · exact absurd hcomma ‹_›

theorem stopsBy_terminator (h : c.FailsEnd → F (.token .semicolon) c) : c.terminator.StopsBy F := by
  unfold terminator
  split
  · exact stopsBy_ok
  · exact stopsBy_ok
  · exact stopsBy_ok
  · rename_i t hsemi hclose ht
    split
    · exact stopsBy_ok
    · exact stopsBy_error (h ⟨⟨t, ht, hsemi, hclose⟩, ‹_›⟩)

theorem FailsEnd.fails (h : c.FailsEnd) : c.terminator.Fails (.token .semicolon) c := by
  obtain ⟨⟨t, ht, hsemi, hclose⟩, hline⟩ := h
  unfold terminator
  split
  · simp_all
  · simp_all
  · simp_all
  · rw [if_neg hline]
    exact fails_error _ _

/-! ## Statements and blocks -/

mutual
theorem stopsBy_block {c : Cursor} : c.block.StopsBy c.FailsBlock := by
  rw [block]
  refine stopsBy_andThen (stopsBy_expect fun hne => .opening hne) fun _ c₁ hread => ?_
  obtain ⟨hopen, rfl⟩ := gives_expect.mp hread
  have hlt : (c.withQueue []).advance.left < c.left := left_advance_lt hopen
  refine stopsBy_andThen (stopsBy_stmts.imp fun _ _ => .inside hopen) fun ss c₂ hss => ?_
  -- statements that end where they should have the closing brace behind them
  have hclose := (gives_stmts_iff.mp hss).token?_eq
  exact stopsBy_andThen (stopsBy_expect fun hne => absurd hclose hne) fun _ _ _ => stopsBy_ok
termination_by (c.left, 0)

theorem stopsBy_form {c : Cursor} : c.form.StopsBy c.FailsForm := by
  rw [form]
  split
  · rename_i hopen
    exact stopsBy_andThen (stopsBy_block.imp fun _ _ => .block hopen) fun _ _ _ => stopsBy_ok
  · exact stopsBy_ok
  · rename_i hfun
    have hlt := left_advance_lt hfun
    refine stopsBy_andThen (stopsBy_identifier (.functionName hfun)) fun name c₁ hread => ?_
    obtain ⟨hname, rfl⟩ := gives_identifier.mp hread
    have hlt₁ := left_advance_lt hname
    refine stopsBy_andThen (stopsBy_params.imp fun _ _ => .functionParams hfun hname)
      fun names c₂ hnames => ?_
    have hlt₂ := hnames.left_lt
    have hnames := gives_params_iff.mp hnames
    exact stopsBy_andThen (stopsBy_block.imp fun _ _ => .functionBody hfun hname hnames)
      fun _ _ _ => stopsBy_ok
  · rename_i hvar
    refine stopsBy_andThen (stopsBy_declarators.imp fun _ _ => .declarators hvar)
      fun ds c₁ hds => ?_
    have hds := gives_declarators_iff.mp hds
    exact stopsBy_andThen (stopsBy_terminator (.varEnd hvar hds)) fun _ _ _ => stopsBy_ok
  · rename_i h₁ h₂ h₃ h₄
    refine stopsBy_andThen ((stopsBy_exprAbove (by omega)).imp fun _ _ => .expr ⟨h₁, h₂, h₃, h₄⟩)
      fun e c₁ he => ?_
    have he := gives_expr_iff.mp he
    exact stopsBy_andThen (stopsBy_terminator (.exprEnd he)) fun _ _ _ => stopsBy_ok
termination_by (c.left, 1)

theorem stopsBy_stmt {c : Cursor} : c.stmt.StopsBy
    (FailsForm ((c.withQueue []).record (.readingStmt c.here c.found))) := by
  rw [stmt]
  exact stopsBy_andThen stopsBy_form fun _ _ _ => stopsBy_ok
termination_by (c.left, 2)

theorem stopsBy_stmts {close : Option Token} {c : Cursor} :
    (c.stmts close).StopsBy (c.FailsStmts close) := by
  rw [stmts.eq_def]
  cases ht : c.token? with
  | none =>
    cases close with
    | none => exact stopsBy_ok
    | some t => exact stopsBy_error (.unclosed ht)
  | some t =>
    simp only
    split
    · exact stopsBy_ok
    · rename_i hclose
      refine stopsBy_andThen (stopsBy_stmt.imp fun _ _ => .now ht hclose) fun s c₁ hs => ?_
      have hlt := hs.left_lt
      have hs := reads_of_gives_stmt hs
      exact stopsBy_andThen (stopsBy_stmts.imp fun _ _ => .later ht hclose hs) fun _ _ _ => stopsBy_ok
termination_by (c.left, 3)
end

mutual
theorem FailsBlock.fails {c c' : Cursor} {ex : Expected} (h : c.FailsBlock ex c') :
    c.block.Fails ex c' := by
  rw [block]
  match h with
  | .opening hne => exact fails_andThen_left (fails_expect hne)
  | .inside hopen hss =>
    have hread := gives_expect_of (c := c.withQueue []) hopen
    exact fails_andThen_right hread (fails_andThen_left hss.fails)

theorem FailsForm.fails {c c' : Cursor} {ex : Expected} (h : c.FailsForm ex c') :
    c.form.Fails ex c' := by
  rw [form]
  match h with
  | .block hopen hb =>
    have hfails := hb.fails
    split
    case h_1 => exact fails_andThen_left hfails
    all_goals simp_all
  | .functionName hfun hne =>
    split
    case h_3 => exact fails_andThen_left (fails_identifier hne)
    all_goals simp_all
  | .functionParams hfun hname hparams =>
    split
    case h_3 =>
      exact fails_andThen_right (gives_identifier.mpr ⟨hname, rfl⟩) (fails_andThen_left hparams.fails)
    all_goals simp_all
  | .functionBody hfun hname hparams hb =>
    have hfails := hb.fails
    split
    case h_3 =>
      refine fails_andThen_right (gives_identifier.mpr ⟨hname, rfl⟩) ?_
      exact fails_andThen_right (gives_params_iff.mpr hparams) (fails_andThen_left hfails)
    all_goals simp_all
  | .declarators hvar hds =>
    split
    case h_4 => exact fails_andThen_left hds.fails
    all_goals simp_all
  | .varEnd hvar hds hend =>
    split
    case h_4 =>
      exact fails_andThen_right (gives_declarators_iff.mpr hds) (fails_andThen_left hend.fails)
    all_goals simp_all
  | .expr hat he =>
    obtain ⟨h₁, h₂, h₃, h₄⟩ := hat
    split
    case h_5 => exact fails_andThen_left (he.fails 0 (by omega))
    all_goals simp_all
  | .exprEnd he hend =>
    obtain ⟨h₁, h₂, h₃, h₄⟩ := he.token?_ne
    split
    case h_5 => exact fails_andThen_right (gives_expr_iff.mpr he) (fails_andThen_left hend.fails)
    all_goals simp_all

theorem FailsStmts.fails {close : Option Token} {c c' : Cursor} {ex : Expected}
    (h : c.FailsStmts close ex c') : (c.stmts close).Fails ex c' := by
  rw [stmts.eq_def]
  match h with
  | .unclosed ht =>
    simp only [ht]
    exact fails_error _ _
  | .now ht hclose hf =>
    have hfails := hf.fails
    simp only [ht, if_neg hclose]
    refine fails_andThen_left ?_
    rw [stmt]
    exact fails_andThen_left hfails
  | .later ht hclose hs hss =>
    have hfails := hss.fails
    simp only [ht, if_neg hclose]
    exact fails_andThen_right hs.gives (fails_andThen_left hfails)
end

/-! ## Whole texts -/

theorem stopsBy_literalHead : c.literalHead.StopsBy c.FailsHead := by
  unfold literalHead
  split
  · rename_i hfun
    split
    · rename_i hname
      exact stopsBy_andThen (stopsBy_params.imp fun _ _ => .named hfun hname) fun _ _ _ => stopsBy_ok
    · rename_i hne
      exact stopsBy_andThen (stopsBy_params.imp fun _ _ => .anonymous hfun hne) fun _ _ _ => stopsBy_ok
  · exact stopsBy_ok

theorem FailsHead.fails (h : c.FailsHead ex c') : c.literalHead.Fails ex c' := by
  unfold literalHead
  cases h with
  | named hfun hname hparams =>
    split
    · split
      · exact fails_andThen_left hparams.fails
      · rename_i hne
        exact absurd hname (hne _)
    · exact absurd hfun ‹_›
  | anonymous hfun hne hparams =>
    split
    · split
      · exact absurd ‹_› (hne _)
      · exact fails_andThen_left hparams.fails
    · exact absurd hfun ‹_›

/-! ## Readers move forward -/

/-- What a reader can do to a cursor: pass tokens, and touch the queue and the journal. -/
inductive Moves (c : Cursor) : Cursor → Prop
  | refl : Moves c c
  | advance {d : Cursor} : Moves c d → Moves c d.advance
  | withQueue {d : Cursor} (q) : Moves c d → Moves c (d.withQueue q)
  | record {d : Cursor} (r) : Moves c d → Moves c (d.record r)

theorem Moves.trans (h₁ : c.Moves c₁) (h₂ : c₁.Moves c') : c.Moves c' := by
  induction h₂ with
  | refl => exact h₁
  | advance _ ih => exact ih.advance
  | withQueue q _ ih => exact ih.withQueue q
  | record r _ ih => exact ih.record r

theorem Moves.textStop_eq (h : c.Moves c') : c'.textStop = c.textStop := by
  induction h with
  | refl => rfl
  | @advance c₁ _ ih =>
    rw [← ih]
    unfold Cursor.advance
    split <;> rfl
  | withQueue q _ ih => exact ih
  | record r _ ih => exact ih

theorem Moves.ahead_eq (h : c.Moves c') : ∃ us, c.ahead = us ++ c'.ahead := by
  induction h with
  | refl => exact ⟨[], rfl⟩
  | @advance c₁ _ ih =>
    obtain ⟨us, hus⟩ := ih
    unfold Cursor.advance
    cases hc : c₁.ahead with
    | nil => exact ⟨us, by rw [hus, hc]⟩
    | cons p ps => exact ⟨us ++ [p], by simp [hus, hc]⟩
  | withQueue q _ ih => exact ih
  | record r _ ih => exact ih

theorem Moves.left_le (h : c.Moves c') : c'.left ≤ c.left := by
  obtain ⟨us, hus⟩ := h.ahead_eq
  unfold left
  rw [hus, List.length_append]
  exact Nat.le_add_left ..

theorem moves_advance (c : Cursor) : c.Moves c.advance := .advance .refl

theorem moves_advance₂ (c : Cursor) : c.Moves c.advance.advance := .advance (.advance .refl)

theorem ReadsExpr.moves {e : Expr} (h : c.ReadsExpr e c') : c.Moves c' := by
  induction h with
  | operand _ _ _ => exact moves_advance _
  | paren _ _ _ _ ih => exact (moves_advance _).trans ih.advance
  | assign _ _ _ ih => exact (moves_advance₂ _).trans ih

theorem ReadsNames.moves {names : List String} (h : c.ReadsNames names c') : c.Moves c' := by
  induction h with
  | last _ _ => exact moves_advance₂ _
  | more _ _ _ ih => exact (moves_advance₂ _).trans ih

theorem ReadsParams.moves {names : List String} (h : c.ReadsParams names c') : c.Moves c' := by
  cases h with
  | none _ _ => exact moves_advance₂ _
  | some _ hnames => exact (moves_advance _).trans hnames.moves

theorem ReadsInit.moves {init : Option Expr} (h : c.ReadsInit init c') : c.Moves c' := by
  cases h with
  | none _ => exact .refl
  | some _ he => exact (moves_advance _).trans he.moves

theorem ReadsDeclarators.moves {ds : List Declarator} (h : c.ReadsDeclarators ds c') :
    c.Moves c' := by
  induction h with
  | last _ hinit _ => exact (moves_advance _).trans hinit.moves
  | more _ hinit _ _ ih => exact (moves_advance _).trans (hinit.moves.advance.trans ih)

theorem ReadsEnd.moves (h : c.ReadsEnd c') : c.Moves c' := by
  cases h with
  | semicolon _ => exact moves_advance _
  | _ => exact .refl

/-- The cursor from which a statement is read. -/
theorem moves_owning (c : Cursor) (r : Record) : c.Moves ((c.withQueue []).record r) :=
  (Moves.withQueue [] .refl).record r

mutual
theorem ReadsBlock.moves {c c' : Cursor} {b : Body} (h : c.ReadsBlock b c') : c.Moves c' := by
  match h with
  | .braces _ hss _ hc =>
    have hopen : c.Moves (c.withQueue []).advance := (Moves.withQueue [] .refl).advance
    subst hc
    exact ((hopen.trans hss.moves).withQueue []).advance.withQueue _

theorem ReadsForm.moves {c c' : Cursor} {f : Form} (h : c.ReadsForm f c') : c.Moves c' := by
  match h with
  | .block hb => exact hb.moves
  | .empty _ => exact moves_advance c
  | .function _ _ hnames hb => exact (moves_advance₂ c).trans (hnames.moves.trans hb.moves)
  | .var _ hds hend => exact (moves_advance c).trans (hds.moves.trans hend.moves)
  | .expr he hend => exact he.moves.trans hend.moves

theorem ReadsStmt.moves {c c' : Cursor} {s : Stmt} (h : c.ReadsStmt s c') : c.Moves c' := by
  match h with
  | .owning hf _ => exact ((moves_owning c _).trans hf.moves).withQueue _

theorem ReadsStmts.moves {close : Option Token} {c c' : Cursor} {ss : List Stmt}
    (h : c.ReadsStmts close ss c') : c.Moves c' := by
  match h with
  | .nil _ => exact .refl
  | .cons _ _ hs hss => exact hs.moves.trans hss.moves
end

theorem ReadsHead.moves (h : c.ReadsHead c') : c.Moves c' := by
  cases h with
  | bare _ => exact .refl
  | named _ _ hnames => exact ((moves_advance₂ c).trans hnames.moves).record _
  | anonymous _ hnames => exact ((moves_advance c).trans hnames.moves).record _

theorem FailsExpr.moves (h : c.FailsExpr ex c') : c.Moves c' := by
  induction h with
  | operand _ => exact .refl
  | inside _ _ ih => exact (moves_advance _).trans ih
  | close _ he _ => exact (moves_advance _).trans he.moves
  | literalTarget _ _ _ _ => exact moves_advance _
  | parenTarget _ he _ _ => exact (moves_advance _).trans he.moves.advance
  | value _ _ _ ih => exact (moves_advance₂ _).trans ih

theorem FailsNames.moves (h : c.FailsNames ex c') : c.Moves c' := by
  induction h with
  | name _ => exact .refl
  | comma _ _ _ => exact moves_advance _
  | more _ _ _ ih => exact (moves_advance₂ _).trans ih

theorem FailsParams.moves (h : c.FailsParams ex c') : c.Moves c' := by
  cases h with
  | opening _ => exact .refl
  | names _ _ hnames => exact (moves_advance _).trans hnames.moves

theorem FailsDeclarators.moves (h : c.FailsDeclarators ex c') : c.Moves c' := by
  induction h with
  | name _ => exact .refl
  | init _ _ he => exact (moves_advance₂ _).trans he.moves
  | more _ hinit _ _ ih => exact (moves_advance _).trans (hinit.moves.advance.trans ih)

mutual
theorem FailsBlock.moves {c c' : Cursor} {ex : Expected} (h : c.FailsBlock ex c') : c.Moves c' := by
  match h with
  | .opening _ => exact .withQueue [] .refl
  | .inside _ hss => exact (Moves.withQueue [] .refl).advance.trans hss.moves

theorem FailsForm.moves {c c' : Cursor} {ex : Expected} (h : c.FailsForm ex c') : c.Moves c' := by
  match h with
  | .block _ hb => exact hb.moves
  | .functionName _ _ => exact moves_advance c
  | .functionParams _ _ hparams => exact (moves_advance₂ c).trans hparams.moves
  | .functionBody _ _ hnames hb => exact (moves_advance₂ c).trans (hnames.moves.trans hb.moves)
  | .declarators _ hds => exact (moves_advance c).trans hds.moves
  | .varEnd _ hds _ => exact (moves_advance c).trans hds.moves
  | .expr _ he => exact he.moves
  | .exprEnd he _ => exact he.moves

theorem FailsStmts.moves {close : Option Token} {c c' : Cursor} {ex : Expected}
    (h : c.FailsStmts close ex c') : c.Moves c' := by
  match h with
  | .unclosed _ => exact .refl
  | .now _ _ hf => exact (moves_owning c _).trans hf.moves
  | .later _ _ hs hss => exact hs.moves.trans hss.moves
end

theorem FailsHead.moves (h : c.FailsHead ex c') : c.Moves c' := by
  cases h with
  | named _ _ hparams => exact (moves_advance₂ c).trans hparams.moves
  | anonymous _ _ hparams => exact (moves_advance c).trans hparams.moves

end Cursor

/-! ## Fragments -/

namespace Fragment

open Reading Cursor

variable {f : Fragment} {c c' : Cursor} {ex : Expected}

theorem Fails.read (h : f.Fails c ex c') : f.read c = .error (c'.unexpected ex) c' := by
  cases h with
  | program hss => exact fails_andThen_left hss.fails
  | head hhead => exact fails_andThen_left hhead.fails
  | block hhead hb =>
    exact fails_andThen_right (a := ()) (gives_literalHead_iff.mpr hhead) (fails_andThen_left hb.fails)
  | behind hhead hb ht =>
    refine fails_andThen_right (a := ()) (gives_literalHead_iff.mpr hhead)
      (fails_andThen_right (gives_block_iff.mpr hb) ?_)
    split
    · exact fails_error _ _
    · simp_all

theorem fails_of_read {e : ParseError} (h : f.read c = .error e c') :
    ∃ ex, e = c'.unexpected ex ∧ f.Fails c ex c' := by
  cases f with
  | program =>
    have hstops : c.program.StopsBy (Fails .program c) := by
      unfold Cursor.program
      exact stopsBy_andThen (stopsBy_stmts.imp fun _ _ => .program) fun _ _ _ => stopsBy_ok
    exact hstops e c' h
  | function =>
    have hstops : c.functionBody.StopsBy (Fails .function c) := by
      unfold functionBody
      refine stopsBy_andThen (stopsBy_literalHead.imp fun _ _ => .head) fun _ c₁ hhead => ?_
      have hhead := gives_literalHead_iff.mp hhead
      refine stopsBy_andThen (stopsBy_block.imp fun _ _ => .block hhead) fun b c₂ hb => ?_
      split
      · exact stopsBy_error (.behind hhead (gives_block_iff.mp hb) ‹_›)
      · exact stopsBy_ok
    exact hstops e c' h

theorem Fails.moves (h : f.Fails c ex c') : c.Moves c' := by
  cases h with
  | program hss => exact hss.moves
  | head hhead => exact hhead.moves
  | block hhead hb => exact (hhead.moves.withQueue []).trans hb.moves
  | behind hhead hb _ => exact (hhead.moves.withQueue []).trans hb.moves

theorem parse_eq_error_iff {text : String} {ls : List (Located Lexeme)} {e : ParseError}
    (hls : tokenize text = .ok ls) :
    f.parse text = .error (.parse e) ↔
      ∃ ex c', e = c'.unexpected ex ∧ f.Fails (Cursor.start text ls) ex c' := by
  unfold parse parseLogged
  rw [Cursor.ofText_eq, hls]
  simp only [Except.map]
  constructor
  · intro h
    cases hread : f.read (Cursor.start text ls) with
    | ok b c' => simp [hread] at h
    | error e' c' =>
      simp only [hread, Except.error.injEq, SyntaxError.parse.injEq] at h
      subst h
      obtain ⟨ex, he, hfails⟩ := fails_of_read hread
      exact ⟨ex, c', he, hfails⟩
  · intro h
    obtain ⟨ex, c', rfl, hfails⟩ := h
    rw [hfails.read]

end Fragment

end Reprint
