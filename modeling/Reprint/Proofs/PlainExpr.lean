import Reprint.Proofs.Failure
import Reprint.Proofs.Grammar

/-!
# Expressions without binding powers

The plain reader has neither binding powers nor a loop: behind an operand it looks once for an equals
sign, and the rest of the expression is the value. Reading by binding power is reading plainly
(`expr_eq_plain`), on success and on every kind of error: the only operator holds its left operand
with the power three, which no limit that is asked for exceeds, and a value never stops in front of
an equals sign, so that the operators behind an operand are one at most.
-/

namespace Reprint

/-! ## The tokens of an expression -/

def Expr.tokens : Expr → List Token
  | .number n => [.number n]
  | .bool b => [.bool b]
  | .null => [.null]
  | .string raw => [.string raw]
  | .ident name => [.ident name]
  | .this => [.this]
  | .paren inner => .openParen :: (inner.tokens ++ [.closeParen])
  | .assign target value => .ident target :: .equals :: value.tokens

/-- Names with an equals sign behind each. -/
def targets (names : List String) : List Token := names.flatMap fun name => [.ident name, .equals]

theorem tokens_foldr_assign (names : List String) (value : Expr) :
    (names.foldr .assign value).tokens = targets names ++ value.tokens := by
  induction names with
  | nil => rfl
  | cons name names ih => simp [targets, Expr.tokens, ih]

theorem Token.tokens_of_operand? {t : Token} {e : Expr} (h : t.operand? = some e) : e.tokens = [t] := by
  cases t <;> cases h <;> rfl

theorem derivesExpr_of_tokens {e : Expr} {ts : List (Located Token)}
    (h : ts.map Located.value = e.tokens) : DerivesExpr ts e := by
  induction e generalizing ts with
  | paren inner ih =>
    obtain ⟨l, us, rfl, hl, hus⟩ := List.map_eq_cons_iff.mp h
    obtain ⟨vs, rs, rfl, hvs, hrs⟩ := List.map_eq_append_iff.mp hus
    obtain ⟨r, rfl, hr⟩ := List.map_eq_singleton_iff.mp hrs
    exact .paren hl (ih hvs) hr
  | assign target value ih =>
    obtain ⟨t, us, rfl, ht, hus⟩ := List.map_eq_cons_iff.mp h
    obtain ⟨eq, vs, rfl, heq, hvs⟩ := List.map_eq_cons_iff.mp hus
    exact .assign ht heq (ih hvs)
  | _ =>
    obtain ⟨t, rfl, ht⟩ := List.map_eq_singleton_iff.mp h
    exact .operand (by rw [ht]; rfl)

theorem Reading.eq_of_outcome_eq {n : Nat} {α : Type} {r s : Reading n α}
    (h : r.outcome = s.outcome) : r = s := by
  cases r <;> cases s <;> simp_all [outcome]

namespace Cursor

open Reading

/-! ## The plain reader -/

mutual
/-- A literal, an identifier, `this`, or a plain expression in parentheses. -/
def primary (c : Cursor) : Reading c.left Expr :=
  match h : c.token? with
  | some .openParen =>
    have hlt := left_advance_lt h
    (plain c.advance).andThen fun inner c₁ h₁ =>
    (c₁.expect .closeParen).andThen fun _ c₂ h₂ =>
    .ok (.paren inner) c₂ (by omega)
  | some t =>
    match t.operand? with
    | some e => .ok e c.advance (left_advance_lt h)
    | none => .error (c.unexpected .expression) c
  | none => .error (c.unexpected .expression) c
termination_by (c.left, 0)

/-- A primary, or a name with an equals sign and a plain expression behind it. -/
def plain (c : Cursor) : Reading c.left Expr :=
  (primary c).andThen fun lhs c₁ h₁ =>
  match h : c₁.token? with
  | some .equals =>
    match lhs with
    | .ident target =>
      have hlt := left_advance_lt h
      (plain c₁.advance).andThen fun value c₂ h₂ =>
      .ok (.assign target value) c₂ (by omega)
    | _ => .error (c₁.unexpected .endOfExpression) c₁
  | _ => .ok lhs c₁ h₁
termination_by (c.left, 1)
end

variable {c c' : Cursor}

theorem operand_eq_primary (h : c.token? = some .openParen → c.advance.exprAbove 0 = c.advance.plain) :
    c.operand = c.primary := by
  rw [operand, primary]
  split
  case h_7 hopen =>
    split
    · simp only [h hopen]
    · rename_i t hne ht
      exact absurd (Option.some.inj (ht.symm.trans hopen)) hne
    · rename_i hnone
      cases hopen.symm.trans hnone
  case h_8 =>
    split
    · simp_all
    · rename_i t _ ht
      have hnone : t.operand? = none := by cases t <;> simp_all [Token.operand?]
      simp only [hnone]
    · rfl
  all_goals
    rename_i ht
    split
    · rename_i hopen
      cases ht.symm.trans hopen
    · rename_i t _ ht'
      obtain rfl := Option.some.inj (ht.symm.trans ht')
      rfl
    · rename_i hnone
      cases ht.symm.trans hnone

theorem operators_of_ne {least : Nat} {lhs : Expr} (h : c.token? ≠ some .equals) :
    c.operators least lhs = .ok lhs c (Nat.lt_succ_self _) :=
  eq_of_outcome_eq ((gives_operators_of_ne h).mpr ⟨rfl, rfl⟩)

theorem operators_of_no_target {least : Nat} {lhs : Expr} (heq : c.token? = some .equals)
    (hleast : least ≤ 3) (hne : ∀ name, lhs ≠ .ident name) :
    c.operators least lhs = .error (c.unexpected .endOfExpression) c :=
  eq_of_outcome_eq (fails_operators heq hleast (.inl ⟨hne, rfl, rfl⟩))

/-- The loop over the operators behind a name ends with its first turn. -/
theorem operators_of_target {least : Nat} {target : String} (heq : c.token? = some .equals)
    (hleast : least ≤ 3) : (c.operators least (.ident target)).outcome =
      (c.advance.exprAbove 2).outcome.map (.assign target) := by
  rw [operators]
  split
  · rename_i hnone
    cases heq.symm.trans hnone
  · rename_i t ht
    obtain rfl : t = .equals := Option.some.inj (ht.symm.trans heq)
    simp only [Token.bindingPower?, if_neg (Nat.not_lt.mpr hleast)]
    cases hvalue : c.advance.exprAbove 2 with
    | ok value c₁ lt =>
      have hread : (c.advance.exprAbove 2).Gives value c₁ := congrArg outcome hvalue
      -- the value does not stop in front of an equals sign, and there is no other operator
      have hend := (reads_of_gives_exprAbove (by omega) hread).token?_ne_equals
      simp only [Reading.andThen, operators_of_ne hend]
      rfl
    | error e c₁ => rfl

theorem exprAbove_eq_plain (least : Nat) (hleast : least ≤ 3) (c : Cursor) :
    c.exprAbove least = c.plain := by
  have hoperand : c.operand = c.primary := by
    apply operand_eq_primary
    intro hopen
    have hlt := left_advance_lt hopen
    exact exprAbove_eq_plain 0 (by omega) c.advance
  rw [exprAbove, plain, hoperand]
  congr 1
  funext lhs c₁ h₁
  apply eq_of_outcome_eq
  split
  · rename_i heq
    have hlt := left_advance_lt heq
    cases lhs with
    | ident target =>
      have ih := exprAbove_eq_plain 2 (by omega) c₁.advance
      rw [outcome_andThen (g := fun e c₂ => .ok e c₂) fun _ _ _ => rfl, operators_of_target heq hleast, ih,
        outcome_andThen (g := fun value c₂ => .ok (.assign target value) c₂) fun _ _ _ => rfl]
      cases c₁.advance.plain <;> rfl
    | _ => rw [operators_of_no_target heq hleast (by simp)]; rfl
  · rename_i hne
    rw [operators_of_ne hne]
    rfl
termination_by c.left

/-! ## What an expression takes -/

theorem ReadsExpr.passed {e : Expr} (h : c.ReadsExpr e c') :
    ∃ ps, c.ahead = ps ++ c'.ahead ∧ ps.map Piece.token = e.tokens := by
  induction h with
  | operand ht hop _ =>
    obtain ⟨p, rfl, hp⟩ := passes_advance ht
    exact ⟨[p], hp.ahead, (Token.tokens_of_operand? hop).symm⟩
  | paren hopen _ hclose _ ih =>
    obtain ⟨l, hl, hopen⟩ := passes_advance hopen
    obtain ⟨ps, hps, htokens⟩ := ih
    obtain ⟨r, hr, hclose⟩ := passes_advance hclose
    refine ⟨l :: (ps ++ [r]), ?_, ?_⟩
    · rw [hopen.ahead, hps, hclose.ahead]
      simp
    · simp [Expr.tokens, hl, htokens, hr]
  | assign hname heq _ ih =>
    obtain ⟨t, ht, hname⟩ := passes_advance hname
    obtain ⟨eq, he, heq⟩ := passes_advance heq
    obtain ⟨ps, hps, htokens⟩ := ih
    refine ⟨t :: eq :: ps, ?_, ?_⟩
    · rw [hname.ahead, heq.ahead, hps]
      rfl
    · simp [Expr.tokens, ht, he, htokens]

/-- The tokens of a tree are read as that tree, unless an equals sign follows. -/
theorem reads_of_tokens {e : Expr} {rest : List Token}
    (h : c.ahead.map Piece.token = e.tokens ++ rest) (hrest : rest.head? ≠ some .equals) :
    ∃ c', c.ReadsExpr e c' ∧ c'.ahead.map Piece.token = rest := by
  have hvalues : c.tokens.map Located.value = e.tokens ++ rest := by
    rw [← h]
    simp [tokens, Piece.located]
  obtain ⟨ts, us, htokens, hts, hus⟩ := List.map_eq_append_iff.mp hvalues
  have hne : ∀ t ∈ us.head?, t.value ≠ .equals := by
    intro t ht heq
    apply hrest
    rw [← hus, List.head?_map, ht, Option.map_some, heq]
  obtain ⟨c', hread, htakes⟩ := (derivesExpr_of_tokens hts).reads htokens hne
  refine ⟨c', hread, ?_⟩
  rw [← hus, ← htakes.tokens_eq htokens]
  simp [tokens, Piece.located]

/-- Reading by binding power is reading plainly, from every cursor: the same tree or the same error,
and the same cursor behind it. What is passed on success are the tokens of the tree, with no equals
sign behind them, and a chain of assignments of any length nests to the right. -/
theorem expr_eq_plain (c : Cursor) :
    c.expr = c.plain ∧
    (∀ e c', c.expr.Gives e c' →
      (∃ ps, c.ahead = ps ++ c'.ahead ∧ ps.map Piece.token = e.tokens) ∧ c'.token? ≠ some .equals) ∧
    ∀ names value rest, c.ahead.map Piece.token = targets names ++ value.tokens ++ rest →
      rest.head? ≠ some .equals →
      ∃ c', c.expr.Gives (names.foldr .assign value) c' ∧ c'.ahead.map Piece.token = rest := by
  refine ⟨exprAbove_eq_plain 0 (by omega) c, ?_, ?_⟩
  · intro e c' h
    have hread := gives_expr_iff.mp h
    exact ⟨hread.passed, hread.token?_ne_equals⟩
  · intro names value rest h hrest
    rw [← tokens_foldr_assign] at h
    obtain ⟨c', hread, hc'⟩ := reads_of_tokens h hrest
    exact ⟨c', gives_expr_iff.mpr hread, hc'⟩

/-- A chain with a parenthesis at its end, in front of a comma. -/
theorem expr_eq_plain_chain :
    ∃ c c', ofText "a = b = /*x*/ (c = 1), d" = .ok c ∧
      c.ahead.map Piece.token = targets ["a", "b"] ++
        (Expr.paren (.assign "c" (.number ⟨"1"⟩))).tokens ++ [.comma, .ident "d"] ∧
      c.plain = c.expr ∧
      c.expr.Gives (.assign "a" (.assign "b" (.paren (.assign "c" (.number ⟨"1"⟩))))) c' ∧
      c'.ahead.map Piece.token = [.comma, .ident "d"] := by
  obtain ⟨c, hc, htokens⟩ : ∃ c, ofText "a = b = /*x*/ (c = 1), d" = .ok c ∧
      c.ahead.map Piece.token = targets ["a", "b"] ++
        (Expr.paren (.assign "c" (.number ⟨"1"⟩))).tokens ++ [.comma, .ident "d"] :=
    ⟨_, by cbv, by cbv⟩
  obtain ⟨hplain, -, hchain⟩ := expr_eq_plain c
  obtain ⟨c', hread, hrest⟩ := hchain _ _ _ htokens (by decide)
  exact ⟨c, c', hc, htokens, hplain.symm, hread, hrest⟩

end Cursor

end Reprint
