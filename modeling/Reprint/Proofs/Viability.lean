import Reprint.Proofs.Failure
import Reprint.Proofs.Grammar

/-!
# What is read before an error can be completed

Where a reader stops, the tokens it has passed begin some text that the grammar derives: a few more
tokens, of five kinds, complete them (`Fragment.Fails.viable`). What follows a statement decides only
where it ends, so a statement that was followed by something else stays a statement when a closing
brace or the end of the text follows instead (`DerivesForm.relook`).
-/

namespace Reprint

/-! ## Looking ahead again -/

/-- Statements in front of `rest` are statements in front of `rest'`. -/
def Looks (rest rest' : List (Located Token)) : Prop := Closed rest' ∨ rest'.head? = rest.head?

theorem Looks.append {rest rest' : List (Located Token)} (us : List (Located Token))
    (h : Looks rest rest') : Looks (us ++ rest) (us ++ rest') := by
  cases us with
  | nil => exact h
  | cons u us => exact .inr rfl

theorem DerivesEnd.of_closed (last : Located Token) {rest : List (Located Token)} (h : Closed rest) :
    DerivesEnd last [] rest := by
  rcases h with rfl | ⟨r, tail, rfl, hr⟩
  · exact .endOfInput
  · exact .closeBrace hr

theorem DerivesEnd.relook {last : Located Token} {semi rest rest' : List (Located Token)}
    (h : DerivesEnd last semi rest) (hlooks : Looks rest rest') : DerivesEnd last semi rest' := by
  cases h with
  | semicolon ht => exact .semicolon ht
  | closeBrace ht =>
    rcases hlooks with hclosed | hhead
    · exact .of_closed last hclosed
    · obtain ⟨tail, rfl⟩ := List.head?_eq_some_iff.mp hhead
      exact .closeBrace ht
  | laterLine hne hline =>
    rcases hlooks with hclosed | hhead
    · exact .of_closed last hclosed
    · obtain ⟨tail, rfl⟩ := List.head?_eq_some_iff.mp hhead
      exact .laterLine hne hline
  | endOfInput =>
    rcases hlooks with hclosed | hhead
    · exact .of_closed last hclosed
    · obtain rfl := List.head?_eq_none_iff.mp hhead
      exact .endOfInput

mutual
theorem DerivesForm.relook {ts rest rest' : List (Located Token)} {f : Form}
    (h : DerivesForm ts rest f) (hlooks : Looks rest rest') : DerivesForm ts rest' f := by
  match h with
  | .block hb => exact .block (hb.relook rest')
  | .empty ht => exact .empty ht
  | .function hfn hid hparams hb => exact .function hfn hid hparams (hb.relook rest')
  | .var hkw hds hlast hend => exact .var hkw hds hlast (hend.relook hlooks)
  | .expr he hlast hend => exact .expr he hlast (hend.relook hlooks)

/-- Nothing behind a block decides where it ends. -/
theorem DerivesBlock.relook {ts rest : List (Located Token)} {b : Body}
    (h : DerivesBlock ts rest b) (rest' : List (Located Token)) : DerivesBlock ts rest' b := by
  match h with
  | .braces hl hss hr => exact .braces hl (hss.relook (.inr rfl)) hr

theorem DerivesStmts.relook {ts rest rest' : List (Located Token)} {ss : List Stmt}
    (h : DerivesStmts ts rest ss) (hlooks : Looks rest rest') : DerivesStmts ts rest' ss := by
  match h with
  | .nil => exact .nil
  | .cons hf hss => exact .cons (hf.relook (hlooks.append _)) (hss.relook hlooks)
end

/-! ## Completions -/

/-- Tokens that complete what any error cuts off. -/
def fillers : List Token := [.ident "x", .openParen, .closeParen, .openBrace, .closeBrace]

/-- The tokens passed from `c` to `c'` and some fillers behind them satisfy `P`. -/
def Viable (c c' : Cursor) (P : List (Located Token) → Prop) : Prop :=
  ∃ us ks, c.tokens = us ++ c'.tokens ∧ (∀ k ∈ ks, k ∈ fillers) ∧
    ∀ ks' : List (Located Token), ks'.map Located.value = ks → P (us ++ ks')

section
variable {c c₁ c' : Cursor} {P Q : List (Located Token) → Prop} {ts : List (Located Token)}

/-- Where a reader stops, fillers go on. -/
theorem viable_filled (htokens : c.tokens = ts ++ c'.tokens) (ks : List Token)
    (hks : ∀ k ∈ ks, k ∈ fillers)
    (h : ∀ ks' : List (Located Token), ks'.map Located.value = ks → P (ts ++ ks')) : Viable c c' P :=
  ⟨ts, ks, htokens, hks, h⟩

theorem viable_now (ks : List Token) (hks : ∀ k ∈ ks, k ∈ fillers)
    (h : ∀ ks' : List (Located Token), ks'.map Located.value = ks → P ks') : Viable c c P :=
  viable_filled (List.nil_append _).symm ks hks h

theorem viable_done (htokens : c.tokens = ts ++ c'.tokens) (h : P ts) : Viable c c' P := by
  refine viable_filled htokens [] (by simp) fun ks' hks' => ?_
  rw [List.map_eq_nil_iff.mp hks', List.append_nil]
  exact h

/-- More tokens in front and more fillers behind. -/
theorem Viable.frame (h : Viable c₁ c' P) (htokens : c.tokens = ts ++ c₁.tokens) (ks : List Token)
    (hks : ∀ k ∈ ks, k ∈ fillers) (hPQ : ∀ us, P us → ∀ ks' : List (Located Token),
      ks'.map Located.value = ks → Q (ts ++ (us ++ ks'))) : Viable c c' Q := by
  obtain ⟨us, ks₀, htokens', hks₀, hP⟩ := h
  refine ⟨ts ++ us, ks₀ ++ ks, by rw [htokens, htokens', List.append_assoc],
    List.forall_mem_append.mpr ⟨hks₀, hks⟩, fun ks' hks' => ?_⟩
  obtain ⟨as, bs, rfl, has, hbs⟩ := List.map_eq_append_iff.mp hks'
  rw [List.append_assoc, ← List.append_assoc us]
  exact hPQ _ (hP as has) bs hbs

theorem Viable.after (h : Viable c₁ c' P) (htokens : c.tokens = ts ++ c₁.tokens)
    (hPQ : ∀ us, P us → Q (ts ++ us)) : Viable c c' Q := by
  refine h.frame htokens [] (by simp) fun us hus ks' hks' => ?_
  rw [List.map_eq_nil_iff.mp hks', List.append_nil]
  exact hPQ us hus

theorem Viable.imp (h : Viable c c' P) (hPQ : ∀ us, P us → Q us) : Viable c c' Q :=
  h.after (List.nil_append _).symm hPQ

/-- A completion begins with the token that the text begins with, unless the reader stops there. -/
theorem Viable.head (h : Viable c c' P) :
    c'.tokens = c.tokens ∨ Viable c c' fun ts => ts.head? = c.tokens.head? ∧ P ts := by
  obtain ⟨us, ks, htokens, hks, hP⟩ := h
  cases us with
  | nil => exact .inl htokens.symm
  | cons u us =>
    refine .inr ⟨u :: us, ks, htokens, hks, fun ks' hks' => ⟨?_, hP ks' hks'⟩⟩
    rw [htokens]
    rfl

end

section
variable {ks' rest : List (Located Token)}

theorem derivesParams_of_fillers (h : ks'.map Located.value = [.openParen, .closeParen]) :
    DerivesParams ks' [] := by
  obtain ⟨l, rest, rfl, hl, hrest⟩ := List.map_eq_cons_iff.mp h
  obtain ⟨r, rfl, hr⟩ := List.map_eq_singleton_iff.mp hrest
  exact .none hl hr

theorem derivesBlock_of_fillers (h : ks'.map Located.value = [.openBrace, .closeBrace]) :
    DerivesBlock ks' rest ⟨[], []⟩ := by
  obtain ⟨l, rest, rfl, hl, hrest⟩ := List.map_eq_cons_iff.mp h
  obtain ⟨r, rfl, hr⟩ := List.map_eq_singleton_iff.mp hrest
  exact .braces hl .nil hr

theorem DerivesExpr.form {ts : List (Located Token)} {e : Expr} (h : DerivesExpr ts e)
    (hclosed : Closed rest) : DerivesForm ts rest (.expr e) := by
  obtain ⟨t, us, hts, -⟩ := h.head
  have hlast : ts.getLast? = some (ts.getLast (by simp [hts])) := List.getLast?_eq_some_getLast _
  rw [← List.append_nil ts]
  exact .expr h hlast (.of_closed _ hclosed)

theorem DerivesDeclarators.ne_nil {ts : List (Located Token)} {ds : List Declarator}
    (h : DerivesDeclarators ts ds) : ts ≠ [] := by
  cases h with
  | last hd => cases hd <;> simp
  | more _ _ _ => simp

theorem DerivesDeclarators.form {kw : Located Token} {ts : List (Located Token)}
    {ds : List Declarator} (h : DerivesDeclarators ts ds) (hkw : kw.value = .var)
    (hclosed : Closed rest) : DerivesForm (kw :: ts) rest (.var ds) := by
  have hlast : ts.getLast? = some (ts.getLast h.ne_nil) := List.getLast?_eq_some_getLast _
  rw [← List.append_nil ts]
  exact .var hkw h hlast (.of_closed _ hclosed)

end

/-! ## Expressions and parts of statements -/

namespace Cursor

variable {c c' : Cursor} {ex : Expected}

theorem FailsExpr.viable (h : c.FailsExpr ex c') :
    Viable c c' fun ts => ∃ e, DerivesExpr ts e := by
  induction h with
  | operand _ =>
    refine viable_now [.ident "x"] (by decide) fun ks' hks' => ?_
    obtain ⟨l, rfl, hl⟩ := List.map_eq_singleton_iff.mp hks'
    exact ⟨.ident "x", .operand (by rw [hl]; rfl)⟩
  | inside hopen _ ih =>
    obtain ⟨l, hl, htake⟩ := takes_advance hopen
    refine ih.frame htake.tokens [.closeParen] (by decide) fun us hus ks' hks' => ?_
    obtain ⟨e, he⟩ := hus
    obtain ⟨r, rfl, hr⟩ := List.map_eq_singleton_iff.mp hks'
    exact ⟨_, .paren hl he hr⟩
  | close hopen hread _ =>
    obtain ⟨l, hl, htake⟩ := takes_advance hopen
    obtain ⟨ts, htakes, he⟩ := hread.derives
    refine viable_filled (htake.trans htakes).tokens [.closeParen] (by decide) fun ks' hks' => ?_
    obtain ⟨r, rfl, hr⟩ := List.map_eq_singleton_iff.mp hks'
    exact ⟨_, .paren hl he hr⟩
  | literalTarget ht hop _ _ =>
    obtain ⟨l, rfl, htake⟩ := takes_advance ht
    exact viable_done htake.tokens ⟨_, .operand hop⟩
  | parenTarget hopen hread hclose _ =>
    obtain ⟨l, hl, htake⟩ := takes_advance hopen
    obtain ⟨ts, htakes, he⟩ := hread.derives
    obtain ⟨r, hr, htake'⟩ := takes_advance hclose
    exact viable_done (htake.trans (htakes.trans htake')).tokens ⟨_, .paren hl he hr⟩
  | value hname heq _ ih =>
    obtain ⟨t, ht, htake⟩ := takes_advance hname
    obtain ⟨eq, heq, htake'⟩ := takes_advance heq
    refine ih.after (htake.trans htake').tokens fun us hus => ?_
    obtain ⟨e, he⟩ := hus
    exact ⟨_, .assign ht heq he⟩

/-- Names up to the closing parenthesis. -/
theorem FailsNames.viable (h : c.FailsNames ex c') : Viable c c' fun ts =>
    ∃ us r names, ts = us ++ [r] ∧ DerivesNames us names ∧ r.value = .closeParen := by
  induction h with
  | name _ =>
    refine viable_now [.ident "x", .closeParen] (by decide) fun ks' hks' => ?_
    obtain ⟨t, rest, rfl, ht, hrest⟩ := List.map_eq_cons_iff.mp hks'
    obtain ⟨r, rfl, hr⟩ := List.map_eq_singleton_iff.mp hrest
    exact ⟨[t], r, _, rfl, .last ht, hr⟩
  | comma hname _ _ =>
    obtain ⟨t, ht, htake⟩ := takes_advance hname
    refine viable_filled htake.tokens [.closeParen] (by decide) fun ks' hks' => ?_
    obtain ⟨r, rfl, hr⟩ := List.map_eq_singleton_iff.mp hks'
    exact ⟨[t], r, _, rfl, .last ht, hr⟩
  | more hname hcomma _ ih =>
    obtain ⟨t, ht, htake⟩ := takes_advance hname
    obtain ⟨comma, hcomma, htake'⟩ := takes_advance hcomma
    refine ih.after (htake.trans htake').tokens fun us hus => ?_
    obtain ⟨us, r, names, rfl, hnames, hr⟩ := hus
    exact ⟨t :: comma :: us, r, _, rfl, .more ht hcomma hnames, hr⟩

theorem FailsParams.viable (h : c.FailsParams ex c') :
    Viable c c' fun ts => ∃ names, DerivesParams ts names := by
  cases h with
  | opening _ =>
    refine viable_now [.openParen, .closeParen] (by decide) fun ks' hks' => ?_
    exact ⟨_, derivesParams_of_fillers hks'⟩
  | names hopen _ hnames =>
    obtain ⟨l, hl, htake⟩ := takes_advance hopen
    refine hnames.viable.after htake.tokens fun us hus => ?_
    obtain ⟨us, r, names, rfl, hnames, hr⟩ := hus
    exact ⟨names, .some hl hnames hr⟩

theorem FailsDeclarators.viable (h : c.FailsDeclarators ex c') :
    Viable c c' fun ts => ∃ ds, DerivesDeclarators ts ds := by
  induction h with
  | name _ =>
    refine viable_now [.ident "x"] (by decide) fun ks' hks' => ?_
    obtain ⟨t, rfl, ht⟩ := List.map_eq_singleton_iff.mp hks'
    exact ⟨_, .last (.bare ht)⟩
  | init hname heq he =>
    obtain ⟨t, ht, htake⟩ := takes_advance hname
    obtain ⟨eq, heq, htake'⟩ := takes_advance heq
    refine he.viable.after (htake.trans htake').tokens fun us hus => ?_
    obtain ⟨e, he⟩ := hus
    exact ⟨_, .last (.init ht heq he)⟩
  | more hname hinit hcomma _ ih =>
    obtain ⟨ts, htakes, hd⟩ := derives_declarator hname hinit
    obtain ⟨comma, hcomma, htake⟩ := takes_advance hcomma
    refine ih.after (htakes.trans htake).tokens fun us hus => ?_
    obtain ⟨ds, hds⟩ := hus
    rw [List.append_assoc]
    exact ⟨_, .more hd hcomma hds⟩

/-! ## Statements -/

mutual
theorem FailsBlock.viable {c c' : Cursor} {ex : Expected} (h : c.FailsBlock ex c') :
    Viable c c' fun ts => ∀ rest, ∃ b, DerivesBlock ts rest b := by
  match h with
  | .opening _ =>
    refine viable_filled (List.nil_append _).symm [.openBrace, .closeBrace] (by decide)
      fun ks' hks' rest => ?_
    exact ⟨_, derivesBlock_of_fillers hks'⟩
  | .inside hopen hss =>
    obtain ⟨l, hl, htake⟩ := takes_advance (c := c.withQueue []) hopen
    refine hss.viable.frame htake.tokens [.closeBrace] (by decide) fun us hus ks' hks' rest => ?_
    obtain ⟨r, rfl, hr⟩ := List.map_eq_singleton_iff.mp hks'
    obtain ⟨ss, hss⟩ := hus.2 (r :: rest) (.inr ⟨r, rest, rfl, hr⟩)
    exact ⟨_, .braces hl hss hr⟩

theorem FailsForm.viable {c c' : Cursor} {ex : Expected} (h : c.FailsForm ex c') :
    Viable c c' fun ts => ∀ rest, Closed rest → ∃ f, DerivesForm ts rest f := by
  match h with
  | .block _ hb =>
    refine hb.viable.imp fun us hus rest _ => ?_
    obtain ⟨b, hb⟩ := hus rest
    exact ⟨_, .block hb⟩
  | .functionName hfun _ =>
    obtain ⟨fn, hfn, htake⟩ := takes_advance hfun
    refine viable_filled htake.tokens
      ([.ident "x"] ++ ([.openParen, .closeParen] ++ [.openBrace, .closeBrace])) (by decide)
      fun ks' hks' rest _ => ?_
    obtain ⟨as, bs, rfl, has, hbs⟩ := List.map_eq_append_iff.mp hks'
    obtain ⟨id, rfl, hid⟩ := List.map_eq_singleton_iff.mp has
    obtain ⟨ps, ts, rfl, hps, hts⟩ := List.map_eq_append_iff.mp hbs
    have hparams : DerivesParams ps [] := derivesParams_of_fillers hps
    have hb : DerivesBlock ts rest ⟨[], []⟩ := derivesBlock_of_fillers hts
    have hform : DerivesForm (fn :: id :: (ps ++ ts)) rest _ := .function hfn hid hparams hb
    exact ⟨_, hform⟩
  | .functionParams hfun hname hparams =>
    obtain ⟨fn, hfn, htake⟩ := takes_advance hfun
    obtain ⟨id, hid, htake'⟩ := takes_advance hname
    refine hparams.viable.frame (htake.trans htake').tokens [.openBrace, .closeBrace] (by decide)
      fun us hus ks' hks' rest _ => ?_
    obtain ⟨names, hnames⟩ := hus
    have hb : DerivesBlock ks' rest ⟨[], []⟩ := derivesBlock_of_fillers hks'
    have hform : DerivesForm (fn :: id :: (us ++ ks')) rest _ := .function hfn hid hnames hb
    exact ⟨_, hform⟩
  | .functionBody hfun hname hnames hb =>
    obtain ⟨fn, hfn, htake⟩ := takes_advance hfun
    obtain ⟨id, hid, htake'⟩ := takes_advance hname
    obtain ⟨ps, hps, hparams⟩ := hnames.derives
    refine hb.viable.after (htake.trans (htake'.trans hps)).tokens fun us hus rest _ => ?_
    obtain ⟨b, hb⟩ := hus rest
    exact ⟨_, .function hfn hid hparams hb⟩
  | .declarators hvar hds =>
    obtain ⟨kw, hkw, htake⟩ := takes_advance hvar
    refine hds.viable.after htake.tokens fun us hus rest hclosed => ?_
    obtain ⟨ds, hds⟩ := hus
    exact ⟨_, hds.form hkw hclosed⟩
  | .varEnd hvar hds _ =>
    obtain ⟨kw, hkw, htake⟩ := takes_advance hvar
    obtain ⟨ts, htakes, hds⟩ := hds.derives
    exact viable_done (htake.trans htakes).tokens fun rest hclosed => ⟨_, hds.form hkw hclosed⟩
  | .expr _ he =>
    refine he.viable.imp fun us hus rest hclosed => ?_
    obtain ⟨e, he⟩ := hus
    exact ⟨_, he.form hclosed⟩
  | .exprEnd he _ =>
    obtain ⟨ts, htakes, he⟩ := he.derives
    exact viable_done htakes.tokens fun rest hclosed => ⟨_, he.form hclosed⟩

/-- A row of statements that fails at the first token of one of them is completed by leaving that one
out, so no filler has to stand on a new line. -/
theorem FailsStmts.viable {close : Option Token} {c c' : Cursor} {ex : Expected}
    (h : c.FailsStmts close ex c') : Viable c c' fun ts =>
      (ts = [] ∨ ts.head? = c.tokens.head?) ∧ ∀ rest, Closed rest → ∃ ss, DerivesStmts ts rest ss := by
  match h with
  | .unclosed _ =>
    exact viable_done (List.nil_append _).symm ⟨.inl rfl, fun rest _ => ⟨_, .nil⟩⟩
  | .now _ _ hf =>
    rcases hf.viable.head with heq | hviable
    · have htokens : c.tokens = [] ++ c'.tokens := heq.symm
      exact viable_done htokens ⟨.inl rfl, fun rest _ => ⟨_, .nil⟩⟩
    · refine hviable.after (c := c) (List.nil_append _).symm fun us hus => ?_
      refine ⟨.inr hus.1, fun rest hclosed => ?_⟩
      obtain ⟨f, hf⟩ := hus.2 rest hclosed
      rw [List.nil_append, ← List.append_nil us]
      exact ⟨_, .cons hf .nil⟩
  | .later _ _ (.owning hf _) hss =>
    obtain ⟨ts, htakes, hform⟩ := hf.derives
    obtain ⟨t, vs, hts, -⟩ := hform.head
    refine hss.viable.after htakes.tokens fun us hus => ⟨.inr ?_, fun rest hclosed => ?_⟩
    · rw [show c.tokens = _ from htakes.tokens, hts]
      rfl
    · obtain ⟨ss, hss⟩ := hus.2 rest hclosed
      refine ⟨_, .cons (hform.relook ?_) hss⟩
      -- the next statement begins as it did, or there is none
      cases us with
      | nil => exact .inl hclosed
      | cons u us =>
        rcases hus.1 with hnil | hhead
        · cases hnil
        · exact .inr hhead
end

theorem FailsHead.viable (h : c.FailsHead ex c') : Viable c c' DerivesHead := by
  cases h with
  | named hfun hname hparams =>
    obtain ⟨fn, hfn, htake⟩ := takes_advance hfun
    obtain ⟨id, hid, htake'⟩ := takes_advance hname
    refine hparams.viable.after (htake.trans htake').tokens fun us hus => ?_
    obtain ⟨names, hnames⟩ := hus
    exact .named hfn hid hnames
  | anonymous hfun _ hparams =>
    obtain ⟨fn, hfn, htake⟩ := takes_advance hfun
    refine hparams.viable.after htake.tokens fun us hus => ?_
    obtain ⟨names, hnames⟩ := hus
    exact .anonymous hfn hnames

end Cursor

/-! ## Fragments -/

theorem Fragment.Fails.viable {f : Fragment} {c c' : Cursor} {ex : Expected} (h : f.Fails c ex c') :
    Viable c c' fun ts => ∃ b, f.Derives ts b := by
  cases h with
  | program hss =>
    refine hss.viable.imp fun us hus => ?_
    obtain ⟨ss, hss⟩ := hus.2 [] (.inl rfl)
    exact ⟨_, .program hss⟩
  | head hhead =>
    refine hhead.viable.frame (List.nil_append _).symm [.openBrace, .closeBrace] (by decide)
      fun us hus ks' hks' => ?_
    have hb : DerivesBlock ks' [] ⟨[], []⟩ := derivesBlock_of_fillers hks'
    have hfunction : Fragment.function.Derives (us ++ ks') _ := .function hus hb
    exact ⟨_, hfunction⟩
  | block hhead hb =>
    obtain ⟨ts, htokens, hhead⟩ := hhead.derives
    refine hb.viable.after htokens fun us hus => ?_
    obtain ⟨b, hb⟩ := hus []
    exact ⟨b, .function hhead hb⟩
  | behind hhead hb _ =>
    obtain ⟨ts, htokens, hhead⟩ := hhead.derives
    obtain ⟨us, htakes, hb⟩ := hb.derives
    have hviable : Viable _ _ (DerivesBlock · [] _) := viable_done htakes.tokens (hb.relook [])
    exact hviable.after htokens fun us hus => ⟨_, .function hhead hus⟩

end Reprint
