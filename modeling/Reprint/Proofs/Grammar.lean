import Reprint.Proofs.Conservation

/-!
# The grammar

The grammar relates trees without comments to tokens with their places. A statement is derived in
front of the tokens that follow it, since these decide where it may end. A text whose lexemes can be
told is read exactly when its tokens are derivable, and then they derive one tree only, the one that
was read without its comments (`Fragment.parse_iff_derives`).
-/

namespace Reprint

/-! ## Tokens of a text -/

def Located.token? : Located Lexeme → Option (Located Token)
  | ⟨.token t, span⟩ => some ⟨t, span⟩
  | ⟨.comment _, _⟩ => none

/-- The lexemes that are not comments. -/
def significant (ls : List (Located Lexeme)) : List (Located Token) := ls.filterMap Located.token?

def Piece.located (p : Piece) : Located Token := ⟨p.token, p.span⟩

theorem significant_eq (ls : List (Located Lexeme)) :
    significant ls = (pieces ls).2.map Piece.located := by
  fun_induction pieces ls with
  | case1 => rfl
  | case2 c span ls before ps h ih =>
    rw [h] at ih
    exact ih
  | case3 t span ls after ps h ih =>
    rw [h] at ih
    simpa [significant, Located.token?, Piece.located] using ih

/-! ## Trees without comments -/

mutual
def Stmt.bare : Stmt → Stmt
  | ⟨_, f, _⟩ => ⟨[], f.bare, []⟩
def Form.bare : Form → Form
  | .block b => .block b.bare
  | .empty => .empty
  | .function name params b => .function name params b.bare
  | .var ds => .var ds
  | .expr e => .expr e
/-- The tree without its comments. -/
def Body.bare : Body → Body
  | ⟨ss, _⟩ => ⟨stmtsBare ss, []⟩
def stmtsBare : List Stmt → List Stmt
  | [] => []
  | s :: ss => s.bare :: stmtsBare ss
end

theorem Body.bare_lead (before : List Comment) (b : Body) : (b.lead before).bare = b.bare := by
  obtain ⟨ss, dangling⟩ := b
  cases ss with
  | nil => rfl
  | cons s ss =>
    obtain ⟨leading, f, trailing⟩ := s
    simp [Body.lead, Body.bare, stmtsBare, Stmt.bare]

theorem Body.bare_trail (after : List Comment) (b : Body) : (b.trail after).bare = b.bare := by
  obtain ⟨ss, dangling⟩ := b
  simp [Body.trail, Body.bare]

/-! ## Derivations -/

inductive DerivesExpr : List (Located Token) → Expr → Prop
  | operand {t e} : t.value.operand? = some e → DerivesExpr [t] e
  | paren {l ts r e} : l.value = .openParen → DerivesExpr ts e → r.value = .closeParen →
      DerivesExpr (l :: (ts ++ [r])) (.paren e)
  | assign {t eq ts name e} : t.value = .ident name → eq.value = .equals → DerivesExpr ts e →
      DerivesExpr (t :: eq :: ts) (.assign name e)

/-- One name or more, with commas between them. -/
inductive DerivesNames : List (Located Token) → List String → Prop
  | last {t name} : t.value = .ident name → DerivesNames [t] [name]
  | more {t comma ts name names} : t.value = .ident name → comma.value = .comma →
      DerivesNames ts names → DerivesNames (t :: comma :: ts) (name :: names)

inductive DerivesParams : List (Located Token) → List String → Prop
  | none {l r} : l.value = .openParen → r.value = .closeParen → DerivesParams [l, r] []
  | some {l ts r names} : l.value = .openParen → DerivesNames ts names → r.value = .closeParen →
      DerivesParams (l :: (ts ++ [r])) names

inductive DerivesDeclarator : List (Located Token) → Declarator → Prop
  | bare {t name} : t.value = .ident name → DerivesDeclarator [t] ⟨name, none⟩
  | init {t eq ts name e} : t.value = .ident name → eq.value = .equals → DerivesExpr ts e →
      DerivesDeclarator (t :: eq :: ts) ⟨name, some e⟩

inductive DerivesDeclarators : List (Located Token) → List Declarator → Prop
  | last {ts d} : DerivesDeclarator ts d → DerivesDeclarators ts [d]
  | more {ts comma us d ds} : DerivesDeclarator ts d → comma.value = .comma →
      DerivesDeclarators us ds → DerivesDeclarators (ts ++ comma :: us) (d :: ds)

/-- How a statement ends behind its token `last` and in front of `rest`: a semicolon that is next is
part of it, and without one it ends before a closing brace, before a token on a later line and at the
end of the text. -/
inductive DerivesEnd (last : Located Token) : List (Located Token) → List (Located Token) → Prop
  | semicolon {t rest} : t.value = .semicolon → DerivesEnd last [t] rest
  | closeBrace {t rest} : t.value = .closeBrace → DerivesEnd last [] (t :: rest)
  | laterLine {t rest} : t.value ≠ .semicolon → last.span.stop.line < t.span.start.line →
      DerivesEnd last [] (t :: rest)
  | endOfInput : DerivesEnd last [] []

mutual
inductive DerivesForm : List (Located Token) → List (Located Token) → Form → Prop
  | block {ts rest b} : DerivesBlock ts rest b → DerivesForm ts rest (.block b)
  | empty {t rest} : t.value = .semicolon → DerivesForm [t] rest .empty
  | function {fn id ps ts rest name names b} : fn.value = .function → id.value = .ident name →
      DerivesParams ps names → DerivesBlock ts rest b →
      DerivesForm (fn :: id :: (ps ++ ts)) rest (.function name names b)
  | var {kw ts last semi rest ds} : kw.value = .var → DerivesDeclarators ts ds →
      ts.getLast? = some last → DerivesEnd last semi rest →
      DerivesForm (kw :: (ts ++ semi)) rest (.var ds)
  | expr {ts last semi rest e} : DerivesExpr ts e → ts.getLast? = some last →
      DerivesEnd last semi rest → DerivesForm (ts ++ semi) rest (.expr e)
inductive DerivesBlock : List (Located Token) → List (Located Token) → Body → Prop
  | braces {l ts r rest ss} : l.value = .openBrace → DerivesStmts ts (r :: rest) ss →
      r.value = .closeBrace → DerivesBlock (l :: (ts ++ [r])) rest ⟨ss, []⟩
/-- `DerivesStmts ts rest ss`: the tokens `ts`, in front of the tokens `rest`, are the statements
`ss`. -/
inductive DerivesStmts : List (Located Token) → List (Located Token) → List Stmt → Prop
  | nil {rest} : DerivesStmts [] rest []
  | cons {ts us rest f ss} : DerivesForm ts (us ++ rest) f → DerivesStmts us rest ss →
      DerivesStmts (ts ++ us) rest (⟨[], f, []⟩ :: ss)
end

/-- What may stand in front of the block of a function: nothing, or the head of a literal. -/
inductive DerivesHead : List (Located Token) → Prop
  | bare : DerivesHead []
  | anonymous {fn ps names} : fn.value = .function → DerivesParams ps names → DerivesHead (fn :: ps)
  | named {fn id ps name names} : fn.value = .function → id.value = .ident name →
      DerivesParams ps names → DerivesHead (fn :: id :: ps)

inductive Fragment.Derives : Fragment → List (Located Token) → Body → Prop
  | program {ts ss} : DerivesStmts ts [] ss → Derives .program ts ⟨ss, []⟩
  | function {head ts b} : DerivesHead head → DerivesBlock ts [] b → Derives .function (head ++ ts) b

/-! ## Taking tokens -/

namespace Cursor

variable {c c₁ c₂ c' : Cursor} {ts us : List (Located Token)}

def tokens (c : Cursor) : List (Located Token) := c.ahead.map Piece.located

/-- `c'` is reached from `c` by passing the tokens `ts`, of which there is at least one. -/
structure Takes (c : Cursor) (ts : List (Located Token)) (c' : Cursor) : Prop where
  tokens : c.tokens = ts ++ c'.tokens
  last : ∃ last, ts.getLast? = some last ∧ c'.prevStop = last.span.stop

theorem takes_advance {t : Token} (h : c.token? = some t) :
    ∃ l, l.value = t ∧ c.Takes [l] c.advance := by
  obtain ⟨p, hp, hpass⟩ := passes_advance h
  refine ⟨p.located, hp, ?_, p.located, rfl, hpass.stop⟩
  unfold tokens
  rw [hpass.ahead]
  rfl

theorem Takes.trans (h₁ : c.Takes ts c₁) (h₂ : c₁.Takes us c₂) : c.Takes (ts ++ us) c₂ := by
  obtain ⟨last, hlast, hstop⟩ := h₂.last
  refine ⟨?_, last, ?_, hstop⟩
  · rw [h₁.tokens, h₂.tokens, List.append_assoc]
  · rw [List.getLast?_append, hlast, Option.some_or]

theorem token?_eq (c : Cursor) : c.token? = c.tokens.head?.map Located.value := by
  unfold token? tokens
  cases c.ahead <;> rfl

theorem takes_of_tokens {t : Located Token} {v : Token} (h : c.tokens = t :: ts) (hv : t.value = v) :
    c.token? = some v ∧ c.Takes [t] c.advance ∧ c.advance.tokens = ts := by
  subst hv
  have ht : c.token? = some t.value := by rw [token?_eq, h]; rfl
  obtain ⟨l, -, htake⟩ := takes_advance ht
  have hcons : t :: ts = l :: c.advance.tokens := h.symm.trans htake.tokens
  obtain ⟨rfl, rfl⟩ := List.cons.inj hcons
  exact ⟨ht, htake, rfl⟩

theorem Takes.tokens_eq {rest : List (Located Token)} (h : c.Takes ts c')
    (hc : c.tokens = ts ++ rest) : c'.tokens = rest :=
  List.append_cancel_left (h.tokens.symm.trans hc)

/-- The queue that a block puts aside and takes up again has no part in the tokens it takes. -/
theorem takes_braces {l r : Located Token} {q : List (Located Comment)}
    (hopen : (c.withQueue []).Takes [l] c₁) (htokens : c₁.tokens = ts ++ c₂.tokens)
    (hclose : (c₂.withQueue []).Takes [r] c') : c.Takes (l :: (ts ++ [r])) (c'.withQueue q) := by
  have hbefore : c.tokens = l :: c₁.tokens := hopen.tokens
  have hafter : c₂.tokens = r :: (c'.withQueue q).tokens := hclose.tokens
  obtain ⟨last, hlast, hstop⟩ := hclose.last
  refine ⟨?_, last, ?_, hstop⟩
  · rw [hbefore, htokens, hafter]
    simp
  · rw [← List.cons_append, List.getLast?_append, hlast, Option.some_or]

/-! ## What is read is derivable -/

theorem ReadsExpr.derives {e : Expr} (h : c.ReadsExpr e c') :
    ∃ ts, c.Takes ts c' ∧ DerivesExpr ts e := by
  induction h with
  | operand ht hop _ =>
    obtain ⟨l, rfl, htake⟩ := takes_advance ht
    exact ⟨_, htake, .operand hop⟩
  | paren hopen _ hclose _ ih =>
    obtain ⟨l, hl, htake⟩ := takes_advance hopen
    obtain ⟨ts, htakes, hderives⟩ := ih
    obtain ⟨r, hr, htake'⟩ := takes_advance hclose
    exact ⟨_, htake.trans (htakes.trans htake'), .paren hl hderives hr⟩
  | assign hname heq _ ih =>
    obtain ⟨t, ht, htake⟩ := takes_advance hname
    obtain ⟨eq, heq, htake'⟩ := takes_advance heq
    obtain ⟨ts, htakes, hderives⟩ := ih
    exact ⟨_, htake.trans (htake'.trans htakes), .assign ht heq hderives⟩

theorem ReadsNames.derives {names : List String} (h : c.ReadsNames names c') :
    ∃ ts r, c.Takes (ts ++ [r]) c' ∧ DerivesNames ts names ∧ r.value = .closeParen := by
  induction h with
  | last hname hclose =>
    obtain ⟨t, ht, htake⟩ := takes_advance hname
    obtain ⟨r, hr, htake'⟩ := takes_advance hclose
    exact ⟨_, r, htake.trans htake', .last ht, hr⟩
  | more hname hcomma _ ih =>
    obtain ⟨t, ht, htake⟩ := takes_advance hname
    obtain ⟨comma, hcomma, htake'⟩ := takes_advance hcomma
    obtain ⟨ts, r, htakes, hderives, hr⟩ := ih
    exact ⟨t :: comma :: ts, r, htake.trans (htake'.trans htakes), .more ht hcomma hderives, hr⟩

theorem ReadsParams.derives {names : List String} (h : c.ReadsParams names c') :
    ∃ ts, c.Takes ts c' ∧ DerivesParams ts names := by
  cases h with
  | none hopen hclose =>
    obtain ⟨l, hl, htake⟩ := takes_advance hopen
    obtain ⟨r, hr, htake'⟩ := takes_advance hclose
    exact ⟨_, htake.trans htake', .none hl hr⟩
  | some hopen hnames =>
    obtain ⟨l, hl, htake⟩ := takes_advance hopen
    obtain ⟨ts, r, htakes, hderives, hr⟩ := hnames.derives
    exact ⟨_, htake.trans htakes, .some hl hderives hr⟩

theorem derives_declarator {name : String} {init : Option Expr}
    (hname : c.token? = some (.ident name)) (h : c.advance.ReadsInit init c') :
    ∃ ts, c.Takes ts c' ∧ DerivesDeclarator ts ⟨name, init⟩ := by
  obtain ⟨t, ht, htake⟩ := takes_advance hname
  cases h with
  | none _ => exact ⟨_, htake, .bare ht⟩
  | some heq he =>
    obtain ⟨eq, heq, htake'⟩ := takes_advance heq
    obtain ⟨ts, htakes, hderives⟩ := he.derives
    exact ⟨_, htake.trans (htake'.trans htakes), .init ht heq hderives⟩

theorem ReadsDeclarators.derives {ds : List Declarator} (h : c.ReadsDeclarators ds c') :
    ∃ ts, c.Takes ts c' ∧ DerivesDeclarators ts ds := by
  induction h with
  | last hname hinit _ =>
    obtain ⟨ts, htakes, hderives⟩ := derives_declarator hname hinit
    exact ⟨_, htakes, .last hderives⟩
  | more hname hinit hcomma _ ih =>
    obtain ⟨ts, htakes, hderives⟩ := derives_declarator hname hinit
    obtain ⟨comma, hcomma, htake⟩ := takes_advance hcomma
    obtain ⟨us, htakes', hderives'⟩ := ih
    exact ⟨_, htakes.trans (htake.trans htakes'), .more hderives hcomma hderives'⟩

theorem ReadsEnd.derives (h : c₁.ReadsEnd c') (htakes : c.Takes ts c₁) :
    ∃ last semi, ts.getLast? = some last ∧ c.Takes (ts ++ semi) c' ∧
      DerivesEnd last semi c'.tokens := by
  obtain ⟨last, hlast, hstop⟩ := htakes.last
  cases h with
  | semicolon ht =>
    obtain ⟨t, ht, htake⟩ := takes_advance ht
    exact ⟨last, [t], hlast, htakes.trans htake, .semicolon ht⟩
  | closeBrace ht =>
    obtain ⟨t, ht, htake⟩ := takes_advance ht
    refine ⟨last, [], hlast, by simpa using htakes, ?_⟩
    rw [htake.tokens]
    exact .closeBrace ht
  | endOfInput ht =>
    refine ⟨last, [], hlast, by simpa using htakes, ?_⟩
    rw [tokens, ahead_eq_nil ht]
    exact .endOfInput
  | laterLine hne hline =>
    refine ⟨last, [], hlast, by simpa using htakes, ?_⟩
    rw [token?_eq] at hne
    rw [hstop] at hline
    unfold here at hline
    unfold tokens at hne ⊢
    cases hc : c₁.ahead with
    | nil => exact .endOfInput
    | cons p ps =>
      rw [hc] at hne hline
      exact .laterLine (fun heq => hne (congrArg some heq)) hline

mutual
theorem ReadsBlock.derives {c c' : Cursor} {b : Body} (h : c.ReadsBlock b c') :
    ∃ ts, c.Takes ts c' ∧ DerivesBlock ts c'.tokens b.bare := by
  match h with
  | @ReadsBlock.braces _ ss c₁ c₂ hopen hss hclose hc =>
    obtain ⟨l, hl, htake⟩ := takes_advance (c := c.withQueue []) hopen
    obtain ⟨ts, htokens, hderives⟩ := hss.derives
    obtain ⟨r, hr, htake'⟩ := takes_advance (c := c₁.withQueue []) hclose
    rw [hc] at htake'
    have hafter : c₁.tokens = r :: c₂.tokens := htake'.tokens
    rw [hafter] at hderives
    rw [Body.bare]
    exact ⟨_, takes_braces htake htokens htake', .braces hl hderives hr⟩

theorem ReadsForm.derives {c c' : Cursor} {f : Form} (h : c.ReadsForm f c') :
    ∃ ts, c.Takes ts c' ∧ DerivesForm ts c'.tokens f.bare := by
  match h with
  | .block hb =>
    obtain ⟨ts, htakes, hderives⟩ := hb.derives
    rw [Form.bare]
    exact ⟨_, htakes, .block hderives⟩
  | .empty ht =>
    obtain ⟨t, ht, htake⟩ := takes_advance ht
    rw [Form.bare]
    exact ⟨_, htake, .empty ht⟩
  | .function hfun hname hnames hb =>
    obtain ⟨fn, hfn, htake⟩ := takes_advance hfun
    obtain ⟨id, hid, htake'⟩ := takes_advance hname
    obtain ⟨ps, hps, hparams⟩ := hnames.derives
    obtain ⟨ts, htakes, hderives⟩ := hb.derives
    rw [Form.bare]
    exact ⟨fn :: id :: (ps ++ ts), htake.trans (htake'.trans (hps.trans htakes)),
      .function hfn hid hparams hderives⟩
  | .var hvar hds hend =>
    obtain ⟨kw, hkw, htake⟩ := takes_advance hvar
    obtain ⟨ts, htakes, hderives⟩ := hds.derives
    obtain ⟨last, semi, hlast, htakes', hend⟩ := hend.derives htakes
    rw [Form.bare]
    exact ⟨kw :: (ts ++ semi), htake.trans htakes', .var hkw hderives hlast hend⟩
  | .expr he hend =>
    obtain ⟨ts, htakes, hderives⟩ := he.derives
    obtain ⟨last, semi, hlast, htakes', hend⟩ := hend.derives htakes
    rw [Form.bare]
    exact ⟨_, htakes', .expr hderives hlast hend⟩

theorem ReadsStmts.derives {close : Option Token} {c c' : Cursor} {ss : List Stmt}
    (h : c.ReadsStmts close ss c') :
    ∃ ts, c.tokens = ts ++ c'.tokens ∧ DerivesStmts ts c'.tokens (stmtsBare ss) := by
  match h with
  | .nil _ =>
    rw [stmtsBare]
    exact ⟨[], rfl, .nil⟩
  | .cons _ _ (@ReadsStmt.owning _ _ c₁ _ hf hshares) hss =>
    -- sharing the comments out touches only the queue, so the form's tokens are the statement's
    obtain ⟨ts, htakes, hform⟩ := hf.derives
    obtain ⟨us, htokens, hderives⟩ := hss.derives
    have hbefore : c.tokens = ts ++ c₁.tokens := htakes.tokens
    have hafter : c₁.tokens = us ++ c'.tokens := htokens
    refine ⟨ts ++ us, by rw [hbefore, hafter, List.append_assoc], ?_⟩
    rw [hafter] at hform
    rw [stmtsBare, Stmt.bare]
    exact .cons hform hderives
end

theorem ReadsHead.derives (h : c.ReadsHead c') :
    ∃ ts, c.tokens = ts ++ c'.tokens ∧ DerivesHead ts := by
  cases h with
  | bare _ => exact ⟨[], rfl, .bare⟩
  | named hfun hname hnames =>
    obtain ⟨fn, hfn, htake⟩ := takes_advance hfun
    obtain ⟨id, hid, htake'⟩ := takes_advance hname
    obtain ⟨ps, hps, hparams⟩ := hnames.derives
    exact ⟨_, (htake.trans (htake'.trans hps)).tokens, .named hfn hid hparams⟩
  | anonymous hfun hnames =>
    obtain ⟨fn, hfn, htake⟩ := takes_advance hfun
    obtain ⟨ps, hps, hparams⟩ := hnames.derives
    exact ⟨_, (htake.trans hps).tokens, .anonymous hfn hparams⟩

end Cursor

/-! ## What is derivable is read -/

open Cursor

variable {c : Cursor} {ts rest : List (Located Token)}

theorem token?_ne_of_head {t : Token} (hc : c.tokens = rest) (h : ∀ l ∈ rest.head?, l.value ≠ t) :
    c.token? ≠ some t := by
  rw [token?_eq, hc]
  intro hhead
  obtain ⟨l, hl, hv⟩ := Option.map_eq_some_iff.mp hhead
  exact h l hl hv

theorem DerivesExpr.reads {e : Expr} (h : DerivesExpr ts e) (hc : c.tokens = ts ++ rest)
    (hrest : ∀ t ∈ rest.head?, t.value ≠ .equals) : ∃ c', c.ReadsExpr e c' ∧ c.Takes ts c' := by
  induction h generalizing c rest with
  | @operand t e hop =>
    obtain ⟨ht, htake, hrest'⟩ := takes_of_tokens hc rfl
    exact ⟨_, .operand ht hop (token?_ne_of_head hrest' hrest), htake⟩
  | @paren l ts r e hl _ hr ih =>
    rw [List.cons_append, List.append_assoc] at hc
    obtain ⟨hopen, htake, hin⟩ := takes_of_tokens hc hl
    obtain ⟨c₁, hread, htakes⟩ := ih hin (by simp [hr])
    obtain ⟨hclose, htake', hrest'⟩ := takes_of_tokens (htakes.tokens_eq hin) hr
    have hne := token?_ne_of_head hrest' hrest
    exact ⟨_, .paren hopen hread hclose hne, htake.trans (htakes.trans htake')⟩
  | assign hname heq _ ih =>
    obtain ⟨ht, htake, hc₁⟩ := takes_of_tokens hc hname
    obtain ⟨ht', htake', hc₂⟩ := takes_of_tokens hc₁ heq
    obtain ⟨c₁, hread, htakes⟩ := ih hc₂ hrest
    exact ⟨_, .assign ht ht' hread, htake.trans (htake'.trans htakes)⟩

theorem DerivesNames.reads {names : List String} {r : Located Token} (h : DerivesNames ts names)
    (hr : r.value = .closeParen) (hc : c.tokens = ts ++ r :: rest) :
    ∃ c', c.ReadsNames names c' ∧ c.Takes (ts ++ [r]) c' := by
  induction h generalizing c with
  | last hname =>
    obtain ⟨ht, htake, hc₁⟩ := takes_of_tokens hc hname
    obtain ⟨hclose, htake', -⟩ := takes_of_tokens hc₁ hr
    exact ⟨_, .last ht hclose, htake.trans htake'⟩
  | more hname hcomma _ ih =>
    obtain ⟨ht, htake, hc₁⟩ := takes_of_tokens hc hname
    obtain ⟨ht', htake', hc₂⟩ := takes_of_tokens hc₁ hcomma
    obtain ⟨c₁, hread, htakes⟩ := ih hc₂
    exact ⟨_, .more ht ht' hread, htake.trans (htake'.trans htakes)⟩

theorem DerivesParams.reads {names : List String} (h : DerivesParams ts names)
    (hc : c.tokens = ts ++ rest) : ∃ c', c.ReadsParams names c' ∧ c.Takes ts c' := by
  cases h with
  | none hl hr =>
    obtain ⟨hopen, htake, hc₁⟩ := takes_of_tokens hc hl
    obtain ⟨hclose, htake', -⟩ := takes_of_tokens hc₁ hr
    exact ⟨_, .none hopen hclose, htake.trans htake'⟩
  | some hl hnames hr =>
    rw [List.cons_append, List.append_assoc] at hc
    obtain ⟨hopen, htake, hc₁⟩ := takes_of_tokens hc hl
    obtain ⟨c₁, hread, htakes⟩ := hnames.reads hr hc₁
    exact ⟨_, .some hopen hread, htake.trans htakes⟩

/-- No expression and no list of declarators goes on with these tokens. -/
def Ends (rest : List (Located Token)) : Prop :=
  ∀ t ∈ rest.head?, t.value ≠ .equals ∧ t.value ≠ .comma

theorem DerivesDeclarator.reads {d : Declarator} (h : DerivesDeclarator ts d)
    (hc : c.tokens = ts ++ rest) (hrest : ∀ t ∈ rest.head?, t.value ≠ .equals) :
    ∃ c', c.token? = some (.ident d.name) ∧ c.advance.ReadsInit d.init c' ∧ c.Takes ts c' := by
  cases h with
  | bare hname =>
    obtain ⟨ht, htake, hc₁⟩ := takes_of_tokens hc hname
    exact ⟨_, ht, .none (token?_ne_of_head hc₁ hrest), htake⟩
  | init hname heq he =>
    obtain ⟨ht, htake, hc₁⟩ := takes_of_tokens hc hname
    obtain ⟨ht', htake', hc₂⟩ := takes_of_tokens hc₁ heq
    obtain ⟨c₁, hread, htakes⟩ := he.reads hc₂ hrest
    exact ⟨_, ht, .some ht' hread, htake.trans (htake'.trans htakes)⟩

theorem DerivesDeclarators.reads {ds : List Declarator} (h : DerivesDeclarators ts ds)
    (hc : c.tokens = ts ++ rest) (hrest : Ends rest) :
    ∃ c', c.ReadsDeclarators ds c' ∧ c.Takes ts c' := by
  induction h generalizing c with
  | last hd =>
    obtain ⟨c₁, hname, hinit, htakes⟩ := hd.reads hc fun t ht => (hrest t ht).1
    have hne := token?_ne_of_head (htakes.tokens_eq hc) fun t ht => (hrest t ht).2
    exact ⟨_, .last hname hinit hne, htakes⟩
  | more hd hcomma _ ih =>
    rw [List.append_assoc, List.cons_append] at hc
    obtain ⟨c₁, hname, hinit, htakes⟩ := hd.reads hc (by simp [hcomma])
    obtain ⟨ht, htake, hc₂⟩ := takes_of_tokens (htakes.tokens_eq hc) hcomma
    obtain ⟨c₂, hread, htakes'⟩ := ih hc₂
    exact ⟨_, .more hname hinit ht hread, htakes.trans (htake.trans htakes')⟩

theorem here_of_tokens {t : Located Token} (hc : c.tokens = t :: ts) : c.here = t.span.start := by
  unfold tokens at hc
  unfold here
  cases ha : c.ahead with
  | nil => simp [ha] at hc
  | cons p ps =>
    rw [ha] at hc
    obtain ⟨rfl, -⟩ := List.cons.inj hc
    rfl

theorem DerivesEnd.reads {c₁ : Cursor} {last : Located Token} {semi : List (Located Token)}
    (h : DerivesEnd last semi rest) (htakes : c.Takes ts c₁) (hlast : ts.getLast? = some last)
    (hc : c₁.tokens = semi ++ rest) : ∃ c', c₁.ReadsEnd c' ∧ c.Takes (ts ++ semi) c' := by
  obtain ⟨last', hlast', hstop⟩ := htakes.last
  obtain rfl : last = last' := Option.some.inj (hlast.symm.trans hlast')
  cases h with
  | semicolon hsemi =>
    obtain ⟨ht, htake, -⟩ := takes_of_tokens hc hsemi
    exact ⟨_, .semicolon ht, htakes.trans htake⟩
  | closeBrace hclose =>
    obtain ⟨ht, -, -⟩ := takes_of_tokens hc hclose
    exact ⟨_, .closeBrace ht, by simpa using htakes⟩
  | endOfInput =>
    refine ⟨_, .endOfInput ?_, by simpa using htakes⟩
    rw [token?_eq, hc]
    rfl
  | laterLine hne hline =>
    obtain ⟨ht, -, -⟩ := takes_of_tokens hc rfl
    refine ⟨_, .laterLine ?_ ?_, by simpa using htakes⟩
    · intro hsemi
      exact hne (Option.some.inj (ht.symm.trans hsemi))
    · rw [hstop, here_of_tokens hc]
      exact hline

/-- A statement that is followed by a semicolon has taken it, so nothing stands between the end of an
expression and what ends it. -/
theorem DerivesEnd.ends {last : Located Token} {semi : List (Located Token)}
    (h : DerivesEnd last semi rest) (hrest : Ends rest) : Ends (semi ++ rest) := by
  cases h with
  | semicolon hsemi => simp [Ends, hsemi]
  | _ => exact hrest

theorem DerivesExpr.head {e : Expr} (h : DerivesExpr ts e) : ∃ t us, ts = t :: us ∧
    t.value ≠ .equals ∧ t.value ≠ .comma ∧ t.value ≠ .closeBrace := by
  cases h with
  | @operand t _ hop =>
    refine ⟨t, [], rfl, ?_, ?_, ?_⟩ <;>
      · intro ht
        rw [ht] at hop
        cases hop
  | paren hl _ _ => exact ⟨_, _, rfl, by simp [hl]⟩
  | assign hname _ _ => exact ⟨_, _, rfl, by simp [hname]⟩

theorem DerivesForm.head {f : Form} (h : DerivesForm ts rest f) : ∃ t us, ts = t :: us ∧
    t.value ≠ .equals ∧ t.value ≠ .comma ∧ t.value ≠ .closeBrace := by
  cases h with
  | block hb =>
    obtain ⟨hl, -, -⟩ := hb
    exact ⟨_, _, rfl, by simp [hl]⟩
  | empty ht => exact ⟨_, _, rfl, by simp [ht]⟩
  | function hfn _ _ _ => exact ⟨_, _, rfl, by simp [hfn]⟩
  | var hkw _ _ _ => exact ⟨_, _, rfl, by simp [hkw]⟩
  | expr he _ _ =>
    obtain ⟨t, us, rfl, hne⟩ := he.head
    exact ⟨t, _, rfl, hne⟩

theorem DerivesStmts.ends {us : List (Located Token)} {ss : List Stmt} (h : DerivesStmts us rest ss)
    (hrest : Ends rest) : Ends (us ++ rest) := by
  cases h with
  | nil => exact hrest
  | cons hf _ =>
    obtain ⟨t, us, rfl, heq, hcomma, -⟩ := hf.head
    simp [Ends, heq, hcomma]

/-- Statements end here: at a closing brace or at the end of the text. -/
def Closed (rest : List (Located Token)) : Prop :=
  rest = [] ∨ ∃ r tail, rest = r :: tail ∧ r.value = .closeBrace

theorem Closed.ends (h : Closed rest) : Ends rest := by
  rcases h with rfl | ⟨r, tail, rfl, hr⟩
  · simp [Ends]
  · simp [Ends, hr]

theorem Closed.ne_head (h : Closed rest) {t : Token} (ht : t ≠ .closeBrace) :
    rest.head?.map Located.value ≠ some t := by
  rcases h with rfl | ⟨r, tail, rfl, hr⟩
  · simp
  · simpa [hr] using ht.symm

mutual
theorem DerivesForm.reads {c : Cursor} {ts rest : List (Located Token)} {f : Form}
    (h : DerivesForm ts rest f) (hc : c.tokens = ts ++ rest) (hrest : Ends rest) :
    ∃ f' c', c.ReadsForm f' c' ∧ f'.bare = f ∧ c.Takes ts c' := by
  match h with
  | .block hb =>
    obtain ⟨b, c', hread, rfl, htakes⟩ := hb.reads hc
    exact ⟨_, _, .block hread, by rw [Form.bare], htakes⟩
  | .empty ht =>
    obtain ⟨ht, htake, -⟩ := takes_of_tokens hc ht
    exact ⟨_, _, .empty ht, by rw [Form.bare], htake⟩
  | .function hfn hid hparams hb =>
    simp only [List.cons_append, List.append_assoc] at hc
    obtain ⟨ht, htake, hc₁⟩ := takes_of_tokens hc hfn
    obtain ⟨ht', htake', hc₂⟩ := takes_of_tokens hc₁ hid
    obtain ⟨c₃, hnames, hps⟩ := hparams.reads hc₂
    obtain ⟨b, c', hread, rfl, htakes⟩ := hb.reads (hps.tokens_eq hc₂)
    exact ⟨_, _, .function ht ht' hnames hread, by rw [Form.bare],
      htake.trans (htake'.trans (hps.trans htakes))⟩
  | .var hkw hds hlast hend =>
    simp only [List.cons_append, List.append_assoc] at hc
    obtain ⟨ht, htake, hc₁⟩ := takes_of_tokens hc hkw
    obtain ⟨c₂, hread, htakes⟩ := hds.reads hc₁ (hend.ends hrest)
    obtain ⟨c', hreads, htakes'⟩ := hend.reads htakes hlast (htakes.tokens_eq hc₁)
    exact ⟨_, _, .var ht hread hreads, by rw [Form.bare], htake.trans htakes'⟩
  | .expr he hlast hend =>
    rw [List.append_assoc] at hc
    obtain ⟨c₁, hread, htakes⟩ := he.reads hc fun t ht => (hend.ends hrest t ht).1
    obtain ⟨c', hreads, htakes'⟩ := hend.reads htakes hlast (htakes.tokens_eq hc)
    exact ⟨_, _, .expr hread hreads, by rw [Form.bare], htakes'⟩

theorem DerivesBlock.reads {c : Cursor} {ts rest : List (Located Token)} {b : Body}
    (h : DerivesBlock ts rest b) (hc : c.tokens = ts ++ rest) :
    ∃ b' c', c.ReadsBlock b' c' ∧ b'.bare = b ∧ c.Takes ts c' := by
  match h with
  | @DerivesBlock.braces l ts r _ _ hl hss hr =>
    simp only [List.cons_append, List.append_assoc] at hc
    obtain ⟨hopen, htake, hin⟩ := takes_of_tokens (c := c.withQueue []) hc hl
    obtain ⟨ss, c₁, hread, rfl, hafter⟩ := hss.reads hin (.inr ⟨r, _, rfl, hr⟩)
    obtain ⟨hclose, htake', -⟩ := takes_of_tokens (c := c₁.withQueue []) hafter hr
    have htokens := hin.trans (congrArg (ts ++ ·) hafter.symm)
    rw [show (r :: rest).head?.map Located.value = some .closeBrace from congrArg some hr] at hread
    refine ⟨_, _, .braces hopen hread hclose rfl, ?_, takes_braces htake htokens htake'⟩
    rw [Body.bare]

theorem DerivesStmts.reads {c : Cursor} {ts rest : List (Located Token)} {ss : List Stmt}
    (h : DerivesStmts ts rest ss) (hc : c.tokens = ts ++ rest) (hclosed : Closed rest) :
    ∃ ss' c', c.ReadsStmts (rest.head?.map Located.value) ss' c' ∧ stmtsBare ss' = ss ∧
      c'.tokens = rest := by
  match h with
  | .nil =>
    refine ⟨[], c, .nil ?_, by rw [stmtsBare], hc⟩
    rw [token?_eq, hc]
    rfl
  | .cons hf hss =>
    obtain ⟨t, us, rfl, -, -, hne⟩ := hf.head
    rw [List.append_assoc] at hc
    obtain ⟨ht, -, -⟩ := takes_of_tokens hc rfl
    obtain ⟨f, c₁, hform, rfl, htakes⟩ :=
      hf.reads (c := (c.withQueue []).record (.readingStmt c.here c.found)) hc (hss.ends hclosed.ends)
    obtain ⟨ss, c₂, hread, rfl, hafter⟩ :=
      hss.reads (c := c₁.withQueue (shareOut c₁.prevStop c₁.queue).rest) (htakes.tokens_eq hc) hclosed
    refine ⟨_, c₂, .cons ht (hclosed.ne_head hne) (.owning hform rfl) hread, ?_, hafter⟩
    rw [stmtsBare, Stmt.bare]
end

theorem DerivesHead.reads (h : DerivesHead ts) (hc : c.tokens = ts ++ rest)
    (hrest : ∀ t ∈ rest.head?, t.value ≠ .function) : ∃ c', c.ReadsHead c' ∧ c'.tokens = rest := by
  cases h with
  | bare => exact ⟨c, .bare (token?_ne_of_head hc hrest), hc⟩
  | anonymous hfn hparams =>
    obtain ⟨ht, -, hc₁⟩ := takes_of_tokens hc hfn
    obtain ⟨c₂, hnames, htakes⟩ := hparams.reads hc₁
    exact ⟨_, .anonymous ht hnames, htakes.tokens_eq hc₁⟩
  | named hfn hid hparams =>
    obtain ⟨ht, -, hc₁⟩ := takes_of_tokens hc hfn
    obtain ⟨ht', -, hc₂⟩ := takes_of_tokens hc₁ hid
    obtain ⟨c₃, hnames, htakes⟩ := hparams.reads hc₂
    exact ⟨_, .named ht ht' hnames, htakes.tokens_eq hc₂⟩

/-! ## Whole texts -/

namespace Fragment

variable {f : Fragment} {text : String} {ls : List (Located Lexeme)}

theorem derives_of_read {c' : Cursor} {b : Body} (h : f.read c = .ok b c') :
    f.Derives c.tokens b.bare := by
  cases f with
  | program =>
    obtain ⟨ss, c₁, hss, rfl, -⟩ := read_program_iff.mp h
    obtain ⟨ts, htokens, hderives⟩ := hss.derives
    have hnil : c₁.tokens = [] := by rw [tokens, ahead_eq_nil hss.token?_eq]; rfl
    rw [hnil] at htokens hderives
    rw [htokens, List.append_nil, Body.bare]
    exact .program hderives
  | function =>
    obtain ⟨c₁, inner, c₂, hhead, hblock, hnone, rfl, -⟩ := read_function_iff.mp h
    obtain ⟨ts, htokens, hderives⟩ := hhead.derives
    obtain ⟨us, htakes, hderives'⟩ := hblock.derives
    have hnil : c₂.tokens = [] := by rw [tokens, ahead_eq_nil hnone]; rfl
    have hafter : c₁.tokens = us ++ c₂.tokens := htakes.tokens
    rw [hnil] at hderives'
    rw [htokens, hafter, hnil, List.append_nil, Body.bare_trail, Body.bare_lead]
    exact .function hderives hderives'

theorem read_of_derives {t : Body} (h : f.Derives c.tokens t) :
    ∃ b c', f.read c = .ok b c' ∧ b.bare = t := by
  generalize hts : c.tokens = ts at h
  cases h with
  | program hss =>
    obtain ⟨ss, c₁, hread, rfl, -⟩ := hss.reads (hts.trans (List.append_nil _).symm) (.inl rfl)
    exact ⟨_, _, read_program_iff.mpr ⟨ss, c₁, hread, rfl, rfl⟩, by rw [Body.bare]⟩
  | function hhead hblock =>
    obtain ⟨hl, -, -⟩ := id hblock
    obtain ⟨c₁, hread, hafter⟩ := hhead.reads hts (by simp [hl])
    obtain ⟨b, c₂, hread', hbare, htakes⟩ :=
      hblock.reads (c := c₁.withQueue []) (hafter.trans (List.append_nil _).symm)
    have hnone : c₂.token? = none := by
      rw [token?_eq, htakes.tokens_eq (hafter.trans (List.append_nil _).symm)]
      rfl
    refine ⟨_, _, read_function_iff.mpr ⟨c₁, b, c₂, hread, hread', hnone, rfl, rfl⟩, ?_⟩
    rw [Body.bare_trail, Body.bare_lead, hbare]

theorem tokens_start (text : String) (ls : List (Located Lexeme)) :
    (Cursor.start text ls).tokens = significant ls :=
  (significant_eq ls).symm

theorem derives_of_parse {b : Body} (hls : tokenize text = .ok ls) (h : f.parse text = .ok b) :
    f.Derives (significant ls) b.bare := by
  obtain ⟨ls', hls', c', hread⟩ := parse_eq_ok_iff.mp h
  obtain rfl : ls' = ls := Except.ok.inj (hls'.symm.trans hls)
  rw [← tokens_start text]
  exact derives_of_read hread

theorem parse_of_derives {t : Body} (hls : tokenize text = .ok ls) (h : f.Derives (significant ls) t) :
    ∃ b, f.parse text = .ok b ∧ b.bare = t := by
  rw [← tokens_start text] at h
  obtain ⟨b, c', hread, hbare⟩ := read_of_derives h
  exact ⟨b, parse_eq_ok_iff.mpr ⟨ls, hls, c', hread⟩, hbare⟩

/-- Reading accepts what the grammar derives and nothing else, and the tree that it gives is, without
its comments, the only one derivable. -/
theorem parse_iff_derives (f : Fragment) (hls : tokenize text = .ok ls) :
    ((∃ b, f.parse text = .ok b) ↔ ∃ t, f.Derives (significant ls) t) ∧
      ∀ b, f.parse text = .ok b → ∀ t, f.Derives (significant ls) t ↔ t = b.bare := by
  refine ⟨⟨?_, ?_⟩, fun b h t => ⟨fun ht => ?_, ?_⟩⟩
  · intro h
    obtain ⟨b, h⟩ := h
    exact ⟨_, derives_of_parse hls h⟩
  · intro h
    obtain ⟨t, ht⟩ := h
    obtain ⟨b, h, -⟩ := parse_of_derives hls ht
    exact ⟨b, h⟩
  · obtain ⟨b', h', rfl⟩ := parse_of_derives hls ht
    rw [Except.ok.inj (h.symm.trans h')]
  · intro ht
    rw [ht]
    exact derives_of_parse hls h

/-- The first statement ends where its line does, past a comment, and the second one takes the
semicolon of the next line. -/
theorem parse_iff_derives_lines :
    ∃ ls, tokenize "a = b // c\nvar d\n;" = .ok ls ∧
      (∃ b, program.parse "a = b // c\nvar d\n;" = .ok b) ∧
      ∀ t, program.Derives (significant ls) t ↔
        t = ⟨[⟨[], .expr (.assign "a" (.ident "b")), []⟩, ⟨[], .var [⟨"d", none⟩], []⟩], []⟩ := by
  have h : program.parse "a = b // c\nvar d\n;" =
      .ok ⟨[⟨[], .expr (.assign "a" (.ident "b")), [⟨.line, "// c"⟩]⟩,
        ⟨[], .var [⟨"d", none⟩], []⟩], []⟩ := by cbv
  obtain ⟨ls, hls, -⟩ := parse_eq_ok_iff.mp h
  refine ⟨ls, hls, ⟨_, h⟩, ?_⟩
  have hone := (parse_iff_derives program hls).2 _ h
  simpa only [Body.bare, stmtsBare, Stmt.bare, Form.bare] using hone

end Fragment

end Reprint
