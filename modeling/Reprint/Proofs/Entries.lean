import Reprint.Proofs.Carriage
import Reprint.Proofs.Ranges

/-!
# Programs that are one function

A text that is one block or one function declaration can be read as a program and as a function. The
first reading gives the comments around the body to the statement and to the program, the second puts
them into the body, and they end up in the same order (`Fragment.entries_agree`). Only a function
without a name can be read as a function and not as a program.
-/

namespace Reprint

namespace Cursor

variable {c c' d : Cursor} {q : List (Located Comment)} {b : Body}

/-- A block takes its own comments and queues those behind it, whatever was queued before. -/
theorem ReadsBlock.requeue (h : c.ReadsBlock b c') : ∃ own, c'.queue = c.queue ++ own ∧
    ∀ q, (c.withQueue q).ReadsBlock b (c'.withQueue (q ++ own)) := by
  cases h with
  | @braces _ ss c₁ c₂ hopen hss hclose hc =>
    refine ⟨c₂.queue, rfl, ?_⟩
    intro q
    exact .braces (c := c.withQueue q) hopen hss hclose hc

/-- The head of a statement with a body is the head of a function, and what it holds back is queued
when the body begins. -/
theorem ReadsForm.enter {f : Form} (h : c.ReadsForm f c') (hb : f.body? = some b) (hq : c.queue = [])
    (ho : Orderly c.ahead) (hs : Carries id q c d) : ∃ c₁ d₁ passed last, d.ReadsHead d₁ ∧
      Carries id q c₁ d₁ ∧ c₁.ReadsBlock b c' ∧ c.Accounts b.comments passed c₁.queue last c' := by
  cases h with
  | block hblock =>
    cases hb
    have hopen : c.token? = some .openBrace := by cases hblock; assumption
    have hbare : d.ReadsHead d := .bare (by simp [hs.token?_eq, hopen])
    obtain ⟨passed, last, hacc⟩ := hblock.account ho
    refine ⟨c, d, passed, last, hbare, hs, hblock, ?_⟩
    rwa [hq]
  | function hfun hname hnames hblock =>
    cases hb
    obtain ⟨us, p, hp⟩ := (advances_advance hfun).trans ((advances_advance hname).trans hnames.advances)
    have ho₁ := ho.sublist (hp.ahead ▸ (List.sublist_cons_self ..).trans (List.sublist_append_right ..))
    obtain ⟨passed, last, hacc⟩ := hblock.account ho₁
    obtain ⟨hfun', hname', hs₂⟩ := hs.advance₂ hfun hname
    obtain ⟨d₁, hnames', hs₁⟩ := hnames.carried hs₂.toCarries
    have hqueue := hp.queue
    rw [hq, List.nil_append] at hqueue
    have hall := hp.trans_accounts hacc
    rw [List.append_nil, ← hqueue] at hall
    exact ⟨_, _, _, last, .named hfun' hname' hnames', ⟨hs₁.ahead, hs₁.queue, hs₁.textStop⟩, hblock,
      hall⟩
  | _ => cases hb

end Cursor

namespace Fragment

open Cursor

/-- The comments that the statement owns go in front of its body and behind it, with those that the
program keeps last. -/
theorem read_function_of_program {c c' : Cursor} {p b : Body} {s : Stmt} (ho : Orderly c.ahead)
    (h : program.read c = .ok p c') (hs : p.stmts = [s]) (hb : s.form.body? = some b) :
    ∃ d', function.read c = .ok ((b.lead s.leading).trail (s.trailing ++ p.dangling)) d' := by
  obtain ⟨ss, c₁, hss, rfl, -⟩ := read_program_iff.mp h
  obtain rfl : ss = [s] := hs
  obtain ⟨f, c₂, hf, hnone, rfl, rfl⟩ : ∃ f c₂,
      ReadsForm ((c.withQueue []).record (.readingStmt c.here c.found)) f c₂ ∧ c₂.token? = none ∧
        s = ⟨c.comments ++ (shareOut c₂.prevStop c₂.queue).inside, f,
          (shareOut c₂.prevStop c₂.queue).behind⟩ ∧
        c₁ = c₂.withQueue (shareOut c₂.prevStop c₂.queue).rest := by
    cases hss with
    | cons _ _ hstmt hrest =>
      cases hstmt with
      | @owning _ f c₂ _ hf hshares =>
        subst hshares
        cases hrest with
        | nil hnone => exact ⟨f, c₂, hf, hnone, rfl, rfl⟩
  have hstart : Carries id c.queue ((c.withQueue []).record (.readingStmt c.here c.found)) c :=
    carries_id_iff.mpr ⟨rfl, (List.append_nil _).symm, rfl⟩
  obtain ⟨c₁, d₁, passed, last, hhead, hs₁, hblock, hacc⟩ := hf.enter hb rfl ho hstart
  -- the body is read with nothing queued, which changes neither the body nor what is behind it
  obtain ⟨own, hqueue, hblock'⟩ := hblock.requeue
  obtain ⟨d₂, hread, hs₂⟩ := (hblock' []).carried hs₁.emptied
  rw [Body.relabel_id] at hread
  have hown : own = last.after := by
    have hsame := hqueue.symm.trans hacc.queue
    exact List.append_cancel_left hsame
  have hbehind : values (last.after.takeWhile (startsOnLine last.span.stop)) ++
      values (last.after.dropWhile (startsOnLine last.span.stop)) = values last.after := by
    rw [← values_append, List.takeWhile_append_dropWhile]
  refine ⟨_, read_function_iff.mpr ⟨d₁, b, d₂, hhead, hread, hs₂.token?_eq.trans hnone, ?_, rfl⟩⟩
  rw [hs₁.comments_eq, hs₂.comments_eq, hacc.shareOut rfl ho]
  simp [hown, hbehind]

theorem eq_sole_of_bare {p : Body} {f : Form} {b : Body} (h : p.bare = ⟨[⟨[], f, []⟩], []⟩)
    (hb : f.body? = some b) : ∃ s b', p.stmts = [s] ∧ s.form.body? = some b' := by
  match p with
  | ⟨[], dangling⟩ => simp [Body.bare, stmtsBare] at h
  | ⟨s :: s' :: ss, dangling⟩ => simp [Body.bare, stmtsBare] at h
  | ⟨[⟨leading, f', trailing⟩], dangling⟩ =>
    simp only [Body.bare, stmtsBare, Stmt.bare, Body.mk.injEq, List.cons.injEq, Stmt.mk.injEq] at h
    obtain ⟨⟨⟨-, rfl, -⟩, -⟩, -⟩ := h
    cases f' with
    | block b' => exact ⟨_, b', rfl, rfl⟩
    | function name names b' => exact ⟨_, b', rfl, rfl⟩
    | _ =>
      rw [Form.bare] at hb
      cases hb

/-- What the grammar derives as a function with a name, or as a block, it derives as a program. -/
theorem derives_program_of_function {toks : List (Located Token)} {b : Body}
    (h : function.Derives toks b) :
    (∃ l r rest, toks = l :: r :: rest ∧ l.value = .function ∧ r.value = .openParen) ∨
      ∃ f, program.Derives toks ⟨[⟨[], f, []⟩], []⟩ ∧ f.body? = some b := by
  cases h with
  | @function head ts _ hhead hblock =>
    have hsole {ts : List (Located Token)} {f : Form} (hf : DerivesForm ts [] f) :
        program.Derives ts ⟨[⟨[], f, []⟩], []⟩ := by
      have hcons : DerivesStmts (ts ++ []) [] [⟨[], f, []⟩] := .cons hf .nil
      rw [List.append_nil] at hcons
      exact .program hcons
    cases hhead with
    | bare => exact .inr ⟨_, hsole (.block hblock), rfl⟩
    | named hfn hid hparams => exact .inr ⟨_, hsole (.function hfn hid hparams hblock), rfl⟩
    | anonymous hfn hparams =>
      left
      cases hparams with
      | none hl _ => exact ⟨_, _, _, rfl, hfn, hl⟩
      | some hl _ _ => exact ⟨_, _, _, rfl, hfn, hl⟩

theorem parse_function_of_program {text : String} {p b : Body} {s : Stmt}
    (h : program.parse text = .ok p) (hs : p.stmts = [s]) (hb : s.form.body? = some b) :
    function.parse text = .ok ((b.lead s.leading).trail (s.trailing ++ p.dangling)) := by
  obtain ⟨ls, hls, c', hread⟩ := parse_eq_ok_iff.mp h
  have ho : Orderly (Cursor.start text ls).ahead := (tokenize_eq_ok_iff.mp hls).orderly
  obtain ⟨d', hread'⟩ := read_function_of_program ho hread hs hb
  exact parse_eq_ok_iff.mpr ⟨ls, hls, d', hread'⟩

/-- The two ways to read a text agree. A program that is one statement with a body is read as a
function with that body, where the comments of the statement and of the program keep their order. A
text that is read as a function is such a program, unless it starts as a function without a name. -/
theorem entries_agree (text : String) :
    (∀ p s b, program.parse text = .ok p → p.stmts = [s] → s.form.body? = some b →
      function.parse text = .ok ((b.lead s.leading).trail (s.trailing ++ p.dangling))) ∧
    ∀ b', function.parse text = .ok b' →
      (∃ ls l r rest, tokenize text = .ok ls ∧ significant ls = l :: r :: rest ∧
        l.value = .function ∧ r.value = .openParen) ∨
      ∃ p s b, program.parse text = .ok p ∧ p.stmts = [s] ∧ s.form.body? = some b ∧
        b' = (b.lead s.leading).trail (s.trailing ++ p.dangling) := by
  constructor
  · intro p s b
    exact parse_function_of_program
  · intro b' h
    obtain ⟨ls, hls, -⟩ := parse_eq_ok_iff.mp h
    rcases derives_program_of_function (derives_of_parse hls h) with
      ⟨l, r, rest, htoks, hl, hr⟩ | ⟨f, hderives, hf⟩
    · exact .inl ⟨ls, l, r, rest, hls, htoks, hl, hr⟩
    · -- the grammar gives the program, and reading that as a function gives what was read at first
      obtain ⟨p, hp, hbare⟩ := parse_of_derives hls hderives
      obtain ⟨s, b, hs, hb⟩ := eq_sole_of_bare hbare hf
      have hagain := parse_function_of_program hp hs hb
      exact .inr ⟨p, s, b, hp, hs, hb, Except.ok.inj (h.symm.trans hagain)⟩

/-- Comments in the head of a function, behind its body on the same line, and at the end. -/
theorem entries_agree_named :
    ∃ p s b, program.parse "/*a*/ function f(/*b*/) \x7b g \x7d // c\n/*d*/" = .ok p ∧
      p.stmts = [s] ∧ s.form.body? = some b ∧
      s.leading = [⟨.block, "/*a*/"⟩, ⟨.block, "/*b*/"⟩] ∧ s.trailing = [⟨.line, "// c"⟩] ∧
      function.parse "/*a*/ function f(/*b*/) \x7b g \x7d // c\n/*d*/" =
        .ok ⟨[⟨[⟨.block, "/*a*/"⟩, ⟨.block, "/*b*/"⟩], .expr (.ident "g"), []⟩],
          [⟨.line, "// c"⟩, ⟨.block, "/*d*/"⟩]⟩ := by
  have h : program.parse "/*a*/ function f(/*b*/) \x7b g \x7d // c\n/*d*/" =
      .ok ⟨[⟨[⟨.block, "/*a*/"⟩, ⟨.block, "/*b*/"⟩],
        .function "f" [] ⟨[⟨[], .expr (.ident "g"), []⟩], []⟩, [⟨.line, "// c"⟩]⟩],
        [⟨.block, "/*d*/"⟩]⟩ := by cbv
  obtain ⟨hagree, -⟩ := entries_agree "/*a*/ function f(/*b*/) \x7b g \x7d // c\n/*d*/"
  exact ⟨_, _, _, h, rfl, rfl, rfl, rfl, hagree _ _ _ h rfl rfl⟩

end Fragment

end Reprint
