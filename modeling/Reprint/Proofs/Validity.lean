import Reprint.Proofs.Calls
import Reprint.Proofs.WellFormed

/-!
# Whatever a cursor gives out is a valid tree

A cursor on a text can be called in any order and goes on after failures. What it has ahead and what
it has queued always comes from the text (`Cursor.Sound`): every call keeps this, also one that
fails, and a call that succeeds gives a valid node (`Answers.sound`, `Refuses.sound`). So every
answer in a row of calls is valid (`calls_give_valid_nodes`).
-/

namespace Reprint

/-- The statements of a node at any depth. -/
def Node.within : Node → List Stmt
  | program b | block b => b.within
  | stmt s => s.within
  | expr _ => []

/-- Names, literals and comments are spelled as lexemes are, every `var` declares something, and of
the comments behind a statement only the last spans lines. -/
structure Node.Valid (node : Node) : Prop where
  expr : ∀ e, node = .expr e → e.Spelled
  forms : ∀ s ∈ node.within, s.form.Spelled
  comments : ∀ k ∈ node.comments, k.Spelled
  trailing : ∀ s ∈ node.within, ∀ k ∈ s.trailing.dropLast, '\n' ∉ k.text.toList

namespace Cursor

/-- Nothing is ahead or queued but what a text can hold. -/
structure Sound (c : Cursor) : Prop where
  ahead : Reprint.Sound (fun k => '\n' ∉ k.text.toList) c.ahead
  pending : ∀ k ∈ values c.pending, k.Spelled

theorem sound_start {text : String} {ls : List (Located Lexeme)} (hls : tokenize text = .ok ls) :
    (start text ls).Sound := by
  have hlexed := tokenize_eq_ok_iff.mp hls
  refine ⟨sound_of_lexed hlexed hlexed.oneLine, ?_⟩
  intro k hk
  have hpending : values (start text ls).pending = lexemeComments ls := comments_of_pieces ls
  rw [hpending] at hk
  obtain ⟨⟨x, span⟩, hl, hlk⟩ := List.mem_filterMap.mp hk
  have hspelled := hlexed.spelled _ hl
  cases x with
  | token t => cases hlk
  | comment k' =>
    cases hlk
    exact hspelled

variable {c c' : Cursor} {k : Call} {node : Node} {ex : Expected}

theorem Sound.moved (h : c.Sound) (hmoves : c.Moves c') (hsub : values c'.pending ⊆ values c.pending) :
    c'.Sound := by
  obtain ⟨us, hus⟩ := hmoves.ahead_eq
  refine ⟨h.ahead.sublist (hus ▸ List.sublist_append_right ..), ?_⟩
  intro k hk
  exact h.pending k (hsub hk)

theorem Answers.within (h : c.Answers k node c') (hc : c.Sound) :
    ∀ s ∈ node.within, s.Sound fun k => '\n' ∉ k.text.toList := by
  cases h with
  | stmt hs => exact hs.within hc.ahead
  | block hb => exact hb.within hc.ahead
  | expr _ => simp [Node.within]
  | program hb => exact Fragment.within_of_read .program hb hc.ahead
  | functionBody hb => exact Fragment.within_of_read .function hb hc.ahead

/-- A call that succeeds gives a valid node. -/
theorem Answers.valid (h : c.Answers k node c') (hc : c.Sound) : node.Valid := by
  have hwithin := h.within hc
  refine ⟨?_, fun s hs => (hwithin s hs).form, ?_, fun s hs => (hwithin s hs).trailing⟩
  · rintro e rfl
    cases h with
    | expr he => exact he.spelled hc.ahead
  · intro k hk
    -- the comments of the node are among those that had no owner yet
    apply hc.pending
    apply (h.pending_perm hc.ahead.orderly).subset
    exact List.mem_append_left _ hk

theorem Answers.sound (h : c.Answers k node c') (hc : c.Sound) : c'.Sound := by
  apply hc.moved h.moves
  intro k hk
  apply (h.pending_perm hc.ahead.orderly).subset
  exact List.mem_append_right _ hk

theorem Refuses.sound (h : c.Refuses k ex c') (hc : c.Sound) : c'.Sound :=
  hc.moved h.moves (h.loses hc.ahead.orderly).subset

theorem Sound.calls (hc : c.Sound) (ks : List Call) :
    (∀ node, .ok node ∈ (c.calls ks).1 → node.Valid) ∧ (c.calls ks).2.Sound := by
  induction ks generalizing c with
  | nil => simpa [Cursor.calls] using hc
  | cons k ks ih =>
    cases hcall : c.call k with
    | ok node c' =>
      have hanswers := call_eq_ok_iff.mp hcall
      obtain ⟨hvalid, hlast⟩ := ih (hanswers.sound hc)
      simp only [Cursor.calls, hcall, List.mem_cons]
      refine ⟨?_, hlast⟩
      rintro node' (hnode' | hnode')
      · cases hnode'
        exact hanswers.valid hc
      · exact hvalid node' hnode'
    | error e c' =>
      obtain ⟨ex, -, hrefuses⟩ := call_eq_error_iff.mp hcall
      obtain ⟨hvalid, hlast⟩ := ih (hrefuses.sound hc)
      simp only [Cursor.calls, hcall, List.mem_cons]
      refine ⟨?_, hlast⟩
      rintro node' (hnode' | hnode')
      · cases hnode'
      · exact hvalid node' hnode'

/-- Every node that is given out in a row of calls on one text is valid, whatever calls have failed
before it. -/
theorem calls_give_valid_nodes {text : String} {ls : List (Located Lexeme)}
    (hls : tokenize text = .ok ls) (ks : List Call) {node : Node}
    (h : .ok node ∈ ((start text ls).calls ks).1) : node.Valid :=
  ((sound_start hls).calls ks).1 node h

/-- After a call that fails, a statement with two trailing comments, of which the last spans lines. -/
theorem calls_give_valid_nodes_after_failure :
    ∃ ls, tokenize "; var q = 'a' // b\r/*c\n*/" = .ok ls ∧
      Except.ok (.stmt ⟨[], .var [⟨"q", some (.string "'a'")⟩],
        [⟨.line, "// b"⟩, ⟨.block, "/*c\n*/"⟩]⟩) ∈
          ((start "; var q = 'a' // b\r/*c\n*/" ls).calls [.expr, .stmt, .stmt]).1 ∧
      Node.Valid (.stmt ⟨[], .var [⟨"q", some (.string "'a'")⟩],
        [⟨.line, "// b"⟩, ⟨.block, "/*c\n*/"⟩]⟩) := by
  obtain ⟨ls, hls, hcalls⟩ : ∃ ls, tokenize "; var q = 'a' // b\r/*c\n*/" = .ok ls ∧
      ((start "; var q = 'a' // b\r/*c\n*/" ls).calls [.expr, .stmt, .stmt]).1 =
        [.error ⟨"expression", "`;`", ⟨0, 1, 1⟩⟩, .ok (.stmt ⟨[], .empty, []⟩),
          .ok (.stmt ⟨[], .var [⟨"q", some (.string "'a'")⟩],
            [⟨.line, "// b"⟩, ⟨.block, "/*c\n*/"⟩]⟩)] := ⟨_, by cbv, by cbv⟩
  have hmem : Except.ok (.stmt ⟨[], .var [⟨"q", some (.string "'a'")⟩],
      [⟨.line, "// b"⟩, ⟨.block, "/*c\n*/"⟩]⟩) ∈
        ((start "; var q = 'a' // b\r/*c\n*/" ls).calls [.expr, .stmt, .stmt]).1 := by simp [hcalls]
  exact ⟨ls, hls, hmem, calls_give_valid_nodes hls _ hmem⟩

end Cursor

end Reprint
