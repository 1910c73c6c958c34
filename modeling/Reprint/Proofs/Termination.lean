import Reprint.Proofs.Calls

/-!
# Reading ends

The readers are written down once more as scripts: the cursor is a state that changes on the way,
lists are collected item by item, and a routine may call any other, or itself, with nothing to bound
it. `Script.Ends` says what a script does if it ends; there is no derivation of it for a script that
runs for ever. Between two turns of a loop, and on the way into a call of the same kind, a token is
passed. So from every cursor the scripts end, and they end as the readers do
(`Script.endsAs_operators`, `Script.endsAs_stmts` and the like).
-/

namespace Reprint

/-! ## Scripts -/

/-- The parts of reading that call each other. A loop calls itself with what it has so far: an
expression in front of the next operator, or a list of items. -/
inductive Routine : Type → Type
  | operand : Routine Expr
  | exprAbove (least : Nat) : Routine Expr
  | operators (least : Nat) (lhs : Expr) : Routine Expr
  | paramNames (names : List String) : Routine (List String)
  | declarators (ds : List Declarator) : Routine (List Declarator)
  | block : Routine Body
  | form : Routine Form
  | stmt : Routine Stmt
  | stmts (close : Option Token) (ss : List Stmt) : Routine (List Stmt)

/-- What a routine does: it gives a value, it stops in front of an unexpected token, it looks at the
cursor and changes it, it calls a routine, or it goes on from one of these to the next. -/
inductive Script : Type → Type 1
  | done {α} (a : α) : Script α
  | unexpected {α} (ex : Expected) : Script α
  | step {α} (f : Cursor → α × Cursor) : Script α
  | call {α} (r : Routine α) : Script α
  | andThen {α β} (x : Script α) (f : α → Script β) : Script β

namespace Script

instance : Monad Script where
  pure := done
  bind := andThen

/-! ### Single tokens -/

def cursor : Script Cursor := step fun c => (c, c)

def update (f : Cursor → Cursor) : Script Unit := step fun c => ((), f c)

def next : Script Unit := update Cursor.advance

/-- Passes the token `t` if it is the next one. -/
def eat (t : Token) : Script Bool := do
  if (← cursor).token? = some t then
    next
    return true
  else
    return false

def expect (t : Token) : Script Unit := do
  if ← eat t then
    return
  else
    unexpected (.token t)

def identifier : Script String := do
  match (← cursor).token? with
  | some (.ident name) =>
    next
    return name
  | _ => unexpected .identifier

def takeQueue : Script (List (Located Comment)) := step fun c => (c.queue, c.withQueue [])

def takeComments : Script (List Comment) := step fun c => (c.comments, c.withQueue [])

/-! ### Expressions -/

def operand : Script Expr := do
  match (← cursor).token? with
  | some .openParen =>
    next
    let inner ← call (.exprAbove 0)
    expect .closeParen
    return .paren inner
  | some t =>
    match t.operand? with
    | some e =>
      next
      return e
    | none => unexpected .expression
  | none => unexpected .expression

def exprAbove (least : Nat) : Script Expr := do
  let lhs ← call .operand
  call (.operators least lhs)

def operators (least : Nat) (lhs : Expr) : Script Expr := do
  match (← cursor).token? with
  | none => return lhs
  | some t =>
    match t.bindingPower? with
    | none => return lhs
    | some (l, r) =>
      if l < least then
        return lhs
      else
        match lhs with
        | .ident target =>
          next
          let value ← call (.exprAbove r)
          call (.operators least (.assign target value))
        | _ => unexpected .endOfExpression

def expr : Script Expr := call (.exprAbove 0)

/-! ### Parts of statements -/

def paramNames (names : List String) : Script (List String) := do
  let name ← identifier
  if ← eat .closeParen then
    return names ++ [name]
  else if ← eat .comma then
    call (.paramNames (names ++ [name]))
  else
    unexpected .commaOrCloseParen

def params : Script (List String) := do
  expect .openParen
  if ← eat .closeParen then
    return []
  else
    call (.paramNames [])

def initializer : Script (Option Expr) := do
  if ← eat .equals then
    let e ← expr
    return some e
  else
    return none

def declarators (ds : List Declarator) : Script (List Declarator) := do
  let name ← identifier
  let init ← initializer
  if ← eat .comma then
    call (.declarators (ds ++ [⟨name, init⟩]))
  else
    return ds ++ [⟨name, init⟩]

def terminator : Script Unit := do
  if ← eat .semicolon then
    return
  else
    let c ← cursor
    match c.token? with
    | some .closeBrace | none => return
    | some _ =>
      if c.prevStop.line < c.here.line then
        return
      else
        unexpected (.token .semicolon)

/-! ### Statements and blocks -/

def block : Script Body := do
  let outer ← takeQueue
  expect .openBrace
  let ss ← call (.stmts (some .closeBrace) [])
  let dangling ← takeComments
  expect .closeBrace
  update fun c => c.withQueue (outer ++ c.queue)
  return ⟨ss, dangling⟩

def form : Script Form := do
  match (← cursor).token? with
  | some .openBrace =>
    let b ← call .block
    return .block b
  | some .semicolon =>
    next
    return .empty
  | some .function =>
    next
    let name ← identifier
    let names ← params
    let b ← call .block
    return .function name names b
  | some .var =>
    next
    let ds ← call (.declarators [])
    terminator
    return .var ds
  | _ =>
    let e ← expr
    terminator
    return .expr e

def share : Script Shares :=
  step fun c =>
    let shares := shareOut c.prevStop c.queue
    (shares, c.withQueue shares.rest)

def stmt : Script Stmt := do
  let leading ← takeComments
  update fun c => c.record (.readingStmt c.here c.found)
  let f ← call .form
  let shares ← share
  return ⟨leading ++ shares.inside, f, shares.behind⟩

def stmts (close : Option Token) (ss : List Stmt) : Script (List Stmt) := do
  match (← cursor).token?, close with
  | none, none => return ss
  | none, some t => unexpected (.token t)
  | some t, _ =>
    if close = some t then
      return ss
    else
      let s ← call .stmt
      call (.stmts close (ss ++ [s]))

/-! ### Whole texts -/

def program : Script Body := do
  let ss ← call (.stmts none [])
  let dangling ← takeComments
  return ⟨ss, dangling⟩

def literalName : Script (Option String) := do
  match (← cursor).token? with
  | some (.ident name) =>
    next
    return some name
  | _ => return none

def literalHead : Script Unit := do
  if ← eat .function then
    let name ← literalName
    let names ← params
    update fun c => c.record (.readLiteral name names)
  else
    return

def functionBody : Script Body := do
  literalHead
  let before ← takeComments
  let b ← call .block
  match (← cursor).token? with
  | some _ => unexpected .endOfInput
  | none =>
    let behind ← takeComments
    return (b.lead before).trail behind

/-- The script that answers a call. -/
def ofCall : Call → Script Node
  | .stmt => Node.stmt <$> call .stmt
  | .block => Node.block <$> call .block
  | .expr => Node.expr <$> expr
  | .program => Node.program <$> program
  | .functionBody => Node.block <$> functionBody

end Script

def Routine.script {α : Type} : Routine α → Script α
  | operand => .operand
  | exprAbove least => .exprAbove least
  | operators least lhs => .operators least lhs
  | paramNames names => .paramNames names
  | declarators ds => .declarators ds
  | block => .block
  | form => .form
  | stmt => .stmt
  | stmts close ss => .stmts close ss

/-! ## Scripts that end -/

namespace Script

/-- From a cursor, the script ends with the outcome after finitely many steps and calls. -/
inductive Ends : {α : Type} → Script α → Cursor → Outcome α → Prop
  | done {α} {a : α} {c} : Ends (done a) c (.ok a c)
  | unexpected {α ex c} : Ends (unexpected ex : Script α) c (.error (c.unexpected ex) c)
  | step {α} {f : Cursor → α × Cursor} {c} : Ends (step f) c (.ok (f c).1 (f c).2)
  | call {α} {r : Routine α} {c o} : Ends r.script c o → Ends (call r) c o
  | andThen {α β} {x : Script α} {f : α → Script β} {c a c₁ o} : Ends x c (.ok a c₁) →
      Ends (f a) c₁ o → Ends (andThen x f) c o
  | stopped {α β} {x : Script α} {f : α → Script β} {c e c₁} : Ends x c (.error e c₁) →
      Ends (andThen x f) c (.error e c₁)

/-- A script has one way to end at most. -/
theorem Ends.unique {α : Type} {x : Script α} {c : Cursor} {o o' : Outcome α} (h : Ends x c o)
    (h' : Ends x c o') : o = o' := by
  induction h with
  | done | unexpected | step =>
    cases h'
    rfl
  | call _ ih =>
    cases h' with
    | call h' => exact ih h'
  | andThen _ _ ihx ihf =>
    cases h' with
    | andThen hx hf =>
      cases ihx hx
      exact ihf hf
    | stopped hx => cases ihx hx
  | stopped _ ih =>
    cases h' with
    | andThen hx _ => cases ih hx
    | stopped hx =>
      cases ih hx
      rfl

theorem Ends.iff {α : Type} {x : Script α} {c : Cursor} {o o' : Outcome α} (h : Ends x c o) :
    Ends x c o' ↔ o' = o := by
  constructor
  · exact fun h' => h'.unique h
  · rintro rfl
    exact h

end Script

namespace Reading

variable {n m : Nat} {α β : Type}

/-- The reading with the items `before` in front of those read. -/
def prepend (before : List α) (r : Reading n (List α)) : Reading n (List α) :=
  r.andThen fun items rest h => .ok (before ++ items) rest h

theorem prepend_andThen (before : List β) (r : Reading n α)
    (g : α → (rest : Cursor) → rest.left < n → Reading m (List β)) :
    (r.andThen g).prepend before = r.andThen fun a rest h => (g a rest h).prepend before := by
  cases r <;> rfl

theorem outcome_prepend (before : List α) (r : Reading n (List α)) :
    (r.prepend before).outcome = r.outcome.map (before ++ ·) := by
  cases r <;> rfl

end Reading

namespace Script

variable {n m : Nat} {α β : Type} {c : Cursor} {x : Script α} {f : α → Script β} {r : Reading n β}

/-- From `c` the script ends as the reading does. -/
def EndsAs (x : Script α) (c : Cursor) (r : Reading n α) : Prop := Ends x c r.outcome

theorem endsAs_pure {a : α} {lt : c.left < n} : EndsAs (pure a) c (.ok a c lt : Reading n α) := .done

theorem endsAs_unexpected {ex : Expected} :
    EndsAs (unexpected ex) c (.error (c.unexpected ex) c : Reading n α) := .unexpected

theorem endsAs_of_fails {ex : Expected} {r : Reading n α} (h : r.Fails ex c) :
    EndsAs (unexpected ex) c r := by
  rw [EndsAs, show r.outcome = _ from h]
  exact .unexpected

/-! Steps that no reading takes by itself. -/

theorem endsAs_step {g : Cursor → α × Cursor} (h : EndsAs (f (g c).1) (g c).2 r) :
    EndsAs (step g >>= f) c r := .andThen .step h

theorem endsAs_cursor {f : Cursor → Script β} (h : EndsAs (f c) c r) : EndsAs (cursor >>= f) c r :=
  endsAs_step h

theorem endsAs_update {g : Cursor → Cursor} {f : Unit → Script β} (h : EndsAs (f ()) (g c) r) :
    EndsAs (update g >>= f) c r := endsAs_step h

theorem endsAs_next {f : Unit → Script β} (h : EndsAs (f ()) c.advance r) :
    EndsAs (next >>= f) c r := endsAs_update h

theorem endsAs_eat {t : Token} {f : Bool → Script β} (h : c.token? = some t)
    (hf : EndsAs (f true) c.advance r) : EndsAs (eat t >>= f) c r := by
  have heat : Ends (eat t) c (.ok true c.advance) := by
    refine .andThen .step ?_
    rw [if_pos h]
    exact .andThen .step .done
  exact .andThen heat hf

theorem endsAs_not_eat {t : Token} {f : Bool → Script β} (h : c.token? ≠ some t)
    (hf : EndsAs (f false) c r) : EndsAs (eat t >>= f) c r := by
  have heat : Ends (eat t) c (.ok false c) := by
    refine .andThen .step ?_
    rw [if_neg h]
    exact .done
  exact .andThen heat hf

/-! One part behind the other. -/

theorem endsAs_bind {r : Reading n α} {g : α → (rest : Cursor) → rest.left < n → Reading m β}
    (hx : EndsAs x c r) (hf : ∀ a c₁ (h : r.Gives a c₁), EndsAs (f a) c₁ (g a c₁ h.left_lt)) :
    EndsAs (x >>= f) c (r.andThen g) := by
  cases r with
  | ok a c₁ lt => exact .andThen hx (hf a c₁ rfl)
  | error e c₁ => exact .stopped hx

theorem EndsAs.congr {r : Reading n α} {r' : Reading m α} (h : EndsAs x c r)
    (heq : r'.outcome = r.outcome) : EndsAs x c r' := by
  rw [EndsAs, heq]
  exact h

theorem EndsAs.map {g : α → β} {r : Reading n α} (h : EndsAs x c r) :
    Ends (g <$> x) c (r.outcome.map g) := by
  cases r with
  | ok a c₁ lt => exact .andThen h .done
  | error e c₁ => exact .stopped h

/-- The last part is all that remains to be done. -/
theorem EndsAs.last {r : Reading n α} {lt : ∀ c₁ : Cursor, c₁.left < n → c₁.left < m}
    (h : EndsAs x c r) :
    EndsAs x c (r.andThen fun a c₁ h₁ => (.ok a c₁ (lt c₁ h₁) : Reading m α)) := by
  apply h.congr
  cases r <;> rfl

/-! Loops that collect items. -/

theorem EndsAs.from_nil {x : Script (List α)} {r : Reading n (List α)} (h : EndsAs x c (r.prepend [])) :
    EndsAs x c r := by
  apply h.congr
  cases r <;> rfl

theorem endsAs_stop {before : List α} {lt : c.left < n} :
    EndsAs (pure before) c ((.ok [] c lt : Reading n (List α)).prepend before) := by
  apply endsAs_pure.congr
  rw [Reading.prepend, Reading.andThen, List.append_nil]

/-- A turn of a loop has read `a`, and the next turn starts with it behind the items before. -/
theorem EndsAs.turn {before : List α} {a : α} {x : Script (List α)} {r : Reading n (List α)}
    {lt : ∀ c₁ : Cursor, c₁.left < n → c₁.left < m} (h : EndsAs x c (r.prepend (before ++ [a]))) :
    EndsAs x c (((r.andThen fun items c₁ h₁ => .ok (a :: items) c₁ (lt c₁ h₁)) :
      Reading m (List α)).prepend before) := by
  apply h.congr
  cases r with
  | ok items c₁ _ => simp [Reading.prepend, Reading.andThen, Reading.outcome]
  | error e c₁ => rfl

/-!
## Every loop ends

The induction is on the tokens left. Among routines that start in front of the same token, one may call
another only if that passes the token sooner.
-/

open Cursor Reading

theorem endsAs_expect (t : Token) (c : Cursor) : EndsAs (expect t) c (c.expect t) := by
  rw [Cursor.expect]
  split
  · exact endsAs_eat ‹_› endsAs_pure
  · exact endsAs_not_eat ‹_› endsAs_unexpected

theorem endsAs_identifier (c : Cursor) : EndsAs identifier c c.identifier := by
  rw [Cursor.identifier]
  split
  · rename_i name hname
    refine endsAs_cursor ?_
    simp only [hname]
    exact endsAs_next endsAs_pure
  · rename_i hne
    refine endsAs_cursor ?_
    split
    · exact absurd ‹_› (hne _)
    · exact endsAs_unexpected

mutual
theorem endsAs_operand (c : Cursor) : EndsAs (call .operand) c c.operand := by
  refine .call (endsAs_cursor ?_)
  split
  · rename_i hopen
    have hlt := left_advance_lt hopen
    rw [Cursor.operand]
    split
    case h_7 =>
      refine endsAs_next (endsAs_bind (endsAs_exprAbove 0 c.advance) fun inner c₁ _ => ?_)
      exact endsAs_bind (endsAs_expect .closeParen c₁) fun _ _ _ => endsAs_pure
    all_goals simp_all
  · rename_i t hne ht
    split
    · rename_i e he
      have hread : c.operand.Gives e c.advance := gives_operand.mpr (.inl ⟨t, ht, he, rfl⟩)
      rw [EndsAs, show c.operand.outcome = _ from hread]
      exact .andThen .step .done
    · rename_i hnone
      refine endsAs_of_fails (fails_operand fun t' ht' => ?_)
      obtain rfl : t = t' := Option.some.inj (ht.symm.trans ht')
      exact ⟨hnone, hne⟩
  · rename_i hnone
    exact endsAs_of_fails (fails_operand fun t ht => by simp [hnone] at ht)
termination_by (c.left, 0)

theorem endsAs_exprAbove (least : Nat) (c : Cursor) :
    EndsAs (call (.exprAbove least)) c (c.exprAbove least) := by
  rw [Cursor.exprAbove]
  refine .call (endsAs_bind (endsAs_operand c) fun lhs c₁ hread => ?_)
  have hlt := hread.left_lt
  exact (endsAs_operators least lhs c₁).last
termination_by (c.left, 1)

/-- An operator and its right operand are passed in every turn. -/
theorem endsAs_operators (least : Nat) (lhs : Expr) (c : Cursor) :
    EndsAs (call (.operators least lhs)) c (c.operators least lhs) := by
  rw [Cursor.operators]
  split
  · rename_i hnone
    refine .call (endsAs_cursor ?_)
    simp only [hnone]
    exact endsAs_pure
  · rename_i t ht
    have hlt := left_advance_lt ht
    refine .call (endsAs_cursor ?_)
    simp only [ht]
    cases t.bindingPower? with
    | none => exact endsAs_pure
    | some power =>
      obtain ⟨l, r⟩ := power
      simp only
      split
      · exact endsAs_pure
      · cases lhs with
        | ident target =>
          refine endsAs_next (endsAs_bind (endsAs_exprAbove r c.advance) fun value c₁ hread => ?_)
          have hlt₁ := hread.left_lt
          exact (endsAs_operators least (.assign target value) c₁).last
        | _ => exact endsAs_unexpected
termination_by (c.left, 0)
end

/-- A name and a comma are passed in every turn but the last. -/
theorem endsAs_paramNames (names : List String) (c : Cursor) :
    EndsAs (call (.paramNames names)) c (c.paramNames.prepend names) := by
  rw [Cursor.paramNames, prepend_andThen]
  refine .call (endsAs_bind (endsAs_identifier c) fun name c₁ hread => ?_)
  have hlt := hread.left_lt
  split
  · exact endsAs_eat ‹_› endsAs_pure
  · rename_i hcomma
    have hlt₁ := left_advance_lt hcomma
    refine endsAs_not_eat (by simp [hcomma]) (endsAs_eat hcomma ?_)
    exact (endsAs_paramNames (names ++ [name]) c₁.advance).turn
  · rename_i hclose hcomma
    exact endsAs_not_eat hclose (endsAs_not_eat hcomma endsAs_unexpected)
termination_by c.left

theorem endsAs_params (c : Cursor) : EndsAs params c c.params := by
  rw [Cursor.params]
  refine endsAs_bind (endsAs_expect .openParen c) fun _ c₁ _ => ?_
  split
  · exact endsAs_eat ‹_› endsAs_pure
  · exact endsAs_not_eat ‹_› (endsAs_paramNames [] c₁).from_nil.last

theorem endsAs_initializer (c : Cursor) : EndsAs initializer c c.initializer := by
  rw [Cursor.initializer]
  split
  · refine endsAs_eat ‹_› ?_
    exact endsAs_bind (endsAs_exprAbove 0 c.advance) fun _ _ _ => endsAs_pure
  · exact endsAs_not_eat ‹_› endsAs_pure

/-- A name and a comma are passed in every turn but the last, with or without an initializer. -/
theorem endsAs_declarators (ds : List Declarator) (c : Cursor) :
    EndsAs (call (.declarators ds)) c (c.declarators.prepend ds) := by
  rw [Cursor.declarators, prepend_andThen]
  refine .call (endsAs_bind (endsAs_identifier c) fun name c₁ hname => ?_)
  have hlt := hname.left_lt
  rw [prepend_andThen]
  refine endsAs_bind (endsAs_initializer c₁) fun init c₂ hinit => ?_
  have hlt₁ := hinit.left_lt
  split
  · rename_i hcomma
    have hlt₂ := left_advance_lt hcomma
    refine endsAs_eat hcomma ?_
    exact (endsAs_declarators (ds ++ [⟨name, init⟩]) c₂.advance).turn
  · exact endsAs_not_eat ‹_› endsAs_pure
termination_by c.left

theorem endsAs_terminator (c : Cursor) : EndsAs terminator c c.terminator := by
  rw [Cursor.terminator]
  split
  · exact endsAs_eat ‹_› endsAs_pure
  · rename_i hclose
    refine endsAs_not_eat (by simp [hclose]) (endsAs_cursor ?_)
    simp only [hclose]
    exact endsAs_pure
  · rename_i hnone
    refine endsAs_not_eat (by simp [hnone]) (endsAs_cursor ?_)
    simp only [hnone]
    exact endsAs_pure
  · rename_i t hsemi hclose ht
    refine endsAs_not_eat (fun h => hsemi (Option.some.inj (ht.symm.trans h))) (endsAs_cursor ?_)
    simp only [ht]
    split
    · exact endsAs_pure
    · exact endsAs_unexpected

mutual
theorem endsAs_block (c : Cursor) : EndsAs (call .block) c c.block := by
  rw [Cursor.block]
  refine .call (endsAs_step ?_)
  refine endsAs_bind (endsAs_expect .openBrace (c.withQueue [])) fun _ c₁ hopen => ?_
  have hlt : c₁.left < c.left := hopen.left_lt
  have hss := endsAs_stmts (some .closeBrace) [] c₁
  refine endsAs_bind hss.from_nil fun ss c₂ _ => endsAs_step ?_
  refine endsAs_bind (endsAs_expect .closeBrace (c₂.withQueue [])) fun _ c₃ _ => ?_
  exact endsAs_update endsAs_pure
termination_by (c.left, 0)

theorem endsAs_form (c : Cursor) : EndsAs (call .form) c c.form := by
  rw [Cursor.form]
  split
  · rename_i hopen
    refine .call (endsAs_cursor ?_)
    simp only [hopen]
    exact endsAs_bind (endsAs_block c) fun _ _ _ => endsAs_pure
  · rename_i hsemi
    refine .call (endsAs_cursor ?_)
    simp only [hsemi]
    exact endsAs_next endsAs_pure
  · rename_i hfun
    have hlt := left_advance_lt hfun
    refine .call (endsAs_cursor ?_)
    simp only [hfun]
    refine endsAs_next (endsAs_bind (endsAs_identifier c.advance) fun name c₁ hname => ?_)
    have hlt₁ := hname.left_lt
    refine endsAs_bind (endsAs_params c₁) fun names c₂ hnames => ?_
    have hlt₂ := hnames.left_lt
    exact endsAs_bind (endsAs_block c₂) fun _ _ _ => endsAs_pure
  · rename_i hvar
    have hds := endsAs_declarators [] c.advance
    refine .call (endsAs_cursor ?_)
    simp only [hvar]
    refine endsAs_next (endsAs_bind hds.from_nil fun ds c₁ _ => ?_)
    exact endsAs_bind (endsAs_terminator c₁) fun _ _ _ => endsAs_pure
  · refine .call (endsAs_cursor ?_)
    split
    case h_5 =>
      refine endsAs_bind (endsAs_exprAbove 0 c) fun e c₁ _ => ?_
      exact endsAs_bind (endsAs_terminator c₁) fun _ _ _ => endsAs_pure
    all_goals simp_all
termination_by (c.left, 1)

theorem endsAs_stmt (c : Cursor) : EndsAs (call .stmt) c c.stmt := by
  rw [Cursor.stmt]
  refine .call (endsAs_step (endsAs_update ?_))
  have hform := endsAs_form ((c.withQueue []).record (.readingStmt c.here c.found))
  exact endsAs_bind hform fun f c₁ _ => endsAs_step endsAs_pure
termination_by (c.left, 2)

theorem endsAs_stmts (close : Option Token) (ss : List Stmt) (c : Cursor) :
    EndsAs (call (.stmts close ss)) c ((c.stmts close).prepend ss) := by
  rw [Cursor.stmts.eq_def]
  refine .call (endsAs_cursor ?_)
  cases ht : c.token? with
  | none =>
    cases close with
    | none => exact endsAs_stop
    | some t => exact endsAs_unexpected
  | some t =>
    simp only
    split
    · exact endsAs_stop
    · rw [prepend_andThen]
      refine endsAs_bind (endsAs_stmt c) fun s c₁ hread => ?_
      -- the end of a statement may pass nothing, but the statement itself has passed a token
      have hlt := hread.left_lt
      exact (endsAs_stmts close (ss ++ [s]) c₁).turn
termination_by (c.left, 3)
end

theorem endsAs_program (c : Cursor) : EndsAs program c c.program :=
  endsAs_bind (endsAs_stmts none [] c).from_nil fun _ _ _ => endsAs_step endsAs_pure

theorem endsAs_literalHead (c : Cursor) : EndsAs literalHead c c.literalHead := by
  rw [Cursor.literalHead]
  split
  · rename_i hfun
    split
    · rename_i name hname
      have hread : Ends literalName c.advance (.ok (some name) c.advance.advance) := by
        refine .andThen .step ?_
        simp only [hname]
        exact .andThen .step .done
      refine endsAs_eat hfun (.andThen hread ?_)
      exact endsAs_bind (endsAs_params c.advance.advance) fun _ _ _ => .step
    · rename_i hne
      have hread : Ends literalName c.advance (.ok none c.advance) := by
        refine .andThen .step ?_
        split
        · exact absurd ‹_› (hne _)
        · exact .done
      refine endsAs_eat hfun (.andThen hread ?_)
      exact endsAs_bind (endsAs_params c.advance) fun _ _ _ => .step
  · exact endsAs_not_eat ‹_› endsAs_pure

theorem endsAs_functionBody (c : Cursor) : EndsAs functionBody c c.functionBody := by
  rw [Cursor.functionBody]
  refine endsAs_bind (endsAs_literalHead c) fun _ c₁ _ => endsAs_step ?_
  refine endsAs_bind (endsAs_block (c₁.withQueue [])) fun b c₂ _ => endsAs_cursor ?_
  cases c₂.token? with
  | some t => exact endsAs_unexpected
  | none => exact endsAs_step endsAs_pure

theorem ends_ofCall (k : Call) (c : Cursor) : Ends (ofCall k) c (c.call k) := by
  cases k with
  | stmt => exact (endsAs_stmt c).map
  | block => exact (endsAs_block c).map
  | expr => exact (endsAs_exprAbove 0 c).map
  | program => exact (endsAs_program c).map
  | functionBody => exact (endsAs_functionBody c).map

end Script

/-! ## Progress -/

namespace Cursor

variable {c c' : Cursor} {k : Call} {node : Node}

theorem Moves.ahead_suffix (h : c.Moves c') : c'.ahead <:+ c.ahead := by
  obtain ⟨us, hus⟩ := h.ahead_eq
  exact ⟨us, hus.symm⟩

/-- A program may have no tokens at all; every other node has some. -/
theorem Answers.left_lt (h : c.Answers k node c') (hk : k ≠ .program) : c'.left < c.left := by
  cases h with
  | stmt hs => exact hs.gives.left_lt
  | block hb => exact hb.gives.left_lt
  | expr he => exact (gives_expr_iff.mpr he).left_lt
  | program _ => exact absurd rfl hk
  | functionBody hb => exact Reading.Gives.left_lt (r := c.functionBody) hb

/-- With nothing to bound loops and calls, the readers end from `c` all the same, and each loop ends
from whatever it has collected. -/
structure LoopsEnd (c : Cursor) : Prop where
  call : ∀ k o, (Script.ofCall k).Ends c o ↔ o = c.call k
  stmts : ∀ close ss o, (Script.call (.stmts close ss)).Ends c o ↔
    o = (c.stmts close).outcome.map (ss ++ ·)
  params : ∀ o, Script.params.Ends c o ↔ o = c.params.outcome
  paramNames : ∀ names o, (Script.call (.paramNames names)).Ends c o ↔
    o = c.paramNames.outcome.map (names ++ ·)
  declarators : ∀ ds o, (Script.call (.declarators ds)).Ends c o ↔
    o = c.declarators.outcome.map (ds ++ ·)
  exprAbove : ∀ least o, (Script.call (.exprAbove least)).Ends c o ↔ o = (c.exprAbove least).outcome
  operators : ∀ least lhs o, (Script.call (.operators least lhs)).Ends c o ↔
    o = (c.operators least lhs).outcome

theorem loopsEnd (c : Cursor) : c.LoopsEnd where
  call k o := (Script.ends_ofCall k c).iff
  stmts close ss o := by
    rw [← Reading.outcome_prepend]
    exact (Script.endsAs_stmts close ss c).iff
  params o := (Script.endsAs_params c).iff
  paramNames names o := by
    rw [← Reading.outcome_prepend]
    exact (Script.endsAs_paramNames names c).iff
  declarators ds o := by
    rw [← Reading.outcome_prepend]
    exact (Script.endsAs_declarators ds c).iff
  exprAbove least o := (Script.endsAs_exprAbove least c).iff
  operators least lhs o := (Script.endsAs_operators least lhs c).iff

/-- From every cursor, whatever lexemes are ahead of it, a call for anything but a program passes a
token if it succeeds. A call that fails may have passed some, and its error is about the token that it
has stopped in front of. All loops end. -/
theorem calls_progress_and_end (c : Cursor) :
    (∀ k node c', c.call k = .ok node c' → k ≠ .program → c'.ahead <:+ c.ahead ∧ c'.left < c.left) ∧
    (∀ k e c', c.call k = .error e c' →
      c'.ahead <:+ c.ahead ∧ c'.left ≤ c.left ∧ e.position = c'.here ∧ e.found = c'.found) ∧
    c.LoopsEnd := by
  refine ⟨?_, ?_, loopsEnd c⟩
  · intro k node c' hcall hk
    have hanswers := call_eq_ok_iff.mp hcall
    exact ⟨hanswers.moves.ahead_suffix, hanswers.left_lt hk⟩
  · intro k e c' hcall
    obtain ⟨ex, rfl, hrefuses⟩ := call_eq_error_iff.mp hcall
    exact ⟨hrefuses.moves.ahead_suffix, hrefuses.moves.left_le, rfl, rfl⟩

/-- An expression stops in front of a parenthesis, and a statement fails there. -/
theorem calls_progress_and_end_partway :
    ∃ c c₁ c₂, ofText "p /*a*/ = q (" = .ok c ∧
      c.call .expr = .ok (.expr (.assign "p" (.ident "q"))) c₁ ∧ c₁.left < c.left ∧
      c.call .stmt = .error ⟨"`;`", "`(`", ⟨12, 1, 13⟩⟩ c₂ ∧
      c₂.left ≤ c.left ∧ c₂.here = ⟨12, 1, 13⟩ ∧ c₂.found = "`(`" ∧
      (Script.ofCall .stmt).Ends c (.error ⟨"`;`", "`(`", ⟨12, 1, 13⟩⟩ c₂) := by
  obtain ⟨c, c₁, c₂, hc, hexpr, hstmt⟩ : ∃ c c₁ c₂, ofText "p /*a*/ = q (" = .ok c ∧
      c.call .expr = .ok (.expr (.assign "p" (.ident "q"))) c₁ ∧
      c.call .stmt = .error ⟨"`;`", "`(`", ⟨12, 1, 13⟩⟩ c₂ := ⟨_, _, _, by cbv, by cbv, by cbv⟩
  obtain ⟨hok, herror, hends⟩ := calls_progress_and_end c
  obtain ⟨-, hlt⟩ := hok _ _ _ hexpr (by decide)
  obtain ⟨-, hle, hhere, hfound⟩ := herror _ _ _ hstmt
  have hscript := (hends.call .stmt _).mpr hstmt.symm
  exact ⟨c, c₁, c₂, hc, hexpr, hlt, hstmt, hle, hhere.symm, hfound.symm, hscript⟩

end Cursor

end Reprint
