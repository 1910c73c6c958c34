import Reprint.Proofs.Derivation
import Reprint.Proofs.LexErrors
import Reprint.Proofs.LineColumns

/-!
# Asking a source by offsets

Lexemes can also be found with nothing but byte offsets into a source. Their ends are added up in bytes,
their texts are slices, and their positions are looked up. A slice or a look-up that does not fall
between characters gives nothing, and all stops there (`Traced`). That never happens, whatever the text:
every offset asked for is a place of the text, the search for its line stays in the table, and the tree
that comes out is the one that reading from the front gives (`Fragment.parse_asks_on_boundaries`).
-/

namespace Reprint

open String (utf8Len)

/-! ## Requests -/

inductive Access where
  | position (offset : Nat)
  | slice (start stop : Nat)
deriving DecidableEq

/-- The offsets of a request are places of the text, and the search for a line stays in the table. -/
def Access.Granted (s : Source) : Access → Prop
  | position o => IsBoundary s.text o ∧ 0 < countUpTo s.lineStarts o ∧
      countUpTo s.lineStarts o ≤ s.lineStarts.size
  | slice start stop => start ≤ stop ∧ IsBoundary s.text start ∧ IsBoundary s.text stop

/-- The requests of a computation in order, and its value unless one of them was refused. -/
structure Traced (α : Type) where
  accesses : List Access
  result : Option α

namespace Traced

variable {α β : Type}

def pure (a : α) : Traced α := ⟨[], some a⟩

def andThen (t : Traced α) (f : α → Traced β) : Traced β :=
  match t.result with
  | some a => ⟨t.accesses ++ (f a).accesses, (f a).result⟩
  | none => ⟨t.accesses, none⟩

def map (f : α → β) (t : Traced α) : Traced β :=
  t.andThen fun a => .pure (f a)

def Gives (s : Source) (t : Traced α) (a : α) : Prop :=
  (∀ x ∈ t.accesses, x.Granted s) ∧ t.result = some a

variable {s : Source} {t : Traced α} {f : α → Traced β} {a : α} {b : β}

theorem gives_pure (a : α) : (pure a).Gives s a :=
  ⟨by simp [pure], rfl⟩

theorem Gives.andThen (h : t.Gives s a) (hf : (f a).Gives s b) : (t.andThen f).Gives s b := by
  obtain ⟨hgranted, hresult⟩ := h
  unfold Traced.andThen
  rw [hresult]
  refine ⟨?_, hf.2⟩
  intro x hx
  rcases List.mem_append.mp hx with hx | hx
  · exact hgranted x hx
  · exact hf.1 x hx

theorem Gives.map (h : t.Gives s a) (g : α → β) : (t.map g).Gives s (g a) :=
  h.andThen (gives_pure _)

end Traced

/-! ## Lexemes by offsets -/

/-- The bytes in front of the first star and slash. -/
def closingOffset? : List Char → Option Nat
  | '*' :: '/' :: _ => some 0
  | c :: cs => (closingOffset? cs).map (c.utf8Size + ·)
  | [] => none

/-- The lexeme with another text, where it has one. -/
def Lexeme.withText (text : String) : Lexeme → Lexeme
  | .token (.number _) => .token (.number ⟨text⟩)
  | .token (.string _) => .token (.string text)
  | .token (.ident _) => .token (.ident text)
  | .comment c => .comment { c with text }
  | x => x

namespace Source

def askPosition (s : Source) (o : Nat) : Traced Position :=
  ⟨[.position o], s.position? o⟩

def askSlice (s : Source) (start stop : Nat) : Traced (List Char) :=
  ⟨[.slice start stop], sliceBytes? start stop s.text.toList⟩

/-- Where the lexeme stops that starts at `o` with `c :: cs`, if there is one. A block comment is
searched for its closing, and the other lexemes are as long as they are spelled. -/
def askStop (s : Source) (o : Nat) (c : Char) (cs : List Char) : Traced (Option Nat) :=
  if c = '/' ∧ cs.head? = some '*' then
    (s.askSlice (o + 2) s.byteCount).map fun inner =>
      (closingOffset? inner).map (o + 2 + · + 2)
  else .pure ((scan c cs).map fun parts => o + parts.1.spelling.utf8ByteSize)

/-- What is wrong at `o`, told by the first character or by the two that open a comment. -/
def askError (s : Source) (o : Nat) (c : Char) (cs : List Char) : Traced LexError :=
  let width := if c = '/' ∧ cs.head? = some '*' then 2 else c.utf8Size
  (s.askPosition o).andThen fun p =>
  (s.askSlice o (o + width)).andThen fun found =>
  if ['/', '*'].isPrefixOf found then .pure (.unterminatedComment p)
  else if found.head?.any isQuote then .pure (.unterminatedString p)
  else (s.askSlice o s.byteCount).map fun rest => .invalidCharacter (rest.headD '\x00') p

/-- The lexemes of the rest of a text that starts at `o`. -/
def lexAt (s : Source) (o : Nat) : List Char → Traced (Except LexError (List (Located Lexeme)))
  | [] => .pure (.ok [])
  | c :: cs =>
    if isSpace c then s.lexAt (o + c.utf8Size) cs
    else (s.askStop o c cs).andThen fun stop? =>
      match stop?, _h : scan c cs with
      | some stop, some (x, rest) =>
        (s.askSlice o stop).andThen fun text =>
        (s.askPosition o).andThen fun p =>
        (s.askPosition stop).andThen fun q =>
        (s.lexAt stop rest).map fun ls => ls.map (⟨x.withText (String.ofList text), ⟨p, q⟩⟩ :: ·)
      | _, _ => (s.askError o c cs).map .error
termination_by cs => cs.length
decreasing_by
  · simp
  · simpa [Nat.lt_succ_iff] using length_of_scan ‹_›

end Source

def Outcome.toExcept : Outcome Body → Except SyntaxError Body
  | .ok b _ => .ok b
  | .error e _ => .error (.parse e)

/-- The tree of a text whose lexemes are found by offsets. -/
def Fragment.parseTraced (f : Fragment) (text : String) : Traced (Except SyntaxError Body) :=
  let s := Source.ofString text
  (s.lexAt 0 text.toList).andThen fun
    | .error e => .pure (.error (.lex e))
    | .ok ls =>
      (s.askPosition s.byteCount).map fun stop =>
        (f.read (.ofLexemes ls stop #[.lexed ls.length s.lineCount s.byteCount])).toExcept

/-! ## What offsets find -/

theorem closingOffset?_eq (k : Nat) (cs : List Char) : (closingOffset? cs).map (k + · + 2) =
    (splitClosed? cs).map fun parts => k + utf8Len parts.1 := by
  fun_induction splitClosed? cs generalizing k with
  | case1 cs => rfl
  | case2 c cs hne ih =>
    rw [closingOffset?, Option.map_map, Option.map_map]
    · calc (closingOffset? cs).map ((k + · + 2) ∘ (c.utf8Size + ·))
          = (closingOffset? cs).map (k + c.utf8Size + · + 2) := by
            congr 1
            funext n
            simp only [Function.comp_apply]
            omega
        _ = (splitClosed? cs).map fun parts => k + c.utf8Size + utf8Len parts.1 :=
            ih (k + c.utf8Size)
        _ = _ := by
            congr 1
            funext parts
            simp only [Function.comp_apply, String.utf8Len_cons]
            omega
    · exact hne
  | case3 => rfl

theorem scan_block_length (k : Nat) (inner : List Char) : ((scan '/' ('*' :: inner)).map fun parts =>
    k + utf8Len parts.1.spelling.toList) = (closingOffset? inner).map (k + 2 + · + 2) := by
  rw [closingOffset?_eq, scan_slash, scanComment, Option.map_map, Option.map_map]
  congr 1
  funext parts
  have hslash : '/'.utf8Size = 1 := rfl
  have hstar : '*'.utf8Size = 1 := rfl
  simp only [Function.comp_apply, Lexeme.spelling, String.toList_ofList, String.utf8Len_cons]
  omega

theorem utf8Len_opening (before : List Char) :
    utf8Len (before ++ ['/', '*']) = utf8Len before + 2 := by
  rw [String.utf8Len_append]
  rfl

theorem Lexeme.withText_spelling (x : Lexeme) : x.withText x.spelling = x := by
  cases x with
  | comment c => rfl
  | token t => cases t <;> rfl

namespace Source

section
variable {text : String} {before rest : List Char} (h : text.toList = before ++ rest)
include h

theorem gives_askPosition : ((ofString text).askPosition (utf8Len before)).Gives (ofString text)
    (Position.origin.after before) := by
  refine ⟨?_, position?_of_append h⟩
  simp only [askPosition, List.mem_singleton, forall_eq]
  have hcount := countUpTo_lineStarts h
  refine ⟨isBoundary_iff.mpr ⟨before, rest, h, rfl⟩, ?_, ?_⟩
  · rw [hcount]
    exact Nat.succ_pos _
  · rw [hcount, lineStarts_of_append h]
    simp [length_lineStartsFrom]

theorem gives_askSlice {between tail : List Char} (hrest : rest = between ++ tail) :
    ((ofString text).askSlice (utf8Len before) (utf8Len (before ++ between))).Gives (ofString text)
      between := by
  subst hrest
  refine ⟨?_, ?_⟩
  · simp only [askSlice, List.mem_singleton, forall_eq]
    refine ⟨?_, isBoundary_iff.mpr ⟨before, _, h, rfl⟩,
      isBoundary_iff.mpr ⟨before ++ between, tail, ?_, rfl⟩⟩
    · rw [String.utf8Len_append]
      exact Nat.le_add_right ..
    · rw [List.append_assoc]
      exact h
  · show sliceBytes? _ _ text.toList = some between
    rw [h, sliceBytes?_append]

theorem gives_askRest : ((ofString text).askSlice (utf8Len before) (ofString text).byteCount).Gives
    (ofString text) rest := by
  have hbytes : (ofString text).byteCount = utf8Len (before ++ rest) := by
    rw [← h, String.utf8Len_toList]
    rfl
  rw [hbytes]
  exact gives_askSlice h (List.append_nil rest).symm

end

section
variable {text : String} {before cs : List Char} {c : Char} (h : text.toList = before ++ c :: cs)
include h

theorem gives_askStop : ((ofString text).askStop (utf8Len before) c cs).Gives (ofString text)
    ((scan c cs).map fun parts => utf8Len (before ++ parts.1.spelling.toList)) := by
  unfold askStop
  by_cases hopen : c = '/' ∧ cs.head? = some '*'
  · obtain ⟨rfl, hstar⟩ := hopen
    obtain ⟨inner, rfl⟩ := List.head?_eq_some_iff.mp hstar
    have h' : text.toList = (before ++ ['/', '*']) ++ inner := by simp [h]
    have hslice := gives_askRest h'
    rw [utf8Len_opening] at hslice
    rw [if_pos ⟨rfl, rfl⟩]
    simp only [String.utf8Len_append, scan_block_length]
    exact hslice.map _
  · rw [if_neg hopen]
    simp only [String.utf8Len_append, String.utf8Len_toList]
    exact Traced.gives_pure _

theorem gives_askError : ((ofString text).askError (utf8Len before) c cs).Gives (ofString text)
    (lexErrorAt (Position.origin.after before) c cs) := by
  unfold askError lexErrorAt
  refine (gives_askPosition h).andThen ?_
  by_cases hopen : c = '/' ∧ cs.head? = some '*'
  · obtain ⟨rfl, hstar⟩ := hopen
    obtain ⟨inner, rfl⟩ := List.head?_eq_some_iff.mp hstar
    have hrest : '/' :: '*' :: inner = ['/', '*'] ++ inner := rfl
    have hslice := gives_askSlice h hrest
    rw [utf8Len_opening] at hslice
    rw [if_pos ⟨rfl, rfl⟩, if_pos ⟨rfl, rfl⟩]
    exact hslice.andThen (Traced.gives_pure _)
  · have hrest : c :: cs = [c] ++ cs := rfl
    have hslice := gives_askSlice h hrest
    have hwidth : utf8Len (before ++ [c]) = utf8Len before + c.utf8Size := by simp
    rw [hwidth] at hslice
    rw [if_neg hopen, if_neg hopen]
    refine hslice.andThen ?_
    rw [if_neg (by simp)]
    by_cases hquote : isQuote c = true
    · rw [if_pos (by simpa using hquote), if_pos hquote]
      exact Traced.gives_pure _
    · rw [if_neg (by simpa using hquote), if_neg hquote]
      exact (gives_askRest h).map _

end

theorem gives_lexAt {text : String} {before cs : List Char} (h : text.toList = before ++ cs) :
    ((ofString text).lexAt (utf8Len before) cs).Gives (ofString text)
      (lexFrom (Position.origin.after before) cs) := by
  generalize hp : Position.origin.after before = p
  fun_induction lexFrom p cs generalizing before with
  | case1 p =>
    rw [lexAt]
    exact Traced.gives_pure _
  | case2 p c cs hc ih =>
    have h' : text.toList = (before ++ [c]) ++ cs := by simp [h]
    have hnext : Position.origin.after (before ++ [c]) = p.next c := by
      rw [Position.after_append, hp]
      rfl
    have hoffset : utf8Len (before ++ [c]) = utf8Len before + c.utf8Size := by simp
    rw [lexAt, if_pos hc, ← hoffset]
    exact ih h' hnext
  | case3 p c cs hc hscan =>
    have hstop := gives_askStop h
    rw [hscan] at hstop
    rw [lexAt, if_neg hc, ← hp]
    refine hstop.andThen ?_
    exact (gives_askError h).map _
  | case4 p c cs hc x rest hscan stop =>
    rename_i ih
    have htext := spelling_of_scan hscan
    have hstop := gives_askStop h
    have hslice := gives_askSlice h htext.symm
    have h' : text.toList = (before ++ x.spelling.toList) ++ rest := by
      rw [h, List.append_assoc, htext]
    have hstop' : Position.origin.after (before ++ x.spelling.toList) = stop := by
      rw [Position.after_append, hp]
    rw [hscan] at hstop
    rw [lexAt, if_neg hc]
    refine hstop.andThen ?_
    dsimp only [Option.map_some]
    split
    · rename_i stop' x' rest' hoffset hscan'
      rw [hscan] at hscan'
      cases hscan'
      cases hoffset
      refine hslice.andThen ((gives_askPosition h).andThen ((gives_askPosition h').andThen ?_))
      rw [String.ofList_toList, x.withText_spelling, hp, hstop']
      exact (ih h' hstop').map _
    · rename_i hne
      exact absurd hscan (hne _ _ _ rfl)

end Source

namespace Fragment

theorem parse_of_error {f : Fragment} {text : String} {e : LexError} (h : tokenize text = .error e) :
    f.parse text = .error (.lex e) := by
  unfold parse parseLogged Cursor.ofText
  rw [h]
  rfl

theorem parse_of_ok {f : Fragment} {text : String} {ls : List (Located Lexeme)}
    (h : tokenize text = .ok ls) : f.parse text = (f.read (Cursor.start text ls)).toExcept := by
  unfold parse parseLogged
  rw [Cursor.ofText_eq, h]
  simp only [Except.map]
  cases f.read (Cursor.start text ls) with
  | ok b rest => rfl
  | error e rest => rfl

theorem parse_asks_on_boundaries (f : Fragment) (text : String) :
    (∀ a ∈ (f.parseTraced text).accesses, a.Granted (Source.ofString text)) ∧
      (f.parseTraced text).result = some (f.parse text) := by
  have hstart : text.toList = [] ++ text.toList := rfl
  have hend : text.toList = text.toList ++ [] := (List.append_nil _).symm
  have hlex : ((Source.ofString text).lexAt 0 text.toList).Gives (Source.ofString text)
      (tokenize text) := Source.gives_lexAt hstart
  have hstop := Source.gives_askPosition hend
  rw [String.utf8Len_toList] at hstop
  refine hlex.andThen ?_
  cases h : tokenize text with
  | error e =>
    rw [parse_of_error h]
    exact Traced.gives_pure _
  | ok ls =>
    rw [parse_of_ok h]
    exact hstop.map _

/-- A comment is left at its closing, and the error behind it is at a character of two bytes. -/
theorem parse_asks_on_boundaries_multibyte :
    (program.parseTraced "/*é*/ü").accesses = [.slice 2 8, .slice 0 6, .position 0, .position 6,
      .position 6, .slice 6 8, .slice 6 8] ∧
    (∀ a ∈ (program.parseTraced "/*é*/ü").accesses, a.Granted (Source.ofString "/*é*/ü")) ∧
    (program.parseTraced "/*é*/ü").result =
      some (.error (.lex (.invalidCharacter 'ü' ⟨6, 1, 6⟩))) := by
  obtain ⟨hgranted, hresult⟩ := parse_asks_on_boundaries program "/*é*/ü"
  have haccesses : (program.parseTraced "/*é*/ü").accesses = [.slice 2 8, .slice 0 6, .position 0,
      .position 6, .position 6, .slice 6 8, .slice 6 8] := by cbv
  have herror : tokenize "/*é*/ü" = .error (.invalidCharacter 'ü' ⟨6, 1, 6⟩) := by cbv
  rw [parse_of_error herror] at hresult
  exact ⟨haccesses, hgranted, hresult⟩

end Fragment

end Reprint
