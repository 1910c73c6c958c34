/-!
# Positions in a text

A position is a place between two characters, given by the bytes of UTF-8 before it and by a line
and a column. Only a line feed ends a line, and a column counts characters.
-/

namespace Reprint

structure Position where
  /-- Bytes before the place. -/
  offset : Nat
  /-- Counted from one. -/
  line : Nat
  /-- Counted from one. -/
  column : Nat
deriving DecidableEq

namespace Position

/-- The place before the first character. -/
def origin : Position := ⟨0, 1, 1⟩

/-- The place behind `c` when `c` stands at `p`. -/
def next (p : Position) (c : Char) : Position :=
  if c = '\n' then ⟨p.offset + c.utf8Size, p.line + 1, 1⟩
  else ⟨p.offset + c.utf8Size, p.line, p.column + 1⟩

/-- The place behind `cs` when `cs` stands at `p`. -/
def after (p : Position) (cs : List Char) : Position :=
  cs.foldl next p

/-- Line and column, as messages show them. -/
def text (p : Position) : String :=
  toString p.line ++ ":" ++ toString p.column

@[simp] theorem after_nil (p : Position) : p.after [] = p := rfl

@[simp] theorem after_cons (p : Position) (c : Char) (cs : List Char) :
    p.after (c :: cs) = (p.next c).after cs := rfl

theorem after_append (p : Position) (cs ds : List Char) :
    p.after (cs ++ ds) = (p.after cs).after ds := by
  simp [after, List.foldl_append]

end Position

/-! ## Spans -/

/-- The stretch of a text from `start` up to `stop`. -/
structure Span where
  start : Position
  stop : Position
deriving DecidableEq

/-- A value together with the stretch of text it was read from. -/
structure Located (α : Type) where
  value : α
  span : Span
deriving DecidableEq

end Reprint
