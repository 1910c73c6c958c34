import Reprint.Text.Position

/-!
# Looking up positions

A source keeps its text beside the table of the offsets at which its lines start, so that the
position of any byte offset is found by a binary search for its line and a count of characters
from the start of that line.
-/

namespace Reprint

/-! ## Bytes and characters -/

/-- Splits a text behind its first `n` bytes, or fails when that place is inside a character or
past the end. -/
def splitBytes? : Nat → List Char → Option (List Char × List Char)
  | 0, cs => some ([], cs)
  | _ + 1, [] => none
  | n + 1, c :: cs =>
    if c.utf8Size ≤ n + 1 then
      (splitBytes? (n + 1 - c.utf8Size) cs).map fun (before, rest) => (c :: before, rest)
    else none

/-- The characters between two byte offsets. -/
def sliceBytes? (start stop : Nat) (cs : List Char) : Option (List Char) := do
  let (_, rest) ← splitBytes? start cs
  let (between, _) ← splitBytes? (stop - start) rest
  return between

/-- The offsets behind the line feeds of `cs`, when `cs` starts at offset `o`. -/
def lineStartsFrom (o : Nat) : List Char → List Nat
  | [] => []
  | c :: cs =>
    let o' := o + c.utf8Size
    if c = '\n' then o' :: lineStartsFrom o' cs else lineStartsFrom o' cs

/-! ## Binary search -/

/-- In an ascending table, how many entries are at most `x`, given that it is between `lo`
and `hi`. -/
def countUpToBetween (table : Array Nat) (x lo hi : Nat) (h : hi ≤ table.size) : Nat :=
  if hlt : lo < hi then
    let mid := (lo + hi) / 2
    if table[mid] ≤ x then countUpToBetween table x (mid + 1) hi h
    else countUpToBetween table x lo mid (by omega)
  else lo
termination_by hi - lo

/-- In an ascending table, how many entries are at most `x`. -/
def countUpTo (table : Array Nat) (x : Nat) : Nat :=
  countUpToBetween table x 0 table.size (Nat.le_refl _)

/-! ## Sources -/

structure Source where
  text : String
  /-- The offset at which each line starts, ascending. -/
  lineStarts : Array Nat

namespace Source

def ofString (text : String) : Source :=
  ⟨text, (0 :: lineStartsFrom 0 text.toList).toArray⟩

/-- An empty text has one line. -/
def lineCount (s : Source) : Nat := s.lineStarts.size

def byteCount (s : Source) : Nat := s.text.utf8ByteSize

/-- The position of a byte offset; one past the end counts as the end. There is none inside a
character. -/
def position? (s : Source) (offset : Nat) : Option Position := do
  let o := min offset s.byteCount
  let line := countUpTo s.lineStarts o
  let start ← s.lineStarts[line - 1]?
  let before ← sliceBytes? start o s.text.toList
  return ⟨o, line, before.length + 1⟩

/-- The place behind the last character. -/
def stop (s : Source) : Position := Position.origin.after s.text.toList

end Source

end Reprint
