/-!
# White space and flattening

The characters with the Unicode property White_Space, and the form of a text on one line: its
lines, each without the white space at its ends, joined by single spaces.
-/

namespace Reprint

/-- The first and last code points of the ranges of White_Space, ascending. -/
def blankRanges : List (Nat × Nat) :=
  [(0x09, 0x0D), (0x20, 0x20), (0x85, 0x85), (0xA0, 0xA0), (0x1680, 0x1680), (0x2000, 0x200A),
    (0x2028, 0x2029), (0x202F, 0x202F), (0x205F, 0x205F), (0x3000, 0x3000)]

def isBlank (c : Char) : Bool :=
  blankRanges.any fun (first, last) => first ≤ c.toNat && c.toNat ≤ last

/-- Removes the white space at both ends. -/
def trimBlank (cs : List Char) : List Char :=
  ((cs.dropWhile isBlank).reverse.dropWhile isBlank).reverse

/-- Cuts at every line feed; a line feed at the end opens no new line. -/
def lines : List Char → List (List Char)
  | [] => []
  | c :: cs =>
    if c = '\n' then [] :: lines cs
    else match lines cs with
      | [] => [[c]]
      | l :: ls => (c :: l) :: ls

/-- The text on one line. -/
def flatten (text : String) : String :=
  " ".intercalate ((lines text.toList).map fun l => String.ofList (trimBlank l))

end Reprint
