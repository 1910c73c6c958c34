import Reprint.Numeral.Nearest

/-!
# Numerals

A numeral is kept as it is spelled. Its value is the double nearest to the decimal number that
the spelling denotes.
-/

namespace Reprint

structure Numeral where
  raw : String
deriving DecidableEq

/-! ## Decimal numbers -/

/-- The number `mantissa * 10 ^ exponent`. -/
structure Decimal where
  mantissa : Nat
  exponent : Int
deriving DecidableEq

namespace Decimal

def ofDigits (ds : List Char) : Nat :=
  ds.foldl (fun n d => 10 * n + (d.toNat - '0'.toNat)) 0

/-- A minus sign, a plus sign or nothing, and what follows. -/
def splitMinus : List Char → Bool × List Char
  | '-' :: cs => (true, cs)
  | '+' :: cs => (false, cs)
  | cs => (false, cs)

/-- An exponent that takes up all of the text; none at all counts as zero. -/
def exponent? : List Char → Option Int
  | [] => some 0
  | mark :: cs =>
    let (minus, ds) := splitMinus cs
    if (mark = 'e' ∨ mark = 'E') ∧ ds ≠ [] ∧ ds.all Char.isDigit then
      some (if minus then -(ofDigits ds : Int) else ofDigits ds)
    else none

/-- Digits with at most one point among them or at either end, then an exponent. -/
def ofChars? (cs : List Char) : Option Decimal := do
  let whole := cs.takeWhile Char.isDigit
  let (fraction, rest) := match cs.dropWhile Char.isDigit with
    | '.' :: rest => (rest.takeWhile Char.isDigit, rest.dropWhile Char.isDigit)
    | rest => ([], rest)
  guard (whole ++ fraction ≠ [])
  let e ← exponent? rest
  return ⟨ofDigits (whole ++ fraction), e - fraction.length⟩

/-- The bits of the nearest double. A number with its leading digit far outside the range of
doubles is decided by the place of that digit alone. -/
def bits (d : Decimal) : Nat :=
  let place : Int := (Nat.toDigits 10 d.mantissa).length + d.exponent
  if d.mantissa = 0 then 0
  else if 400 < place then infinityBits
  else if place < -400 then 0
  else if 0 ≤ d.exponent then nearestBits (d.mantissa * Nat.pow 10 d.exponent.toNat) 1
  else nearestBits d.mantissa (Nat.pow 10 (-d.exponent).toNat)

end Decimal

/-! ## Values -/

namespace Numeral

/-- Whether the spelling has neither a point nor an exponent mark. -/
def isInteger (n : Numeral) : Bool :=
  n.raw.toList.all fun c => c ≠ '.' ∧ c ≠ 'e' ∧ c ≠ 'E'

/-- The bits of the magnitude that an unsigned spelling denotes: a decimal number, or infinity by
name in any case. -/
def magnitudeBits? (cs : List Char) : Option Nat :=
  let word := String.ofList (cs.map Char.toLower)
  if word = "inf" ∨ word = "infinity" then some infinityBits
  else (Decimal.ofChars? cs).map Decimal.bits

/-- The bits of the value, which a spelling that denotes no number lacks. -/
def bits? (n : Numeral) : Option Nat :=
  let (minus, cs) := Decimal.splitMinus n.raw.toList
  (magnitudeBits? cs).map fun b => if minus then signBit + b else b

/-- The value, not a number where the spelling denotes none. -/
def value (n : Numeral) : Float :=
  match n.bits? with
  | some b => Float.ofBits (UInt64.ofNat b)
  | none => 0.0 / 0.0

end Numeral

end Reprint
