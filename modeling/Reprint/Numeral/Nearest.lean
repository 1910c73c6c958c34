/-!
# The double nearest to a fraction

Exact rounding of a positive fraction to a binary64 number, to nearest with ties to even. A finite
number is `m * 2 ^ q` with `m < 2 ^ 53` and `-1074 ≤ q`, and its bits are
`(q + 1074) * 2 ^ 52 + m` when `q` is the least exponent that fits. A rounding that carries into
the next exponent is right in that form too.
-/

namespace Reprint

/-- The natural number nearest to `num / den`, the even one of two. -/
def roundHalfEven (num den : Nat) : Nat :=
  let quotient := num / den
  let twice := 2 * (num % den)
  if twice < den then quotient
  else if den < twice then quotient + 1
  else quotient + quotient % 2

/-- `num / den / 2 ^ q` as a fraction. -/
def scaleDown (num den : Nat) (q : Int) : Nat × Nat :=
  if 0 ≤ q then (num, den * Nat.pow 2 q.toNat) else (num * Nat.pow 2 (-q).toNat, den)

/-- The greatest `q` with `2 ^ 52 ≤ num / den / 2 ^ q`, but at least `-1074`. -/
def binaryExponent (num den : Nat) : Int :=
  let guess : Int := (num.log2 : Int) - den.log2 - 52
  let (n, d) := scaleDown num den guess
  max (if n < d * Nat.pow 2 52 then guess - 1 else guess) (-1074)

def infinityBits : Nat := 0x7FF * Nat.pow 2 52

def signBit : Nat := Nat.pow 2 63

/-- The bits of the number nearest to `num / den`, as if there were no greatest exponent. -/
def unboundedBits (num den : Nat) : Nat :=
  let q := binaryExponent num den
  let (n, d) := scaleDown num den q
  (q + 1074).toNat * Nat.pow 2 52 + roundHalfEven n d

/-- The bits of the double nearest to `num / den`, where both are positive. -/
def nearestBits (num den : Nat) : Nat := min (unboundedBits num den) infinityBits

end Reprint
