import PagedNets.Decimal.Shortest

/-!
The double nearest to a fraction, in exact arithmetic; of two equally near ones the one with an
even significand. Where the doubles lie `2 ^ q` apart, the fraction is divided by that distance and
rounded to a whole number, its significand. As the bits of doubles count up in the order of the
doubles, a significand that is rounded up to the next power of two needs no care, and what exceeds
the largest double ends at infinity.
-/

set_option autoImplicit false

namespace PagedNets.Decimal

/-- `num · 2 ^ k` as a fraction over `den`, for a `k` of either sign. -/
def scaleByTwo (num den : Nat) (k : Int) : Nat × Nat :=
  (num * Nat.pow 2 k.toNat, den * Nat.pow 2 (-k).toNat)

/-- The greatest `k` with `2 ^ k ≤ num / den`, for a positive fraction. -/
def binaryExponent (num den : Nat) : Int :=
  let k : Int := (Nat.log2 num : Int) - Nat.log2 den
  let (n, d) := scaleByTwo num den (-k)
  if d ≤ n then k else k - 1

/-- The nearest whole number, the even one of two. -/
def roundHalfEven (num den : Nat) : Nat :=
  let n := num / den
  let twice := 2 * (num % den)
  if twice < den then n else if den < twice then n + 1 else n + n % 2

/-- The distance of the doubles around a fraction, as an exponent of two: they have 53 binary
digits, but none behind the 1074th place. -/
def spacing (num den : Nat) : Int := max (-1074) (binaryExponent num den - 52)

def infinityBits : Nat := 2047 * hiddenBit

def ofBits (bits : Nat) : Float := Float.ofBits (UInt64.ofNat bits)

def infinity : Float := ofBits infinityBits

def nearestBits (num den : Nat) : Nat :=
  if num = 0 then 0
  else
    let q := spacing num den
    let (n, d) := scaleByTwo num den (-q)
    min (roundHalfEven n d + (q + 1074).toNat * hiddenBit) infinityBits

def nearest (num den : Nat) : Float := ofBits (nearestBits num den)

end PagedNets.Decimal
