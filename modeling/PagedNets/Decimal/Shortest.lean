import PagedNets.Decimal.Digits

/-!
The fewest decimal digits that read back as a given binary number. A double is taken apart into
`m · 2 ^ q`; the reals that round to it form an interval, closed exactly if `m` is even. For one
digit, two digits, and so on, the two points of the decimal grid next to the number are tested
in exact arithmetic, and the first grid with a point in the interval wins. Seventeen digits always
suffice.
-/

set_option autoImplicit false

namespace PagedNets.Decimal

/-- A double taken apart: a finite one is `± significand · 2 ^ exponent`. -/
inductive Decoded where
  | nan
  | infinite (negative : Bool)
  | finite (negative : Bool) (significand : Nat) (exponent : Int)
  deriving Repr, DecidableEq

def hiddenBit : Nat := 0x10000000000000

/-- From the low end: 52 bits of fraction, 11 of exponent, one of sign. -/
def decodeBits (bits : Nat) : Decoded :=
  let negative := bits / hiddenBit / 2048 % 2 == 1
  let biased := bits / hiddenBit % 2048
  let fraction := bits % hiddenBit
  if biased = 2047 then
    if fraction = 0 then .infinite negative else .nan
  else if biased = 0 then .finite negative fraction (-1074)
  else .finite negative (hiddenBit + fraction) (biased - 1075)

def decode (x : Float) : Decoded := decodeBits x.toBits.toNat

/-- Which of two equally near points is taken. -/
inductive Tie where
  | up
  | even
  deriving Repr, DecidableEq

/-- The interval of rationals `low / den … high / den` around `mid / den`. -/
structure Interval where
  low : Nat
  mid : Nat
  high : Nat
  den : Nat
  closed : Bool
  deriving Repr

/-- The reals that round to `m · 2 ^ q`. Below a power of two the doubles lie twice as close. -/
def Interval.around (m : Nat) (q : Int) : Interval :=
  let below := if m = hiddenBit ∧ -1074 < q then 1 else 2
  let up := Nat.pow 2 q.toNat
  { low := (4 * m - below) * up
    mid := 4 * m * up
    high := (4 * m + 2) * up
    den := 4 * Nat.pow 2 (-q).toNat
    closed := m % 2 == 0 }

def Interval.holds (i : Interval) (n num den : Nat) : Bool :=
  let x := n * num * i.den
  if i.closed then i.low * den ≤ x && x ≤ i.high * den
  else i.low * den < x && x < i.high * den

/-- The least `j ≤ bound` with `den ≤ num · 10 ^ j`. -/
def leadingZeros (num den : Nat) : Nat → Nat
  | 0 => 0
  | bound + 1 => if den ≤ num then 0 else leadingZeros (10 * num) den bound + 1

/-- The exponent of the first digit: `10 ^ e ≤ num / den < 10 ^ (e + 1)`. -/
def leadingExponent (num den : Nat) : Int :=
  if den ≤ num then ((digits (num / den)).length : Int) - 1
  else -(leadingZeros num den 400 : Int)

def Interval.pick? (i : Interval) (tie : Tie) (num den : Nat) : Option Nat :=
  let below := i.mid * den / (num * i.den)
  let above := below + 1
  let lowGap := i.mid * den - below * num * i.den
  let highGap := above * num * i.den - i.mid * den
  match i.holds below num den && below != 0, i.holds above num den with
  | false, false => none
  | true, false => some below
  | false, true => some above
  | true, true =>
    if lowGap < highGap then some below
    else if highGap < lowGap then some above
    else match tie with
      | .up => some above
      | .even => some (if below % 2 = 0 then below else above)

/-- Searches the grids from coarse to fine. The result `(d, e)` stands for `d · 10 ^ e`. -/
def Interval.search (i : Interval) (tie : Tie) (exponent : Int) : Nat → Nat × Int
  | 0 => (i.mid / i.den, 0)
  | left + 1 =>
    match i.pick? tie (Nat.pow 10 exponent.toNat) (Nat.pow 10 (-exponent).toNat) with
    | some d => (d, exponent)
    | none => i.search tie (exponent - 1) left

/-- Shortest decimal `d · 10 ^ e` that rounds to `m · 2 ^ q`, the nearest of those. -/
def shortest (tie : Tie) (m : Nat) (q : Int) : Nat × Int :=
  let i := Interval.around m q
  i.search tie (leadingExponent i.mid i.den) 17

end PagedNets.Decimal
