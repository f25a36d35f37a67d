import PagedNets.Decimal.Reading

/-!
The digits of a number are gathered into a 64-bit significand; digits that no longer fit only move
the exponent, or are dropped behind the point. A number with a point, an exponent or too many digits
is the significand scaled by one power of ten in double precision.
-/

set_option autoImplicit false

namespace PagedNets.Json

structure Numeral where
  negative : Bool
  whole : List Char
  /-- The digits behind the point, if there is one. -/
  fraction : Option (List Char)
  /-- The sign and the digits of the exponent, if there is one. -/
  exponent : Option (Bool × List Char)
  deriving DecidableEq, Repr

def takeDigits (cs : List Char) : List Char × List Char :=
  (cs.takeWhile Decimal.isDigit, cs.dropWhile Decimal.isDigit)

/-- The digits in front of the point: at least one, and none after a leading zero. -/
def takeWhole? (cs : List Char) : Option (List Char × List Char) :=
  match takeDigits cs with
  | ([], _) => none
  | ('0' :: _ :: _, _) => none
  | taken => some taken

def takeFraction? : List Char → Option (Option (List Char) × List Char)
  | '.' :: cs =>
    match takeDigits cs with
    | ([], _) => none
    | (ds, rest) => some (some ds, rest)
  | cs => some (none, cs)

def takeExponent? (cs : List Char) : Option (Option (Bool × List Char) × List Char) :=
  match cs with
  | [] => some (none, [])
  | c :: r =>
    if c == 'e' || c == 'E' then
      let (negative, r) := Decimal.takeSign r
      match takeDigits r with
      | ([], _) => none
      | (ds, rest) => some (some (negative, ds), rest)
    else some (none, cs)

def takeNumeral? (cs : List Char) : Option (Numeral × List Char) :=
  let (negative, r) := match cs with
    | '-' :: r => (true, r)
    | r => (false, r)
  (takeWhole? r).bind fun (whole, r) =>
    (takeFraction? r).bind fun (fraction, r) =>
      (takeExponent? r).map fun (exponent, r) =>
        ({ negative := negative, whole := whole, fraction := fraction, exponent := exponent }, r)

def maxSignificand : Nat := Decimal.countLimit - 1

/-- A significand with its exponent; once it is full, it takes no more digits. -/
structure Scaled where
  significand : Nat := 0
  exponent : Int := 0
  full : Bool := false
  deriving DecidableEq, Repr

/-- In front of the point, a digit that does not fit raises the exponent. -/
def Scaled.pushWhole (s : Scaled) (c : Char) : Scaled :=
  let next := 10 * s.significand + Decimal.digitValue c
  if s.full || maxSignificand < next then { s with exponent := s.exponent + 1, full := true }
  else { s with significand := next }

/-- Behind the point, a digit that does not fit is dropped, and so are all that follow it. -/
def Scaled.pushFraction (s : Scaled) (c : Char) : Scaled :=
  let next := 10 * s.significand + Decimal.digitValue c
  if s.full || maxSignificand < next then { s with full := true }
  else { s with significand := next, exponent := s.exponent - 1 }

/-- Scales by powers of ten that are doubles, over at most `fuel` of them; too large a result is
none. Three divisions bring every significand to zero. -/
def scale? : Nat → Float → Int → Option Float
  | 0, f, _ => some f
  | fuel + 1, f, e =>
    if e.natAbs ≤ 308 then
      let power := Float.ofScientific 1 false e.natAbs
      if 0 ≤ e then
        let scaled := f * power
        if scaled.isInf then none else some scaled
      else some (f / power)
    else if f == 0 then some f
    else if 0 ≤ e then none
    else scale? fuel (f / 1e308) (e + 308)

namespace Numeral

def integer? (n : Numeral) : Option Nat :=
  if n.fraction.isNone && n.exponent.isNone && Decimal.value n.whole ≤ maxSignificand then
    some (Decimal.value n.whole)
  else none

def count? (n : Numeral) : Option UInt64 :=
  if n.negative then none else n.integer?.map UInt64.ofNat

def scaled (n : Numeral) : Scaled :=
  let s := n.whole.foldl Scaled.pushWhole {}
  (n.fraction.getD []).foldl Scaled.pushFraction { s with full := false }

def maxExponent : Nat := 0x7FFFFFFF

def magnitude? (n : Numeral) : Option Float :=
  let s := n.scaled
  let f := Float.ofNat s.significand
  match n.exponent with
  | none => scale? 16 f s.exponent
  | some (negative, ds) =>
    let e := Decimal.value ds
    if maxExponent < e then
      if s.significand = 0 || negative then some 0 else none
    else scale? 16 f (if negative then s.exponent - e else s.exponent + e)

def float? (n : Numeral) : Option Float :=
  let magnitude := match n.integer? with
    | some k => some (Float.ofNat k)
    | none => n.magnitude?
  magnitude.map fun f => if n.negative then -f else f

end Numeral

end PagedNets.Json
