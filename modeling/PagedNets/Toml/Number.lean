import PagedNets.Decimal.Reading
import PagedNets.Text.Hex
import PagedNets.Toml.Value

/-!
Values without quotes. Unfit are an integer of more than 128 bits, a number with a point or an
exponent that is too large for a double, a base without digits, and a decimal integer with anything
but digits behind its first underscore.
-/

set_option autoImplicit false

namespace PagedNets.Toml

/-- Digits without their underscores; there is at least one, at both ends stands a digit. -/
def joinDigits? (digit : Char → Bool) : List Char → Option (List Char)
  | [] => none
  | [c] => if digit c then some [c] else none
  | c :: '_' :: cs => if digit c then (joinDigits? digit cs).map (c :: ·) else none
  | c :: cs => if digit c then (joinDigits? digit cs).map (c :: ·) else none

def wholeDigits? (cs : List Char) : Option (List Char) :=
  match joinDigits? Decimal.isDigit cs with
  | some ('0' :: _ :: _) => none
  | ds => ds

/-- An integer has at most 128 bits, with or without a sign. -/
def ofInt (n : Int) : Scalar :=
  if -0x80000000000000000000000000000000 ≤ n && n < 0x100000000000000000000000000000000 then
    .integer n
  else .unfit

def ofFloat (x : Float) : Scalar := if x.isInf then .unfit else .float x

def based? (base : Nat) (digit : Char → Bool) (cs : List Char) : Option Scalar :=
  if cs.isEmpty then some .unfit
  else (joinDigits? digit cs).map fun ds => ofInt (Text.valueIn base ds)

/-- A text without its underscores. Each must stand between two digits, which may be hexadecimal
here. -/
def dropUnderscores? : List Char → Option (List Char)
  | c :: '_' :: cs =>
    if Text.isHexDigit c && (cs.head?.map Text.isHexDigit).getD false then
      (dropUnderscores? cs).map (c :: ·)
    else none
  | c :: cs => (dropUnderscores? cs).map (c :: ·)
  | [] => some []

/-- A decimal integer. Behind its first underscore may be other characters than digits, which make
it unfit. -/
def whole? (negative : Bool) (cs : List Char) : Option Scalar :=
  let head := cs.takeWhile Decimal.isDigit
  let rest := cs.dropWhile Decimal.isDigit
  if head.isEmpty || (head.head? == some '0' && 1 < cs.length) then none
  else if rest.isEmpty || rest.head? == some '_' then
    (dropUnderscores? cs).map fun ds =>
      if ds.all Decimal.isDigit then
        ofInt (if negative then -(Decimal.value ds : Int) else Decimal.value ds)
      else .unfit
  else none

def exponentOf? (cs : List Char) : Option Int :=
  let (negative, r) := Decimal.takeSign cs
  (joinDigits? Decimal.isDigit r).map fun ds =>
    if negative then -(Decimal.value ds : Int) else Decimal.value ds

def isExponentMark (c : Char) : Bool := c == 'e' || c == 'E'

def takeScale? (cs : List Char) : Option Int :=
  match cs with
  | [] => some 0
  | _ :: r => exponentOf? r

/-- A number with a point, an exponent, or both; digits on both sides of the point. It is infinite
if it is too large. -/
def magnitude? (cs : List Char) : Option Float :=
  let mantissa := cs.takeWhile fun c => !isExponentMark c
  let scale := takeScale? (cs.dropWhile fun c => !isExponentMark c)
  let whole := wholeDigits? (mantissa.takeWhile (· != '.'))
  let fraction := match mantissa.dropWhile (· != '.') with
    | [] => some []
    | _ :: ds => joinDigits? Decimal.isDigit ds
  match whole, fraction, scale with
  | some whole, some fraction, some e =>
    some (Decimal.ofScientific (Decimal.value (whole ++ fraction)) (e - fraction.length))
  | _, _, _ => none

def isFractional (cs : List Char) : Bool := cs.any fun c => c == '.' || isExponentMark c

def number? (negative : Bool) (cs : List Char) : Option Scalar :=
  if isFractional cs then (magnitude? cs).map fun x => ofFloat (if negative then -x else x)
  else whole? negative cs

def signed? (cs : List Char) : Option Scalar :=
  let (negative, r) := Decimal.takeSign cs
  if r = "inf".toList then some (.float (if negative then -Decimal.infinity else Decimal.infinity))
  else if r = "nan".toList then some (.float (0.0 / 0.0))
  else number? negative r

def takeFixed? (k : Nat) (cs : List Char) : Option (Nat × List Char) :=
  let ds := cs.take k
  if ds.length = k && ds.all Decimal.isDigit then some (Decimal.value ds, cs.drop k) else none

def daysIn (year month : Nat) : Nat :=
  if month = 2 then
    if year % 4 = 0 && (year % 100 != 0 || year % 400 = 0) then 29 else 28
  else if [4, 6, 9, 11].contains month then 30 else 31

def skipDate? (cs : List Char) : Option (List Char) := do
  let (year, r) ← takeFixed? 4 cs
  let '-' :: r := r | none
  let (month, r) ← takeFixed? 2 r
  let '-' :: r := r | none
  let (day, r) ← takeFixed? 2 r
  if 1 ≤ month && month ≤ 12 && 1 ≤ day && day ≤ daysIn year month then some r else none

/-- What follows the seconds of a minute, which may have a fraction. There may be a leap second. -/
def skipSeconds? (cs : List Char) : Option (List Char) := do
  let (second, r) ← takeFixed? 2 cs
  if 61 ≤ second then none
  else
    match r with
    | '.' :: r =>
      if (r.head?.map Decimal.isDigit).getD false then some (r.dropWhile Decimal.isDigit) else none
    | r => some r

/-- What follows a time of day; the seconds may be left out. -/
def skipTime? (cs : List Char) : Option (List Char) := do
  let (hour, r) ← takeFixed? 2 cs
  let ':' :: r := r | none
  let (minute, r) ← takeFixed? 2 r
  if 24 ≤ hour || 60 ≤ minute then none
  else
    match r with
    | ':' :: r => skipSeconds? r
    | r => some r

def isOffset (cs : List Char) : Bool :=
  match cs with
  | [] => true
  | ['Z'] => true
  | ['z'] => true
  | [sign, a, b, ':', c, d] =>
    (sign == '+' || sign == '-') && [a, b, c, d].all Decimal.isDigit
      && Decimal.value [a, b] < 24 && Decimal.value [c, d] < 60
  | _ => false

def isTimeMark (c : Char) : Bool := c == 'T' || c == 't' || c == ' '

def isMoment (cs : List Char) : Bool :=
  match skipDate? cs with
  | some [] => true
  | some (mark :: r) => isTimeMark mark && ((skipTime? r).map isOffset).getD false
  | none => ((skipTime? cs).map (·.isEmpty)).getD false

def scalar? (cs : List Char) : Option Scalar :=
  match cs with
  | '0' :: 'x' :: ds => based? 16 Text.isHexDigit ds
  | '0' :: 'o' :: ds => based? 8 (fun c => '0' ≤ c && c ≤ '7') ds
  | '0' :: 'b' :: ds => based? 2 (fun c => c == '0' || c == '1') ds
  | cs =>
    if cs = "true".toList then some (.boolean true)
    else if cs = "false".toList then some (.boolean false)
    else if isMoment cs then some .moment
    else signed? cs

def isScalarChar (c : Char) : Bool := !" \t\r\n#,=[]\x7b\x7d".toList.contains c

/-- A value without quotes. A blank may part a date from a time. -/
def takeScalar? (cs : List Char) : Option (Scalar × List Char) :=
  let first := cs.takeWhile isScalarChar
  let rest := cs.dropWhile isScalarChar
  let (text, rest) := match skipDate? first, rest with
    | some [], ' ' :: c :: r =>
      if Decimal.isDigit c then
        (first ++ ' ' :: (c :: r).takeWhile isScalarChar, (c :: r).dropWhile isScalarChar)
      else (first, rest)
    | _, _ => (first, rest)
  (scalar? text).map fun s => (s, rest)

end PagedNets.Toml
