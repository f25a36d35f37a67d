import PagedNets.Decimal.Nearest

/-!
A floating-point number is an optional sign and either a name of a special value or digits with at
most one point and an optional exponent; a count is digits with an optional plus sign that fit into
64 bits. Neither admits blanks.
-/

set_option autoImplicit false

namespace PagedNets.Decimal

def takeSign : List Char → Bool × List Char
  | '-' :: cs => (true, cs)
  | '+' :: cs => (false, cs)
  | cs => (false, cs)

/-- `m · 10 ^ e`, rounded to the nearest double. Exponents far out of range are answered at
once, so that no giant power is computed. -/
def ofScientific (m : Nat) (e : Int) : Float :=
  let lead := e + (digits m).length
  if m = 0 || lead < -330 then 0
  else if 310 < lead then infinity
  else nearest (m * Nat.pow 10 e.toNat) (Nat.pow 10 (-e).toNat)

/-- The exponent part, `0` if there is none; nothing may follow it. -/
def exponent? : List Char → Option Int
  | [] => some 0
  | c :: cs =>
    if c == 'e' || c == 'E' then
      let (negative, ds) := takeSign cs
      if ds.isEmpty || !ds.all isDigit then none
      else some (if negative then -(value ds : Int) else value ds)
    else none

def unsigned? (cs : List Char) : Option Float :=
  let whole := cs.takeWhile isDigit
  let rest := cs.dropWhile isDigit
  let (fraction, rest) :=
    match rest with
    | '.' :: r => (r.takeWhile isDigit, r.dropWhile isDigit)
    | r => ([], r)
  if whole.isEmpty && fraction.isEmpty then none
  else (exponent? rest).map fun e => ofScientific (value (whole ++ fraction)) (e - fraction.length)

def special? (cs : List Char) : Option Float :=
  let name := String.ofList (cs.map Char.toLower)
  if name = "inf" || name = "infinity" then some infinity
  else if name = "nan" then some (0.0 / 0.0)
  else none

def float? (s : String) : Option Float :=
  let (negative, cs) := takeSign s.toList
  let magnitude := (special? cs).or (unsigned? cs)
  magnitude.map fun x => if negative then -x else x

def countLimit : Nat := 0x10000000000000000

def count? (s : String) : Option UInt64 :=
  let ds := match s.toList with
    | '+' :: cs => cs
    | cs => cs
  if ds.isEmpty || !ds.all isDigit then none
  else if value ds < countLimit then some (UInt64.ofNat (value ds)) else none

end PagedNets.Decimal
