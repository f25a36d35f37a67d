import PagedNets.Decimal.Shortest

set_option autoImplicit false

namespace PagedNets.Decimal

structure Style where
  /-- Taken between two equally near shortest decimals. -/
  tie : Tie
  /-- The exponents of the first digit that are written without an exponent part. -/
  positional : Int → Bool
  /-- Whole numbers in positional form keep a point and a zero. -/
  keepsPoint : Bool

def positionalText (keepsPoint : Bool) (ds : List Char) (exponent : Int) : List Char :=
  let whole := (ds.length : Int) + exponent
  if 0 ≤ exponent then
    ds ++ List.replicate exponent.toNat '0' ++ (if keepsPoint then ['.', '0'] else [])
  else if 0 < whole then ds.take whole.toNat ++ '.' :: ds.drop whole.toNat
  else '0' :: '.' :: List.replicate (-whole).toNat '0' ++ ds

/-- One digit before the point, no needless fraction, an explicit sign of the exponent. -/
def scientificText (ds : List Char) (lead : Int) : List Char :=
  let fraction := ds.drop 1
  ds.take 1 ++ (if fraction.isEmpty then [] else '.' :: fraction)
    ++ 'e' :: (if 0 ≤ lead then '+' else '-') :: digits lead.natAbs

/-- Digits without the zeros at their end, which move into the exponent. -/
def dropZeros (ds : List Char) (exponent : Int) : List Char × Int :=
  let kept := (ds.reverse.dropWhile (· == '0')).reverse
  (kept, exponent + ((ds.length : Int) - kept.length))

def Style.magnitude (s : Style) (m : Nat) (q : Int) : List Char :=
  if m = 0 then positionalText s.keepsPoint ['0'] 0
  else
    let (d, e) := shortest s.tie m q
    let (ds, e) := dropZeros (digits d) e
    let lead := e + ds.length - 1
    if s.positional lead then positionalText s.keepsPoint ds e else scientificText ds lead

def Style.text (s : Style) (x : Float) : String :=
  match decode x with
  | .nan => "NaN"
  | .infinite negative => if negative then "-inf" else "inf"
  | .finite negative m q =>
    String.ofList ((if negative then ['-'] else []) ++ s.magnitude m q)

def plain : Style := { tie := .up, positional := fun _ => true, keepsPoint := false }

/-- An exponent below `10 ^ -5` and from `10 ^ 16` on; whole numbers end in `.0`. -/
def scientific : Style :=
  { tie := .even, positional := fun e => -5 ≤ e && e ≤ 15, keepsPoint := true }

end PagedNets.Decimal
