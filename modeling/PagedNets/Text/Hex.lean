import PagedNets.Decimal.Digits

set_option autoImplicit false

namespace PagedNets.Text

def isHexDigit (c : Char) : Bool :=
  Decimal.isDigit c || ('a' ≤ c && c ≤ 'f') || ('A' ≤ c && c ≤ 'F')

def hexDigitValue (c : Char) : Nat :=
  if Decimal.isDigit c then Decimal.digitValue c
  else if 'a' ≤ c then c.toNat - 'a'.toNat + 10 else c.toNat - 'A'.toNat + 10

def valueIn (base : Nat) (cs : List Char) : Nat :=
  cs.foldl (fun n c => base * n + hexDigitValue c) 0

def hexValue (cs : List Char) : Nat := valueIn 16 cs

def hexDigits (n : Nat) : List Char := Nat.toDigits 16 n

end PagedNets.Text
