set_option autoImplicit false

namespace PagedNets.Text

/-- The property White_Space of the Unicode Character Database. -/
def isBlank (c : Char) : Bool :=
  let n := c.toNat
  (0x09 ≤ n && n ≤ 0x0D) || n == 0x20 || n == 0x85 || n == 0xA0 || n == 0x1680
    || (0x2000 ≤ n && n ≤ 0x200A) || n == 0x2028 || n == 0x2029 || n == 0x202F
    || n == 0x205F || n == 0x3000

def trimLeft (cs : List Char) : List Char := cs.dropWhile isBlank

def trimRight (cs : List Char) : List Char := (cs.reverse.dropWhile isBlank).reverse

def trim (s : String) : String := String.ofList (trimRight (trimLeft s.toList))

def trimEnd (s : String) : String := String.ofList (trimRight s.toList)

/-- Case folding of ASCII letters only; every other character stays. -/
def foldCase (s : String) : String := String.ofList (s.toList.map Char.toLower)

end PagedNets.Text
