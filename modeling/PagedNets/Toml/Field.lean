import PagedNets.Decimal.Reading
import PagedNets.Toml.Value

/-!
Values of a settings text as values of a type. A record is a table with its fields as keys, or an
array with its fields in order. Whatever is missing is left to a default. Other keys are passed
over, but their values must be sound; what follows the fields in an array is not looked at.
-/

set_option autoImplicit false

namespace PagedNets.Toml.Value

def string? : Value → Option String
  | scalar (.string s) => some s
  | _ => none

def boolean? : Value → Option Bool
  | scalar (.boolean b) => some b
  | _ => none

/-- A whole number of at most 64 bits also stands for a number with a point. -/
def float? : Value → Option Float
  | scalar (.float x) => some x
  | scalar (.integer n) =>
    if -0x8000000000000000 ≤ n && n < Decimal.countLimit then some (Float.ofInt n) else none
  | _ => none

def count? : Value → Option Nat
  | scalar (.integer n) => if 0 ≤ n && n < Decimal.countLimit then some n.toNat else none
  | _ => none

/-- The fields of a record in the given order. A date is a record too, of fields that have no
name. -/
def fields? (names : List String) : Value → Option (List (Option Value))
  | table _ es =>
    if es.all fun e => names.contains e.1 || e.2.isSound then
      some (names.map fun name => es.lookup name)
    else none
  | array items => some ((List.range names.length).map (items[·]?))
  | series earlier last =>
    some ((List.range names.length).map (((earlier ++ [last]).map (table .header))[·]?))
  | scalar .moment => some (names.map fun _ => none)
  | scalar _ => none

def isVoid : Value → Bool
  | array [] => true
  | table _ [] => true
  | _ => false

/-- A choice between cases without content: a string, or a table with one key and nothing in it. -/
def tag? : Value → Option String
  | scalar (.string s) => some s
  | table _ [(key, content)] => if isVoid content then some key else none
  | _ => none

def orDefault? {α : Type} (read : Value → Option α) (default : α) : Option Value → Option α
  | none => some default
  | some v => read v

end PagedNets.Toml.Value
