/-!
Settings as a tree of tables. A table knows how it came to be, because that decides who may add to
it later: a table with a header of its own takes keys under that header only, one in braces is
closed, and one that was only passed through may still get its header.
-/

set_option autoImplicit false

namespace PagedNets.Toml

inductive Scalar where
  | string (s : String)
  | integer (n : Int)
  | float (x : Float)
  | boolean (b : Bool)
  | moment
  /-- What is written like a number but is too large for any kind of number, has no digits, or has
  something else behind them. It may stand only where nobody looks. -/
  | unfit
  deriving Repr

/-- How a table came to be. -/
inductive Origin where
  | header
  /-- As a part of the header of a table within it. -/
  | ancestor
  | dotted
  | inline
  deriving DecidableEq, Repr

inductive Value where
  | scalar (s : Scalar)
  | array (items : List Value)
  | table (origin : Origin) (entries : List (String × Value))
  /-- Tables that share a header, of which only the last can grow. -/
  | series (earlier : List (List (String × Value))) (last : List (String × Value))

abbrev Entries := List (String × Value)

mutual

def Value.isSound : Value → Bool
  | .scalar .unfit => false
  | .scalar _ => true
  | .array items => areSound items
  | .table _ entries => areEntriesSound entries
  | .series earlier last => areTablesSound earlier && areEntriesSound last

def areSound : List Value → Bool
  | [] => true
  | v :: vs => v.isSound && areSound vs

def areEntriesSound : List (String × Value) → Bool
  | [] => true
  | (_, v) :: es => v.isSound && areEntriesSound es

def areTablesSound : List (List (String × Value)) → Bool
  | [] => true
  | es :: ts => areEntriesSound es && areTablesSound ts

end

structure Path where
  parents : List String
  key : String
  deriving DecidableEq, Repr

namespace Entries

def replace (es : Entries) (key : String) (v : Value) : Entries :=
  es.map fun e => if e.1 == key then (key, v) else e

def add? (es : Entries) (key : String) (v : Value) : Option Entries :=
  if (es.lookup key).isSome then none else some (es ++ [(key, v)])

/-- Changes the table at the end of a list of keys; tables that are missing on the way are made.
`made` is how: as ancestors of a header, or by a dotted key. A dotted key passes only through
tables without a header, neither passes through a closed one. The change learns how the table it
gets came to be. -/
def changeAt? (made : Origin) (change : Origin → Entries → Option Entries) (origin : Origin) :
    List String → Entries → Option Entries
  | [], es => change origin es
  | key :: keys, es =>
    match es.lookup key with
    | none => (changeAt? made change made keys []).bind fun t => es.add? key (.table made t)
    | some (.table own t) =>
      if own = .inline || (made = .dotted && own = .header) then none
      else (changeAt? made change own keys t).map fun t => es.replace key (.table own t)
    | some (.series earlier last) =>
      (changeAt? made change .header keys last).map fun t => es.replace key (.series earlier t)
    | some _ => none

/-- Adds a value under a key of the current table. A dotted key ends in a table that dotted keys
have made. -/
def addAt? (path : Path) (v : Value) (es : Entries) : Option Entries :=
  changeAt? .dotted
    (fun origin es =>
      if path.parents.isEmpty || origin = .dotted then es.add? path.key v else none)
    .header path.parents es

def addUnder? (header : List String) (path : Path) (v : Value) (es : Entries) : Option Entries :=
  changeAt? .ancestor (fun _ => addAt? path v) .header header es

def openTable? (path : Path) (es : Entries) : Option Entries :=
  changeAt? .ancestor
    (fun _ es =>
      match es.lookup path.key with
      | none => es.add? path.key (.table .header [])
      | some (.table .ancestor t) => some (es.replace path.key (.table .header t))
      | some _ => none)
    .header path.parents es

def openNext? (path : Path) (es : Entries) : Option Entries :=
  changeAt? .ancestor
    (fun _ es =>
      match es.lookup path.key with
      | none => es.add? path.key (.series [] [])
      | some (.series earlier last) =>
        some (es.replace path.key (.series (earlier ++ [last]) []))
      | some _ => none)
    .header path.parents es

end Entries

end PagedNets.Toml
