import PagedNets.Json.Number
import PagedNets.Text.Hex

/-!
The grammar of data texts. A text is read into a tree that keeps numbers and strings as they are
written; they get a meaning only where a value of a type is asked for. So a part that nobody asks
for has to be well formed and nothing more.
-/

set_option autoImplicit false

namespace PagedNets.Json

inductive Raw where
  | null
  | bool (b : Bool)
  | number (n : Numeral)
  | string (content : List Char)
  | array (items : List Raw)
  | object (members : List (List Char × Raw))

def isBlankChar (c : Char) : Bool := c == ' ' || c == '\n' || c == '\t' || c == '\r'

def skipBlank (cs : List Char) : List Char := cs.dropWhile isBlankChar

def escapeLength? : List Char → Option Nat
  | 'u' :: a :: b :: c :: d :: _ => if [a, b, c, d].all Text.isHexDigit then some 5 else none
  | c :: _ => if "\"\\/bfnrt".toList.contains c then some 1 else none
  | [] => none

def takeString? : Nat → List Char → Option (List Char × List Char)
  | 0, _ => none
  | _, [] => none
  | _, '"' :: rest => some ([], rest)
  | fuel + 1, '\\' :: cs =>
    (escapeLength? cs).bind fun k =>
      (takeString? fuel (cs.drop k)).map fun (s, rest) => ('\\' :: cs.take k ++ s, rest)
  | fuel + 1, c :: cs =>
    if c.toNat < 0x20 then none
    else (takeString? fuel cs).map fun (s, rest) => (c :: s, rest)

mutual

def takeValue? : Nat → List Char → Option (Raw × List Char)
  | 0, _ => none
  | fuel + 1, cs =>
    match skipBlank cs with
    | '"' :: r => (takeString? (r.length + 1) r).map fun (s, rest) => (.string s, rest)
    | '[' :: r =>
      match skipBlank r with
      | ']' :: rest => some (.array [], rest)
      | r => (takeItems? fuel r).map fun (items, rest) => (.array items, rest)
    | '\x7b' :: r =>
      match skipBlank r with
      | '\x7d' :: rest => some (.object [], rest)
      | r => (takeMembers? fuel r).map fun (members, rest) => (.object members, rest)
    | 'n' :: 'u' :: 'l' :: 'l' :: rest => some (.null, rest)
    | 't' :: 'r' :: 'u' :: 'e' :: rest => some (.bool true, rest)
    | 'f' :: 'a' :: 'l' :: 's' :: 'e' :: rest => some (.bool false, rest)
    | r => (takeNumeral? r).map fun (n, rest) => (.number n, rest)

def takeItems? : Nat → List Char → Option (List Raw × List Char)
  | 0, _ => none
  | fuel + 1, cs =>
    (takeValue? fuel cs).bind fun (item, r) =>
      match skipBlank r with
      | ']' :: rest => some ([item], rest)
      | ',' :: r => (takeItems? fuel r).map fun (items, rest) => (item :: items, rest)
      | _ => none

def takeMembers? : Nat → List Char → Option (List (List Char × Raw) × List Char)
  | 0, _ => none
  | fuel + 1, cs =>
    match skipBlank cs with
    | '"' :: r =>
      (takeString? (r.length + 1) r).bind fun (key, r) =>
        match skipBlank r with
        | ':' :: r =>
          (takeValue? fuel r).bind fun (value, r) =>
            match skipBlank r with
            | '\x7d' :: rest => some ([(key, value)], rest)
            | ',' :: r =>
              (takeMembers? fuel r).map fun (members, rest) => ((key, value) :: members, rest)
            | _ => none
        | _ => none
    | _ => none

end

def parse? (s : String) : Option Raw :=
  let cs := s.toList
  (takeValue? (2 * cs.length + 2) cs).bind fun (value, rest) =>
    if (skipBlank rest).isEmpty then some value else none

/-- The character of an escape by number, with what follows it. Beyond the first plane it is
written as two surrogates; one of them alone is no character. -/
def unicodeEscape? (unit : Nat) (rest : List Char) : Option (Char × List Char) :=
  if 0xD800 ≤ unit && unit < 0xDC00 then
    match rest with
    | '\\' :: 'u' :: a :: b :: c :: d :: rest =>
      let low := Text.hexValue [a, b, c, d]
      if 0xDC00 ≤ low && low < 0xE000 then
        some (Char.ofNat (0x10000 + (unit - 0xD800) * 0x400 + (low - 0xDC00)), rest)
      else none
    | _ => none
  else if 0xDC00 ≤ unit && unit < 0xE000 then none
  else some (Char.ofNat unit, rest)

def letterEscape : Char → Char
  | 'b' => '\x08'
  | 'f' => '\x0c'
  | 'n' => '\n'
  | 'r' => '\r'
  | 't' => '\t'
  | c => c

def unescape? : Nat → List Char → Option (List Char)
  | _, [] => some []
  | 0, _ => none
  | fuel + 1, '\\' :: 'u' :: a :: b :: c :: d :: cs =>
    (unicodeEscape? (Text.hexValue [a, b, c, d]) cs).bind fun (c, rest) =>
      (unescape? fuel rest).map (c :: ·)
  | fuel + 1, '\\' :: c :: cs => (unescape? fuel cs).map (letterEscape c :: ·)
  | fuel + 1, c :: cs => (unescape? fuel cs).map (c :: ·)

def stringOf? (content : List Char) : Option String :=
  (unescape? content.length content).map String.ofList

namespace Raw

def string? : Raw → Option String
  | string content => stringOf? content
  | _ => none

def float? : Raw → Option Float
  | number n => n.float?
  | _ => none

def count? : Raw → Option UInt64
  | number n => n.count?
  | _ => none

def optional? {α : Type} (f : Raw → Option α) : Option Raw → Option (Option α)
  | none => some none
  | some null => some none
  | some r => (f r).map some

def list? {α : Type} (f : Raw → Option α) : Raw → Option (List α)
  | array items => items.mapM f
  | _ => none

/-- The value of a field among members whose keys have been read; it may stand there once. -/
def fieldAmong? (members : List (String × Raw)) (name : String) : Option (Option Raw) :=
  match members.filter fun m => m.1 == name with
  | [] => some none
  | [m] => some (some m.2)
  | _ => none

/-- The fields of a record in the given order, from an object or from an array with one item for
each. Members of other names are passed over. -/
def fields? (names : List String) : Raw → Option (List (Option Raw))
  | object members => do
    let read ← members.mapM fun m => (stringOf? m.1).map fun key => (key, m.2)
    names.mapM (fieldAmong? read)
  | array items => if items.length = names.length then some (items.map some) else none
  | _ => none

/-- A choice between cases, each with content: an object with one member. -/
def choice? : Raw → Option (String × Raw)
  | object [member] => (stringOf? member.1).map fun key => (key, member.2)
  | _ => none

/-- A choice between cases without content: a string, or an object with one `null`. -/
def tag? : Raw → Option String
  | string content => stringOf? content
  | object [(key, null)] => stringOf? key
  | _ => none

end Raw

end PagedNets.Json
