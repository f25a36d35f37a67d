import PagedNets.Json.Value
import PagedNets.Decimal.Style
import PagedNets.Text.Quoted

/-!
Two blanks of indentation for each level, one member or item a line, `[]` and `{}` where there is
none. A number without a finite value is written `null`.
-/

set_option autoImplicit false

namespace PagedNets.Json

/-- Characters below the blank are written by a letter or by number, all others stand as they
are, except for the quote and the backslash. -/
def escapeChar (c : Char) : List Char :=
  if c == '"' then ['\\', '"']
  else if c == '\\' then ['\\', '\\']
  else if c == '\x08' then ['\\', 'b']
  else if c == '\x0c' then ['\\', 'f']
  else if c == '\n' then ['\\', 'n']
  else if c == '\r' then ['\\', 'r']
  else if c == '\t' then ['\\', 't']
  else if c.toNat < 0x20 then
    ['\\', 'u', '0', '0', if c.toNat < 0x10 then '0' else '1'] ++ Text.hexDigits (c.toNat % 0x10)
  else [c]

def quotedText (s : String) : String :=
  String.ofList ('"' :: s.toList.flatMap escapeChar ++ ['"'])

def numberText (x : Float) : String :=
  if x.isFinite then Decimal.scientific.text x else "null"

def newline (depth : Nat) : String := "\n" ++ String.ofList (List.replicate (2 * depth) ' ')

mutual

def pretty (depth : Nat) : Json → String
  | null => "null"
  | bool b => if b then "true" else "false"
  | natural n => Decimal.natText n
  | real x => numberText x
  | string s => quotedText s
  | array [] => "[]"
  | array (item :: items) =>
    "[" ++ newline (depth + 1) ++ pretty (depth + 1) item ++ prettyItems (depth + 1) items
      ++ newline depth ++ "]"
  | object [] => "\x7b\x7d"
  | object (member :: members) =>
    "\x7b" ++ newline (depth + 1) ++ prettyMember (depth + 1) member
      ++ prettyMembers (depth + 1) members ++ newline depth ++ "\x7d"

def prettyItems (depth : Nat) : List Json → String
  | [] => ""
  | item :: items => "," ++ newline depth ++ pretty depth item ++ prettyItems depth items

def prettyMember (depth : Nat) : String × Json → String
  | (key, value) => quotedText key ++ ": " ++ pretty depth value

def prettyMembers (depth : Nat) : List (String × Json) → String
  | [] => ""
  | member :: members =>
    "," ++ newline depth ++ prettyMember depth member ++ prettyMembers depth members

end

def text (j : Json) : String := pretty 0 j

end PagedNets.Json
