import PagedNets.Xml.Character
import PagedNets.Text.Hex

/-!
Writing a text so that it stands for itself in a document, and reading it back. `escape` replaces
the characters that markup or the normalisation of white space would change; `attributeValue?` and
`characterData?` undo it in the two places where text occurs.
-/

set_option autoImplicit false

namespace PagedNets.Xml

def escapeChar (c : Char) : List Char :=
  if c == '&' then "&amp;".toList
  else if c == '<' then "&lt;".toList
  else if c == '>' then "&gt;".toList
  else if c == '"' then "&quot;".toList
  else if c == '\'' then "&apos;".toList
  else if c == '\n' then "&#10;".toList
  else if c == '\t' then "&#9;".toList
  else if c == '\r' then "&#13;".toList
  else [c]

def escapeChars (cs : List Char) : List Char := cs.flatMap escapeChar

def escape (s : String) : String := String.ofList (escapeChars s.toList)

def namedEntity? (name : List Char) : Option Char :=
  if name = "quot".toList then some '"'
  else if name = "amp".toList then some '&'
  else if name = "apos".toList then some '\''
  else if name = "lt".toList then some '<'
  else if name = "gt".toList then some '>'
  else none

/-- The character with a number. A number that is no code point stands for the replacement
character; one of a character that XML does not allow stands for nothing. -/
def numbered? (n : Nat) : Option Char :=
  if 0x100000000 ≤ n then none
  else
    let c := if n < 0xD800 || (0xE000 ≤ n && n ≤ 0x10FFFF) then Char.ofNat n else '\uFFFD'
    if isXmlChar c then some c else none

def takeReference? (cs : List Char) : Option (Char × List Char) :=
  let (c, rest) :=
    match cs with
    | '#' :: 'x' :: r =>
      let ds := r.takeWhile Text.isHexDigit
      (if ds.isEmpty then none else numbered? (Text.hexValue ds), r.dropWhile Text.isHexDigit)
    | '#' :: r =>
      let ds := r.takeWhile Decimal.isDigit
      (if ds.isEmpty then none else numbered? (Decimal.value ds), r.dropWhile Decimal.isDigit)
    | r => (namedEntity? (r.takeWhile isNameChar), r.dropWhile isNameChar)
  match c, rest with
  | some c, ';' :: r => some (c, r)
  | _, _ => none

/-- A character of the content of a document: as it stands there, or by a reference. -/
inductive Piece where
  | raw (c : Char)
  | reference (c : Char)
  deriving DecidableEq, Repr

def piecesWithin : Nat → List Char → Option (List Piece)
  | _, [] => some []
  | 0, _ => none
  | fuel + 1, '&' :: cs =>
    (takeReference? cs).bind fun (c, rest) =>
      (piecesWithin fuel rest).map (Piece.reference c :: ·)
  | fuel + 1, c :: cs => (piecesWithin fuel cs).map (Piece.raw c :: ·)

def pieces? (cs : List Char) : Option (List Piece) := piecesWithin cs.length cs

/-- Line ends and tabs of an attribute become one blank each, unless they are references. -/
def flatten : List Piece → List Char
  | [] => []
  | .reference c :: ps => c :: flatten ps
  | .raw '\r' :: .raw '\n' :: ps => ' ' :: flatten ps
  | .raw c :: ps => (if c == '\n' || c == '\r' || c == '\t' then ' ' else c) :: flatten ps

def attributeValue? (cs : List Char) : Option String :=
  (pieces? cs).map fun ps => String.ofList (flatten ps)

/-- Line ends of character data become line feeds. A carriage return waits (`pending`) for what
follows it: it is a line end, alone or with a line feed, unless a reference follows. Directly after
a reference (`exact`) a character is taken as it is. -/
def joinLines (pending exact : Bool) : List Piece → List Char
  | [] => if pending then ['\r'] else []
  | .reference c :: ps =>
    let before := if pending then ['\r'] else []
    if c == '\r' then before ++ joinLines true true ps
    else before ++ c :: joinLines false true ps
  | .raw c :: ps =>
    if exact then
      let before := if pending then ['\r'] else []
      if c == '\r' then before ++ joinLines true false ps
      else before ++ c :: joinLines false false ps
    else
      let before := if pending then ['\n'] else []
      if c == '\r' then
        if ps.isEmpty then before ++ ['\n'] else before ++ joinLines true false ps
      else if c == '\n' && pending then before ++ joinLines false false ps
      else before ++ c :: joinLines false false ps

def characterData? (cs : List Char) : Option String :=
  (pieces? cs).map fun ps => String.ofList (joinLines false false ps)

def verbatim (cs : List Char) : String :=
  String.ofList (joinLines false false (cs.map .raw))

end PagedNets.Xml
