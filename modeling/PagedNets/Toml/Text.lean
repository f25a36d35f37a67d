import PagedNets.Text.Hex

set_option autoImplicit false

namespace PagedNets.Toml

def isBlank (c : Char) : Bool := c == ' ' || c == '\t'

def skipBlank (cs : List Char) : List Char := cs.dropWhile isBlank

def isPlain (c : Char) : Bool := c == '\t' || (0x20 ≤ c.toNat && c.toNat != 0x7F)

/-- Skips blanks, line ends and comments; `comment` says whether one is open. A control character
in a comment stays. -/
def skipGap (comment : Bool) : List Char → List Char
  | [] => []
  | '\n' :: cs => skipGap false cs
  | '\r' :: '\n' :: cs => skipGap false cs
  | c :: cs =>
    if comment then (if isPlain c then skipGap true cs else c :: cs)
    else if c == '#' then skipGap true cs
    else if isBlank c then skipGap false cs
    else c :: cs

def endLine? (cs : List Char) : Option (List Char) :=
  let r := match skipBlank cs with
    | '#' :: r => r.dropWhile isPlain
    | r => r
  match r with
  | [] => some []
  | '\n' :: rest => some rest
  | '\r' :: '\n' :: rest => some rest
  | _ => none

def takeNumbered? (k : Nat) (cs : List Char) : Option (Char × List Char) :=
  let ds := cs.take k
  let n := Text.hexValue ds
  if ds.length = k && ds.all Text.isHexDigit && (n < 0xD800 || (0xE000 ≤ n && n ≤ 0x10FFFF)) then
    some (Char.ofNat n, cs.drop k)
  else none

def takeEscape? : List Char → Option (Char × List Char)
  | 'b' :: r => some ('\x08', r)
  | 't' :: r => some ('\t', r)
  | 'n' :: r => some ('\n', r)
  | 'f' :: r => some ('\x0c', r)
  | 'r' :: r => some ('\r', r)
  | '"' :: r => some ('"', r)
  | '\\' :: r => some ('\\', r)
  | 'e' :: r => some ('\x1b', r)
  | 'x' :: r => takeNumbered? 2 r
  | 'u' :: r => takeNumbered? 4 r
  | 'U' :: r => takeNumbered? 8 r
  | _ => none

def takeBasic? : Nat → List Char → Option (List Char × List Char)
  | 0, _ => none
  | _, [] => none
  | _, '"' :: rest => some ([], rest)
  | fuel + 1, '\\' :: r =>
    (takeEscape? r).bind fun (c, r) => (takeBasic? fuel r).map fun (s, rest) => (c :: s, rest)
  | fuel + 1, c :: r =>
    if isPlain c then (takeBasic? fuel r).map fun (s, rest) => (c :: s, rest) else none

def takeLiteral? (cs : List Char) : Option (List Char × List Char) :=
  let isInner c := isPlain c && c != '\''
  match cs.dropWhile isInner with
  | '\'' :: rest => some (cs.takeWhile isInner, rest)
  | _ => none

/-- Three quotes end a string of several lines, and up to two more in front of them belong to it.
Answers those, and what follows the end. -/
def takeClosing? (quote : Char) (cs : List Char) : Option (List Char × List Char) :=
  let quotes := (cs.takeWhile (· == quote)).length
  if quotes < 3 then none
  else
    let inner := min (quotes - 3) 2
    some (List.replicate inner quote, cs.drop (inner + 3))

def dropFirstLineEnd : List Char → List Char
  | '\n' :: r => r
  | '\r' :: '\n' :: r => r
  | r => r

/-- What follows a backslash at the end of a line: the text goes on at the next character that is
neither blank nor line end. -/
def skipFold? (cs : List Char) : Option (List Char) :=
  match skipBlank cs with
  | '\n' :: r => some (skipMargin r)
  | '\r' :: '\n' :: r => some (skipMargin r)
  | _ => none
where
  skipMargin : List Char → List Char
    | '\n' :: r => skipMargin r
    | '\r' :: '\n' :: r => skipMargin r
    | c :: r => if isBlank c then skipMargin r else c :: r
    | [] => []

def takeLines? (quote : Char) : Nat → List Char → Option (List Char × List Char)
  | 0, _ => none
  | _, [] => none
  | fuel + 1, c :: r =>
    match takeClosing? quote (c :: r) with
    | some ending => some ending
    | none =>
      if quote == '"' && c == '\\' then
        match skipFold? r with
        | some r => takeLines? quote fuel r
        | none =>
          (takeEscape? r).bind fun (c, r) =>
            (takeLines? quote fuel r).map fun (s, rest) => (c :: s, rest)
      else if isPlain c || c == '\n' || (c == '\r' && r.head? == some '\n') then
        (takeLines? quote fuel r).map fun (s, rest) => (c :: s, rest)
      else none

def takeString? : List Char → Option (String × List Char)
  | '"' :: '"' :: '"' :: r =>
    (takeLines? '"' (r.length + 1) (dropFirstLineEnd r)).map fun (s, rest) =>
      (String.ofList s, rest)
  | '\'' :: '\'' :: '\'' :: r =>
    (takeLines? '\'' (r.length + 1) (dropFirstLineEnd r)).map fun (s, rest) =>
      (String.ofList s, rest)
  | '"' :: r => (takeBasic? (r.length + 1) r).map fun (s, rest) => (String.ofList s, rest)
  | '\'' :: r => (takeLiteral? r).map fun (s, rest) => (String.ofList s, rest)
  | _ => none

def isBare (c : Char) : Bool := c.isAlphanum || c == '_' || c == '-'

/-- One part of a key: a string in one line, or letters, digits, `_` and `-`. -/
def takeSimpleKey? : List Char → Option (String × List Char)
  | '"' :: r => (takeBasic? (r.length + 1) r).map fun (s, rest) => (String.ofList s, rest)
  | '\'' :: r => (takeLiteral? r).map fun (s, rest) => (String.ofList s, rest)
  | cs =>
    let name := cs.takeWhile isBare
    if name.isEmpty then none else some (String.ofList name, cs.dropWhile isBare)

def takeKeys? : Nat → List Char → Option (List String × List Char)
  | 0, _ => none
  | fuel + 1, cs =>
    (takeSimpleKey? (skipBlank cs)).bind fun (key, r) =>
      match skipBlank r with
      | '.' :: r => (takeKeys? fuel r).map fun (keys, rest) => (key :: keys, rest)
      | rest => some ([key], rest)

end PagedNets.Toml
