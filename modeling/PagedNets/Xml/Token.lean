import PagedNets.Xml.Reference

/-!
The lexical grammar of XML: a document as a sequence of tags, stretches of text, sections, comments
and instructions. Tokens keep their text as it was written; references are resolved later.
-/

set_option autoImplicit false

namespace PagedNets.Xml

structure QName where
  qualifier : String
  label : String
  deriving DecidableEq, Repr

inductive Token where
  | openTag (name : QName) (attributes : List (QName × List Char)) (selfClosed : Bool)
  | closeTag (name : QName)
  | text (raw : List Char)
  /-- A stretch of text without references, between `<![CDATA[` and `]]>`. -/
  | cdata (raw : List Char)
  | aside
  deriving DecidableEq, Repr

def breakOn? (mark : List Char) : List Char → Option (List Char × List Char)
  | [] => none
  | c :: cs =>
    if mark.isPrefixOf (c :: cs) then some ([], (c :: cs).drop mark.length)
    else (breakOn? mark cs).map fun (before, after) => (c :: before, after)

def occurs (mark cs : List Char) : Bool := (breakOn? mark cs).isSome

def skipSpaces (cs : List Char) : List Char := cs.dropWhile isSpace

def takeName? (cs : List Char) : Option (List Char × List Char) :=
  match cs with
  | [] => none
  | c :: _ =>
    if isNameStart c then some (cs.takeWhile isNameChar, cs.dropWhile isNameChar) else none

def startsName (cs : List Char) : Bool :=
  match cs with
  | [] => false
  | c :: _ => isNameStart c

/-- A name with at most one colon, with a letter at the start of both of its parts; the qualifier
may be empty. -/
def takeQName? (cs : List Char) : Option (QName × List Char) :=
  let name := cs.takeWhile isNameChar
  let rest := cs.dropWhile isNameChar
  let head := name.takeWhile (· != ':')
  match name.dropWhile (· != ':') with
  | [] => if startsName head then some (⟨"", String.ofList head⟩, rest) else none
  | _ :: label =>
    if (head.isEmpty || startsName head) && startsName label && !label.contains ':' then
      some (⟨String.ofList head, String.ofList label⟩, rest)
    else none

def takeQuoted? : List Char → Option (List Char × List Char)
  | [] => none
  | quote :: cs =>
    if quote == '"' || quote == '\'' then
      let value := cs.takeWhile fun c => c != quote && c != '<'
      match cs.dropWhile fun c => c != quote && c != '<' with
      | c :: rest => if c == quote then some (value, rest) else none
      | [] => none
    else none

def takeAttribute? (cs : List Char) : Option ((QName × List Char) × List Char) :=
  (takeQName? cs).bind fun (name, rest) =>
    match skipSpaces rest with
    | '=' :: r => (takeQuoted? (skipSpaces r)).map fun (value, rest) => ((name, value), rest)
    | _ => none

/-- The attributes of a tag up to its end: are there, is it closed at once, what follows. -/
def takeAttributes? : Nat → List Char → Option (List (QName × List Char) × Bool × List Char)
  | 0, _ => none
  | fuel + 1, cs =>
    match skipSpaces cs with
    | '/' :: '>' :: rest => some ([], true, rest)
    | '>' :: rest => some ([], false, rest)
    | r =>
      if (cs.head?.map isSpace).getD false then
        (takeAttribute? r).bind fun (first, rest) =>
          (takeAttributes? fuel rest).map fun (others, selfClosed, rest) =>
            (first :: others, selfClosed, rest)
      else none

def validComment (cs : List Char) : Bool :=
  !occurs ['-', '-'] cs && cs.getLast? != some '-'

def takeToken? (cs : List Char) : Option (Token × List Char) :=
  match cs with
  | '<' :: '!' :: '-' :: '-' :: r =>
    (breakOn? "-->".toList r).bind fun (comment, rest) =>
      if validComment comment then some (.aside, rest) else none
  | '<' :: '!' :: r =>
    if "[CDATA[".toList.isPrefixOf r then
      (breakOn? "]]>".toList (r.drop 7)).map fun (raw, rest) => (.cdata raw, rest)
    else none
  | '<' :: '?' :: r =>
    if "xml ".toList.isPrefixOf r then none
    else (takeName? r).bind fun (_, r) =>
      (breakOn? "?>".toList (skipSpaces r)).map fun (_, rest) => (.aside, rest)
  | '<' :: '/' :: r =>
    (takeQName? r).bind fun (name, r) =>
      match skipSpaces r with
      | '>' :: rest => some (.closeTag name, rest)
      | _ => none
  | '<' :: r =>
    (takeQName? r).bind fun (name, r) =>
      (takeAttributes? (r.length + 1) r).map fun (attributes, selfClosed, rest) =>
        (.openTag name attributes selfClosed, rest)
  | r =>
    let raw := r.takeWhile (· != '<')
    if occurs "]]>".toList raw then none else some (.text raw, r.dropWhile (· != '<'))

def tokensWithin : Nat → List Char → Option (List Token)
  | _, [] => some []
  | 0, _ => none
  | fuel + 1, cs =>
    (takeToken? cs).bind fun (token, rest) => (tokensWithin fuel rest).map (token :: ·)

def skipPseudoAttribute? (name : String) (cs : List Char) : Option (List Char) :=
  if name.toList.isPrefixOf cs then (takeAttribute? cs).map (·.2) else some cs

/-- Space between the parts of the declaration; it may be missing at the end. -/
def skipSeparator? (cs : List Char) : Option (List Char) :=
  if (cs.head?.map isSpace).getD true || "?>".toList.isPrefixOf cs then some (skipSpaces cs)
  else none

/-- What follows the declaration. It begins with a version; an encoding and a remark on external
markup may follow. The values are not looked at. -/
def skipDeclaration? (cs : List Char) : Option (List Char) := do
  let r := skipSpaces cs
  if "version".toList.isPrefixOf r then
    let r ← skipPseudoAttribute? "version" r
    let r ← skipSeparator? r
    let r ← if "encoding".toList.isPrefixOf r then
        (skipPseudoAttribute? "encoding" r).bind skipSeparator?
      else some r
    let r ← skipPseudoAttribute? "standalone" r
    let r := skipSpaces r
    if "?>".toList.isPrefixOf r then some (r.drop 2) else none
  else none

def skipProlog? (cs : List Char) : Option (List Char) :=
  let r := match cs with
    | '\uFEFF' :: r => r
    | r => r
  if "<?xml ".toList.isPrefixOf r then skipDeclaration? (r.drop 6) else some r

def tokens? (cs : List Char) : Option (List Token) :=
  if cs.all isXmlChar then
    (skipProlog? cs).bind fun body => tokensWithin body.length body
  else none

end PagedNets.Xml
