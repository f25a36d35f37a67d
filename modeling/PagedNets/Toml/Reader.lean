import PagedNets.Toml.Number
import PagedNets.Toml.Text

set_option autoImplicit false

namespace PagedNets.Toml

/-- The deepest nesting of arrays and braces, and the most parts of a key. -/
def maxDepth : Nat := 80

def takePath? (cs : List Char) : Option (Path × List Char) :=
  (takeKeys? (cs.length + 1) cs).bind fun (keys, rest) =>
    if maxDepth < keys.length then none
    else keys.getLast?.map fun key => ({ parents := keys.dropLast, key := key }, rest)

mutual

/-- A value in front of the text; `depth` is how many more brackets may open. -/
def takeValue? : Nat → Nat → List Char → Option (Value × List Char)
  | 0, _, _ => none
  | fuel + 1, depth, cs =>
    match cs, depth with
    | '[' :: _, 0 => none
    | '\x7b' :: _, 0 => none
    | '[' :: r, depth + 1 =>
      (takeItems? fuel depth r).map fun (items, rest) => (.array items, rest)
    | '\x7b' :: r, depth + 1 =>
      (takeMembers? fuel depth [] r).map fun (es, rest) => (.table .inline es, rest)
    | cs, _ =>
      if cs.head? == some '"' || cs.head? == some '\'' then
        (takeString? cs).map fun (s, rest) => (.scalar (.string s), rest)
      else (takeScalar? cs).map fun (s, rest) => (.scalar s, rest)

def takeItems? : Nat → Nat → List Char → Option (List Value × List Char)
  | 0, _, _ => none
  | fuel + 1, depth, cs =>
    match skipGap false cs with
    | ']' :: rest => some ([], rest)
    | r =>
      (takeValue? fuel depth r).bind fun (item, r) =>
        match skipGap false r with
        | ']' :: rest => some ([item], rest)
        | ',' :: r => (takeItems? fuel depth r).map fun (items, rest) => (item :: items, rest)
        | _ => none

/-- Keys with values up to the closing brace, over as many lines as it takes; a comma may follow
the last. Only a key with its dots stays in one line. -/
def takeMembers? : Nat → Nat → Entries → List Char → Option (Entries × List Char)
  | 0, _, _, _ => none
  | fuel + 1, depth, es, cs =>
    match skipGap false cs with
    | '\x7d' :: rest => some (es, rest)
    | r =>
      (takePath? r).bind fun (path, r) =>
        match skipGap false r with
        | '=' :: r =>
          (takeValue? fuel depth (skipGap false r)).bind fun (v, r) =>
            (es.addAt? path v).bind fun es =>
              match skipGap false r with
              | '\x7d' :: rest => some (es, rest)
              | ',' :: r => takeMembers? fuel depth es r
              | _ => none
        | _ => none

end

/-- What has been read: all tables, and the header of the one that takes the next keys. -/
structure Draft where
  root : Entries := []
  header : List String := []

/-- A header of a table of its own (one bracket) or of one more table of a series (two). -/
def Draft.takeHeader? (draft : Draft) (cs : List Char) : Option (Draft × List Char) :=
  match cs with
  | '[' :: r =>
    (takePath? r).bind fun (path, r) =>
      match r with
      | ']' :: ']' :: r =>
        (draft.root.openNext? path).bind fun root =>
          (endLine? r).map fun rest => (⟨root, path.parents ++ [path.key]⟩, rest)
      | _ => none
  | r =>
    (takePath? r).bind fun (path, r) =>
      match r with
      | ']' :: r =>
        (draft.root.openTable? path).bind fun root =>
          (endLine? r).map fun rest => (⟨root, path.parents ++ [path.key]⟩, rest)
      | _ => none

def Draft.takeEntry? (draft : Draft) (cs : List Char) : Option (Draft × List Char) :=
  (takePath? cs).bind fun (path, r) =>
    match r with
    | '=' :: r =>
      (takeValue? (2 * r.length + 2) maxDepth (skipBlank r)).bind fun (v, r) =>
        (draft.root.addUnder? draft.header path v).bind fun root =>
          (endLine? r).map fun rest => ({ draft with root := root }, rest)
    | _ => none

def Draft.complete? : Nat → Draft → List Char → Option Entries
  | fuel, draft, cs =>
    match fuel, skipGap false cs with
    | _, [] => some draft.root
    | 0, _ => none
    | fuel + 1, '[' :: r =>
      (draft.takeHeader? r).bind fun (draft, rest) => complete? fuel draft rest
    | fuel + 1, r =>
      (draft.takeEntry? r).bind fun (draft, rest) => complete? fuel draft rest

/-- The tables of a settings text; a byte order mark may stand in front. -/
def parse? (s : String) : Option Entries :=
  let cs := match s.toList with
    | '\uFEFF' :: cs => cs
    | cs => cs
  Draft.complete? cs.length {} cs

end PagedNets.Toml
