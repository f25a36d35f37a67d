import PagedNets.Document.Forest
import PagedNets.Decimal.Digits
import PagedNets.Text.Quoted

set_option autoImplicit false

namespace PagedNets.Dot

structure Settings where
  rankdir : String := "LR"
  /-- Show the identifier behind a name. -/
  showIds : Bool := false
  deriving Repr, DecidableEq

def quote (s : String) : String := "\"" ++ Text.escapeLabel s ++ "\""

def line (depth : Nat) (text : String) : String :=
  String.ofList (List.replicate (4 * depth) ' ') ++ text ++ "\n"

def displayName (settings : Settings) (name : Option String) (id : ObjectId) : String :=
  match name.filter (!·.isEmpty) with
  | none => id.text
  | some text => if settings.showIds then text ++ " (" ++ id.text ++ ")" else text

def nodeLine (depth : Nat) (id : ObjectId) (label shape fill : String) : String :=
  line depth (quote id.text ++ " [label=" ++ quote label ++ ", shape=" ++ shape
    ++ ", style=filled, fillcolor=\"" ++ fill ++ "\"];")

def placeLine (settings : Settings) (depth : Nat) (p : Place) : String :=
  let name := displayName settings p.name p.id
  let label := if p.tokens = 0 then name else name ++ "\n" ++ Decimal.natText p.tokens.toNat
  nodeLine depth p.id label "circle" "#e3f2fd"

def transitionLine (settings : Settings) (depth : Nat) (t : Transition) : String :=
  nodeLine depth t.id (displayName settings t.name t.id) "box" "#ffe0b2"

/-- Only places and transitions are drawn as nodes. -/
def objectLine (settings : Settings) (depth : Nat) : Object → String
  | .place p => placeLine settings depth p
  | .transition t => transitionLine settings depth t
  | _ => ""

def arcLine (depth : Nat) (a : Arc) : String :=
  let ends := quote a.source.text ++ " -> " ++ quote a.target.text
  match a.kind with
  | .normal => line depth (ends ++ ";")
  | .read => line depth (ends ++ " [dir=both];")

/-- The name of a container as it stands, even if it is empty, else its identifier. -/
def title (name : Option String) (id : ObjectId) : String := name.getD id.text

def pageLines (d : Document) (settings : Settings) (depth : Nat) (page : Page) : String :=
  line (depth + 1) ("label=" ++ quote (title page.name page.id) ++ ";")
    ++ String.join (page.nodes.keys.map fun key =>
      ((d.object? key).map (objectLine settings (depth + 1))).getD "")
    ++ String.join (page.arcs.keys.map fun key =>
      ((d.arc? key).map (arcLine (depth + 1))).getD "")

mutual

def cluster (d : Document) (settings : Settings) (depth : Nat) : PageTree → String
  | .page _ page nested =>
    line depth ("subgraph " ++ quote ("cluster_" ++ page.id.text) ++ " \x7b")
      ++ pageLines d settings depth page ++ clusters d settings (depth + 1) nested
      ++ line depth "\x7d"
  | .missing _ => ""

def clusters (d : Document) (settings : Settings) (depth : Nat) : List PageTree → String
  | [] => ""
  | tree :: trees => cluster d settings depth tree ++ clusters d settings depth trees

end

def graph (d : Document) (settings : Settings) (name : String) (pages : List ObjectId) : String :=
  line 0 ("digraph " ++ quote name ++ " \x7b") ++ line 1 ("rankdir=" ++ settings.rankdir ++ ";")
    ++ line 1 "node [fontname=\"Helvetica\"];" ++ clusters d settings 1 (d.forest pages)
    ++ line 0 "\x7d"

def render (d : Document) (scope : ObjectId) (settings : Settings) : Except NetError String :=
  match d.object? scope with
  | some (.net n) => .ok (graph d settings (title n.name n.id) n.pages)
  | some (.page p) => .ok (graph d settings (title p.name p.id) [p.id])
  | some other => .error (.notAContainer other.id)
  | none => .error (.unknownObject scope)

end PagedNets.Dot
