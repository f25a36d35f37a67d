import PagedNets.Document.Forest
import PagedNets.Decimal.Style
import PagedNets.Xml.Markup

set_option autoImplicit false

namespace PagedNets.Pnml

open Xml (Inline Markup)

def pnmlNamespace : String := "http://www.pnml.org/version-2009/grammar/pnml"

/-- Coordinates have no exponent. -/
def coordinateText (x : Float) : String := Decimal.plain.text x

def pointElement (tag : String) (p : Point) : Inline :=
  .empty tag [("x", coordinateText p.x), ("y", coordinateText p.y)]

/-- The empty name is not written. -/
def nameMarkup (name : Option String) : List Markup :=
  match name.filter (!·.isEmpty) with
  | none => []
  | some text => [.line (.element "name" [] [.element "text" [] [.text text]])]

def graphicsMarkup (node : NodeData) : Markup :=
  .block "graphics" []
    [.line (pointElement "position" node.position), .line (pointElement "dimension" node.size)]

/-- A marking without tokens is not written, nor is its offset. -/
def markingMarkup (p : Place) : List Markup :=
  if p.tokens = 0 then []
  else
    [.block "initialMarking" []
      [.line (.element "text" [] [.text (Decimal.natText p.tokens.toNat)]),
        .line (.element "graphics" [] [pointElement "offset" p.markingOffset])]]

def nodeMarkup (tag aliasTag : String) (id : ObjectId) (node : NodeData) (parts : List Markup) :
    Markup :=
  match node.reference with
  | none => .block tag [("id", id.text)] parts
  | some referent => .block aliasTag [("id", id.text), ("ref", referent.text)] parts

def placeMarkup (p : Place) : Markup :=
  nodeMarkup "place" "referencePlace" p.id p.node
    (nameMarkup p.name ++ graphicsMarkup p.node :: markingMarkup p)

def transitionMarkup (t : Transition) : Markup :=
  nodeMarkup "transition" "referenceTransition" t.id t.node
    (nameMarkup t.name ++ [graphicsMarkup t.node])

def curveMarkup (curve : List Point) : List Markup :=
  if curve.isEmpty then []
  else [.block "graphics" [] (curve.map fun p => .line (pointElement "position" p))]

def kindMarkup : ArcKind → List Markup
  | .normal => []
  | .read => [.line (.empty "type" [("value", "read")])]

def arcMarkup (a : Arc) : Markup :=
  .block "arc" [("id", a.id.text), ("source", a.source.text), ("target", a.target.text)]
    (nameMarkup a.name ++ curveMarkup a.curve ++ kindMarkup a.kind)

def nodeElement? : Object → Option Markup
  | .place p => some (placeMarkup p)
  | .transition t => some (transitionMarkup t)
  | _ => none

def nodesMarkup (d : Document) (page : Page) : List Markup :=
  page.nodes.keys.filterMap fun key => (d.object? key).bind nodeElement?

def arcsMarkup (d : Document) (page : Page) : List Markup :=
  page.arcs.keys.filterMap fun key => (d.arc? key).map arcMarkup

mutual

def pageMarkup (d : Document) : PageTree → List Markup
  | .page _ page nested =>
    [.block "page" [("id", page.id.text)]
      (nameMarkup page.name ++ nodesMarkup d page ++ arcsMarkup d page ++ pagesMarkup d nested)]
  | .missing _ => []

def pagesMarkup (d : Document) : List PageTree → List Markup
  | [] => []
  | tree :: trees => pageMarkup d tree ++ pagesMarkup d trees

end

def netMarkup (d : Document) (n : Net) : Markup :=
  .block "net" [("id", n.id.text), ("type", n.format.uri)]
    (nameMarkup n.name ++ pagesMarkup d (d.forest n.pages))

def markup (d : Document) : Markup :=
  .block "pnml" [("xmlns", pnmlNamespace)] (d.nets.map (netMarkup d))

def write (d : Document) : String := Xml.renderDocument (markup d)

end PagedNets.Pnml
