import PagedNets.Document.Event
import PagedNets.Document.Forest
import PagedNets.Layout.Settings

set_option autoImplicit false

namespace PagedNets.Layout

open Layered (Graph Box Link Spot Summary)

/-- A page as a graph, with the identifiers of the nodes and arcs that its boxes and links
stand for. -/
structure Exported where
  graph : Graph Float
  nodes : List ObjectId
  arcs : List ObjectId

/-- The size of a node, or that of the settings if one of its sides is not positive. -/
def boxSize (settings : Settings) (node : NodeData) : Point :=
  if node.size.x > 0 && node.size.y > 0 then node.size
  else { x := settings.nodeSize, y := settings.nodeSize }

def boxOf (settings : Settings) (id : ObjectId) (node : NodeData) : Box Float :=
  let size := boxSize settings node
  { key := id.text, width := size.x, height := size.y, x := node.position.x, y := node.position.y }

def nodesOn (d : Document) (page : Page) : List (ObjectId × Nat × NodeData) :=
  page.nodes.entries.filterMap fun e => (d.node? e.1).map fun node => (e.1, e.2, node)

def curveOf (d : Document) (arc : ObjectId) : List (Spot Float) :=
  match d.arc? arc with
  | none => []
  | some a => a.curve.map fun p => { x := p.x, y := p.y }

def linkOf? (d : Document) (page : Page) (vertices : List Nat) (arc : ObjectId) :
    Option (Link Float) := do
  let edge ← page.edge? arc
  let source ← vertices.idxOf? edge.source
  let target ← vertices.idxOf? edge.target
  some { key := arc.text, source := source, target := target, points := curveOf d arc }

def exportPage (d : Document) (page : Page) (settings : Settings) : Exported :=
  let nodes := nodesOn d page
  let vertices := nodes.map (·.2.1)
  let links := page.arcs.keys.filterMap fun arc =>
    (linkOf? d page vertices arc).map fun link => (arc, link)
  { graph := { nodes := nodes.map fun n => boxOf settings n.1 n.2.2, edges := links.map (·.2) }
    nodes := nodes.map (·.1)
    arcs := links.map (·.1) }

def writeBoxes (d : Document) : List (ObjectId × Box Float) → Except NetError Document
  | [] => .ok d
  | (id, box) :: rest => do
    let next ← d.setGeometry id { x := box.x, y := box.y } { x := box.width, y := box.height }
    writeBoxes next rest

def writeCurves (d : Document) (links : List (ObjectId × Link Float)) : Document :=
  links.foldl (fun d l => d.setCurve l.1 (l.2.points.map fun p => { x := p.x, y := p.y })) d

def pageAt (d : Document) (key : ObjectId) : Except NetError Page :=
  match d.object? key with
  | some (.page p) => .ok p
  | some other => .error (.notAContainer other.id)
  | none => .error (.unknownObject key)

def drawExported (settings : Settings) (page : Page) (exported : Exported) :
    Except NetError (Graph Float × Summary) :=
  match settings.method.draw exported.graph with
  | .ok drawn => .ok drawn
  | .error cause => .error (.layout page.id cause)

structure LaidOut where
  document : Document
  summary : Summary
  event : Event

def layoutPage (d : Document) (key : ObjectId) (settings : Settings) :
    Except NetError LaidOut := do
  let page ← pageAt d key
  let exported := exportPage d page settings
  let (drawn, summary) ← drawExported settings page exported
  let moved ← writeBoxes d (exported.nodes.zip drawn.nodes)
  .ok {
    document := writeCurves moved (exported.arcs.zip drawn.edges)
    summary := summary
    event := .laidOut page.id exported.nodes.length exported.arcs.length summary.layers
      summary.crossings }

/-- What laying out several pages leaves behind: the pages before a failure stay laid out. -/
structure Outcome where
  document : Document
  events : List Event := []
  result : Except NetError (List (ObjectId × Summary))

def layoutPages (d : Document) (settings : Settings) : List ObjectId → Outcome
  | [] => { document := d, result := .ok [] }
  | key :: rest =>
    match layoutPage d key settings with
    | .error cause => { document := d, result := .error cause }
    | .ok done =>
      let later := layoutPages done.document settings rest
      { later with
        events := done.event :: later.events
        result := later.result.map ((key, done.summary) :: ·) }

/-- Lays out every page of a net, each before those nested in it. -/
def layoutNet (d : Document) (key : ObjectId) (settings : Settings) : Outcome :=
  match d.object? key with
  | some (.net n) => layoutPages d settings (PageTree.keysOf (d.forest n.pages))
  | some other => { document := d, result := .error (.notAContainer other.id) }
  | none => { document := d, result := .error (.unknownObject key) }

end PagedNets.Layout
