import PagedNets.Layered.Coordinates

/-!
Drawing a graph in layers: break cycles, rank the nodes, lead long edges through all layers, reduce
crossings, assign coordinates. A graph is changed only once all coordinates are known to be finite,
and then only in the centres of its nodes and the bend points of its edges.
-/

set_option autoImplicit false

namespace PagedNets.Layered

inductive Ranker where
  | longestPath
  deriving DecidableEq, Repr

def Ranker.name : Ranker → String
  | .longestPath => "longest-path"

def Ranker.ofName? (s : String) : Option Ranker :=
  if s = Ranker.longestPath.name then some .longestPath else none

structure Method (α : Type) where
  ranker : Ranker := .longestPath
  removeCycles : Bool
  iterations : Nat
  spacing : Spacing α
  deriving Repr

structure Summary where
  layers : Nat
  crossings : Nat
  reversedEdges : Nat
  deriving DecidableEq, Repr

variable {α : Type} [Scalar α]

def Method.ranks (m : Method α) (g : Graph α) (oriented : List Oriented) :
    Except LayeringError (List Nat) :=
  match m.ranker with
  | .longestPath => longestPathRanks g oriented

/-- The bend points of an edge, from its source to its target. An edge without a chain has none. -/
def bendPoints (chains : List Chain) (spots : Array (Spot α)) (back : List Pair) (e : Link α)
    (index : Nat) : List (Spot α) :=
  match chains.find? fun c => c.edge == index with
  | none => []
  | some chain =>
    let points := chain.inner.filterMap fun v => spots[v]?
    if e.isReversed back then points.reverse else points

def redraw (g : Graph α) (chains : List Chain) (spots : Array (Spot α)) (back : List Pair) :
    Graph α :=
  { nodes := g.nodes.zipIdx.map fun n =>
      match spots[n.2]? with
      | none => n.1
      | some spot => { n.1 with x := spot.x, y := spot.y }
    edges := g.edges.zipIdx.map fun e =>
      { e.1 with points := bendPoints chains spots back e.1 e.2 } }

/-- The first node, else the first edge, that is drawn at no finite place. -/
def Graph.nonFinite? (g : Graph α) : Option String :=
  ((g.nodes.find? fun n => !(Scalar.isFinite n.x && Scalar.isFinite n.y)).map (·.key)).or
    ((g.edges.find? fun e => !e.points.all Spot.isFinite).map (·.key))

def Method.draw (m : Method α) (g : Graph α) : Except LayeringError (Graph α × Summary) := do
  g.check
  let back ← g.backEdges m.removeCycles
  let oriented := g.orient back
  let ranks ← m.ranks g oriented
  let l := layering g ranks oriented
  let (layers, crossed) := orderLayers α l.above l.below m.iterations l.layers
  let drawn := redraw g l.chains (centres l.vertices m.spacing layers) back
  match drawn.nonFinite? with
  | some key => .error (.nonFinite key)
  | none =>
    .ok (drawn, {
      layers := l.layerCount
      crossings := crossed
      reversedEdges := (g.edges.filter (·.isReversed back)).length })

end PagedNets.Layered
