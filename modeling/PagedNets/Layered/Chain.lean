import PagedNets.Layered.Rank

set_option autoImplicit false

namespace PagedNets.Layered

variable {α : Type}

/-- The way of an edge from its upper to its lower end; `inner` are the vertices added for it. -/
structure Chain where
  edge : Nat
  source : Nat
  inner : List Nat
  target : Nat
  deriving DecidableEq, Repr

def Chain.stops (c : Chain) : List Nat := c.source :: c.inner ++ [c.target]

def Chain.segments (c : Chain) : List Pair := c.stops.zip (c.inner ++ [c.target])

def Oriented.gap (ranks : List Nat) (e : Oriented) : Nat :=
  ranks.getD e.target 0 - (ranks.getD e.source 0 + 1)

/-- Chains with new vertices numbered from `next` on. -/
def chainsFrom (ranks : List Nat) : Nat → List Oriented → List Chain
  | _, [] => []
  | next, e :: es =>
    { edge := e.edge, source := e.source, inner := List.range' next (e.gap ranks),
      target := e.target } :: chainsFrom ranks (next + e.gap ranks) es

/-- A node or an inner vertex of a chain. An inner vertex takes no width and has no height. -/
structure Vertex (α : Type) where
  rank : Nat
  width : α
  height : Option α
  deriving Repr

/-- A graph in which all edges join adjacent layers. Vertex `i` is node `i` of the drawn graph; the
inner vertices of chains follow. -/
structure Layering (α : Type) where
  vertices : Array (Vertex α)
  chains : List Chain

variable [Scalar α]

def nodeVertices (g : Graph α) (ranks : List Nat) : List (Vertex α) :=
  g.nodes.zipIdx.map fun n =>
    { rank := ranks.getD n.2 0, width := n.1.width, height := some n.1.height }

def innerVertices (ranks : List Nat) (e : Oriented) : List (Vertex α) :=
  (List.range' (ranks.getD e.source 0 + 1) (e.gap ranks)).map fun rank =>
    { rank := rank, width := Scalar.ofNat 0, height := none }

def layering (g : Graph α) (ranks : List Nat) (oriented : List Oriented) : Layering α :=
  { vertices := (nodeVertices g ranks ++ oriented.flatMap (innerVertices ranks)).toArray
    chains := chainsFrom ranks g.nodes.length oriented }

namespace Layering

omit [Scalar α]

def segments (l : Layering α) : List Pair := l.chains.flatMap Chain.segments

def layerCount (l : Layering α) : Nat :=
  (l.vertices.toList.map (·.rank + 1)).foldl max 0

def layers (l : Layering α) : List (List Nat) :=
  let numbered := l.vertices.toList.zipIdx
  (List.range l.layerCount).map fun rank =>
    (numbered.filter fun v => v.1.rank == rank).map (·.2)

end Layering

/-- For each of `n` vertices the second ends of the pairs that begin at it. -/
def neighbourTable (n : Nat) (pairs : List Pair) : Array (List Nat) :=
  pairs.foldl (fun t p => t.modify p.1 (· ++ [p.2])) (Array.replicate n [])

def Layering.below (l : Layering α) : Array (List Nat) :=
  neighbourTable l.vertices.size l.segments

def Layering.above (l : Layering α) : Array (List Nat) :=
  neighbourTable l.vertices.size (l.segments.map Prod.swap)

end PagedNets.Layered
