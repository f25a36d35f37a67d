import PagedNets.Layered.Graph
import PagedNets.Layered.Search

/-!
Layers of nodes. Cycles are broken by turning round the back edges of a search; then the rank of a
node is the length of the longest path that ends at it. `topologicalOrder` is in the place of the
sort of a graph library, of which is assumed that it fails on cycles only and else answers with a
topological order. That need not be the one found here: ranks come out the same along any of them.
-/

set_option autoImplicit false

namespace PagedNets.Layered

variable {α : Type}

def Graph.pairs (g : Graph α) : List Pair :=
  (g.edges.filter fun e => e.source != e.target).map fun e => (e.source, e.target)

def leastTarget (back : List Pair) : Nat := (back.map (·.2)).min?.getD 0

/-- The edges to be turned round, by their ends. None are if there is no cycle, and if there is one
that may not be broken, it is an error. -/
def Graph.backEdges (g : Graph α) (removeCycles : Bool) : Except LayeringError (List Pair) :=
  let back := (searchEdges g.nodes.length g.pairs).back
  if back.isEmpty || removeCycles then .ok back
  else .error (.cyclic (g.keyOf (leastTarget back)))

def Link.isReversed (back : List Pair) (e : Link α) : Bool := back.contains (e.source, e.target)

/-- An edge in the direction in which it is drawn: downwards. -/
structure Oriented where
  source : Nat
  target : Nat
  edge : Nat
  deriving DecidableEq, Repr

def Graph.orient (g : Graph α) (back : List Pair) : List Oriented :=
  (g.edges.zipIdx.filter fun e => e.1.source != e.1.target).map fun e =>
    if e.1.isReversed back then { source := e.1.target, target := e.1.source, edge := e.2 }
    else { source := e.1.source, target := e.1.target, edge := e.2 }

/-- Each vertex after all that edges come from; a vertex on a cycle if there is no such order. A
library's order may be another one. -/
def topologicalOrder (n : Nat) (edges : List Pair) : Except Nat (List Nat) :=
  let s := searchEdges n edges
  if s.back.isEmpty then .ok s.finished else .error (leastTarget s.back)

def raise (ranks : List Nat) (v rank : Nat) : List Nat := ranks.set v (max (ranks.getD v 0) rank)

def ranksAlong (edges : List Pair) (n : Nat) (order : List Nat) : List Nat :=
  order.foldl (fun ranks v =>
    (edges.filter fun e => e.1 == v).foldl
      (fun ranks e => raise ranks e.2 (ranks.getD v 0 + 1)) ranks)
    (List.replicate n 0)

def longestPathRanks (g : Graph α) (oriented : List Oriented) :
    Except LayeringError (List Nat) :=
  let n := g.nodes.length
  let edges := oriented.map fun e => (e.source, e.target)
  match topologicalOrder n edges with
  | .error v => .error (.cyclic (g.keyOf v))
  | .ok order => .ok (ranksAlong edges n order)

end PagedNets.Layered
