/-!
Depth-first search of a directed graph on the vertices `0 … n - 1`, in the place of a graph
library's. Of that is assumed that it begins at the vertices in ascending order, follows the edges
of a vertex from the latest on, and reports just the edges into a vertex that has been discovered
but is not finished as back edges. The unfinished vertices are exactly those on the path from the
root of the search.
-/

set_option autoImplicit false

namespace PagedNets.Layered

abbrev Pair := Nat × Nat

/-- The state of a search: the finished vertices, the latest first, and the back edges met. -/
structure Search where
  finished : List Nat := []
  back : List Pair := []
  deriving Repr, DecidableEq

/-- Visits an undiscovered vertex, at the end of `path`. The search is never deeper than there are
vertices, which is what `fuel` counts. -/
def visit (next : Nat → List Nat) : Nat → List Nat → Nat → Search → Search
  | 0, _, _, s => s
  | fuel + 1, path, v, s =>
    let s := (next v).foldl (fun s w =>
      if s.finished.contains w then s
      else if (v :: path).contains w then { s with back := (v, w) :: s.back }
      else visit next fuel (v :: path) w s) s
    { s with finished := v :: s.finished }

def search (n : Nat) (next : Nat → List Nat) : Search :=
  (List.range n).foldl (fun s v => if s.finished.contains v then s else visit next n [] v s) {}

/-- The vertices that edges lead to, the latest edge first. -/
def latestFirst (edges : List Pair) (v : Nat) : List Nat :=
  (edges.reverse.filter fun e => e.1 == v).map (·.2)

def searchEdges (n : Nat) (edges : List Pair) : Search := search n (latestFirst edges)

end PagedNets.Layered
