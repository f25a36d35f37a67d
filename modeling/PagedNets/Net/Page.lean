import PagedNets.Table
import PagedNets.Net.Element

/-!
Pages: containers of nodes, arcs and nested pages, each with a scope of names of its own. Which
nodes its arcs join is kept in a directed graph of numbered vertices and edges, which is in the
place of a graph library's; the tables `nodes` and `arcs` give the numbers. Vertices and edges are
never removed.
-/

set_option autoImplicit false

namespace PagedNets

structure Edge where
  arc : ObjectId
  source : Nat
  target : Nat
  deriving DecidableEq, Repr

/-- A directed graph; vertices and edges are numbered in the order in which they were added. -/
structure Adjacency where
  vertices : List ObjectId := []
  edges : List Edge := []
  deriving DecidableEq, Repr, Inhabited

namespace Adjacency

def addVertex (g : Adjacency) (i : ObjectId) : Adjacency := { g with vertices := g.vertices ++ [i] }

def addEdge (g : Adjacency) (e : Edge) : Adjacency := { g with edges := g.edges ++ [e] }

/-- The edge from one vertex to another, the latest if there are several. -/
def findEdge? (g : Adjacency) (source target : Nat) : Option Edge :=
  g.edges.reverse.find? fun e => e.source == source && e.target == target

/-- Where the edges that leave a vertex lead to, the latest edge first. -/
def targets (g : Adjacency) (v : Nat) : List Nat :=
  (g.edges.reverse.filter fun e => e.source == v).map (·.target)

def sources (g : Adjacency) (v : Nat) : List Nat :=
  (g.edges.reverse.filter fun e => e.target == v).map (·.source)

end Adjacency

structure Page where
  id : ObjectId
  name : Option String := none
  owner : Option Owner := none
  names : Table String ObjectId := .empty
  nodes : Table ObjectId Nat := .empty
  arcs : Table ObjectId Nat := .empty
  pages : List ObjectId := []
  graph : Adjacency := {}
  deriving Repr

def insertKey (keys : List ObjectId) (i : ObjectId) : List ObjectId :=
  if keys.contains i then keys else keys ++ [i]

def enterName (names : Table String ObjectId) (name : Option String) (i : ObjectId) :
    Table String ObjectId :=
  match name with
  | none => names
  | some n => names.insert n i

namespace Page

def vertex? (p : Page) (node : ObjectId) : Option Nat := p.nodes.find? node

def edge? (p : Page) (arc : ObjectId) : Option Edge :=
  (p.arcs.find? arc).bind fun k => p.graph.edges[k]?

/-- The nodes that arcs lead to from a node, one entry for each arc, the latest first. -/
def successors (p : Page) (node : ObjectId) : List ObjectId :=
  match p.vertex? node with
  | none => []
  | some v => (p.graph.targets v).filterMap fun w => p.graph.vertices[w]?

def predecessors (p : Page) (node : ObjectId) : List ObjectId :=
  match p.vertex? node with
  | none => []
  | some v => (p.graph.sources v).filterMap fun w => p.graph.vertices[w]?

def arcBetween? (p : Page) (source target : ObjectId) : Option ObjectId := do
  let v ← p.vertex? source
  let w ← p.vertex? target
  (p.graph.findEdge? v w).map (·.arc)

def insertNode (p : Page) (i : ObjectId) (name : Option String) : Page :=
  { p with
    names := enterName p.names name i
    nodes := p.nodes.insert i p.graph.vertices.length
    graph := p.graph.addVertex i }

def insertArc (p : Page) (i : ObjectId) (name : Option String) (source target : Nat) : Page :=
  { p with
    names := enterName p.names name i
    arcs := p.arcs.insert i p.graph.edges.length
    graph := p.graph.addEdge { arc := i, source := source, target := target } }

def insertPage (p : Page) (i : ObjectId) (name : Option String) : Page :=
  { p with names := enterName p.names name i, pages := insertKey p.pages i }

end Page

end PagedNets
