import PagedNets.Net.Id

set_option autoImplicit false

namespace PagedNets

structure Point where
  x : Float := 0
  y : Float := 0
  deriving Repr, Inhabited

def Point.isFinite (p : Point) : Bool := p.x.isFinite && p.y.isFinite

/-- A set of identifiers in ascending order. -/
abbrev IdSet := List ObjectId

def IdSet.insert : IdSet → ObjectId → IdSet
  | [], i => [i]
  | j :: rest, i =>
    if i < j then i :: j :: rest else if i = j then j :: rest else j :: IdSet.insert rest i

def IdSet.erase (s : IdSet) (i : ObjectId) : IdSet := s.filter (fun j => !decide (j = i))

/-- What places and transitions have in common. A node that is an alias names the node it stands
for; `referencedBy` is the inverse of that relation and is kept by the document alone. -/
structure NodeData where
  position : Point := {}
  size : Point := {}
  reference : Option ObjectId := none
  referencedBy : IdSet := []
  deriving Repr, Inhabited

def NodeData.isFinite (n : NodeData) : Bool := n.position.isFinite && n.size.isFinite

structure Place where
  id : ObjectId
  name : Option String := none
  owner : Option Owner := none
  node : NodeData := {}
  tokens : UInt64 := 0
  markingOffset : Point := {}
  deriving Repr

structure Transition where
  id : ObjectId
  name : Option String := none
  owner : Option Owner := none
  node : NodeData := {}
  deriving Repr

inductive ArcKind where
  | normal
  /-- A read arc consumes no token and is drawn with two heads. -/
  | read
  deriving DecidableEq, Repr

structure Arc where
  id : ObjectId
  name : Option String := none
  owner : Option Owner := none
  source : ObjectId
  target : ObjectId
  kind : ArcKind := .normal
  curve : List Point := []
  deriving Repr

end PagedNets
