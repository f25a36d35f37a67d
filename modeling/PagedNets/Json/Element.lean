import PagedNets.Json.Reader
import PagedNets.Json.Value
import PagedNets.Net.Element

set_option autoImplicit false

namespace PagedNets

open Json (Raw)

def ObjectId.json (i : ObjectId) : Json := .string i.text

def ObjectId.ofRaw? (r : Raw) : Option ObjectId := r.string?.map ObjectId.mk

def Owner.json : Owner → Json
  | .net i => .object [("Net", i.json)]
  | .page i => .object [("Page", i.json)]

def Owner.ofRaw? (r : Raw) : Option Owner :=
  r.choice?.bind fun (tag, value) =>
    if tag = "Net" then (ObjectId.ofRaw? value).map Owner.net
    else if tag = "Page" then (ObjectId.ofRaw? value).map Owner.page
    else none

def Point.json (p : Point) : Json := .object [("x", .real p.x), ("y", .real p.y)]

def Point.ofRaw? (r : Raw) : Option Point :=
  match r.fields? ["x", "y"] with
  | some [some x, some y] => do
    let x ← x.float?
    let y ← y.float?
    some { x := x, y := y }
  | _ => none

def NodeData.json (n : NodeData) : Json :=
  .object [("position", n.position.json), ("size", n.size.json),
    ("reference", .ofOption ObjectId.json n.reference),
    ("referenced_by", .array (n.referencedBy.map ObjectId.json))]

def NodeData.ofRaw? (r : Raw) : Option NodeData :=
  match r.fields? ["position", "size", "reference", "referenced_by"] with
  | some [some position, some size, reference, some referencedBy] => do
    let position ← Point.ofRaw? position
    let size ← Point.ofRaw? size
    let reference ← Raw.optional? ObjectId.ofRaw? reference
    let referencedBy ← referencedBy.list? ObjectId.ofRaw?
    some { position := position, size := size, reference := reference,
           referencedBy := referencedBy.foldl IdSet.insert [] }
  | _ => none

def Place.json (p : Place) : Json :=
  .object [("id", p.id.json), ("name", .ofOption .string p.name),
    ("owner", .ofOption Owner.json p.owner), ("node", p.node.json),
    ("tokens", .natural p.tokens.toNat), ("marking_offset", p.markingOffset.json)]

def Place.ofRaw? (r : Raw) : Option Place :=
  match r.fields? ["id", "name", "owner", "node", "tokens", "marking_offset"] with
  | some [some id, name, owner, some node, some tokens, some markingOffset] => do
    let id ← ObjectId.ofRaw? id
    let name ← Raw.optional? Raw.string? name
    let owner ← Raw.optional? Owner.ofRaw? owner
    let node ← NodeData.ofRaw? node
    let tokens ← tokens.count?
    let markingOffset ← Point.ofRaw? markingOffset
    some { id := id, name := name, owner := owner, node := node, tokens := tokens,
           markingOffset := markingOffset }
  | _ => none

def Transition.json (t : Transition) : Json :=
  .object [("id", t.id.json), ("name", .ofOption .string t.name),
    ("owner", .ofOption Owner.json t.owner), ("node", t.node.json)]

def Transition.ofRaw? (r : Raw) : Option Transition :=
  match r.fields? ["id", "name", "owner", "node"] with
  | some [some id, name, owner, some node] => do
    let id ← ObjectId.ofRaw? id
    let name ← Raw.optional? Raw.string? name
    let owner ← Raw.optional? Owner.ofRaw? owner
    let node ← NodeData.ofRaw? node
    some { id := id, name := name, owner := owner, node := node }
  | _ => none

def ArcKind.label : ArcKind → String
  | .normal => "Normal"
  | .read => "Read"

def ArcKind.ofRaw? (r : Raw) : Option ArcKind :=
  r.tag?.bind fun tag => [ArcKind.normal, ArcKind.read].find? fun k => k.label == tag

def Arc.json (a : Arc) : Json :=
  .object [("id", a.id.json), ("name", .ofOption .string a.name),
    ("owner", .ofOption Owner.json a.owner), ("source", a.source.json),
    ("target", a.target.json), ("kind", .string a.kind.label),
    ("curve", .array (a.curve.map Point.json))]

def Arc.ofRaw? (r : Raw) : Option Arc :=
  match r.fields? ["id", "name", "owner", "source", "target", "kind", "curve"] with
  | some [some id, name, owner, some source, some target, some kind, some curve] => do
    let id ← ObjectId.ofRaw? id
    let name ← Raw.optional? Raw.string? name
    let owner ← Raw.optional? Owner.ofRaw? owner
    let source ← ObjectId.ofRaw? source
    let target ← ObjectId.ofRaw? target
    let kind ← ArcKind.ofRaw? kind
    let curve ← curve.list? Point.ofRaw?
    some { id := id, name := name, owner := owner, source := source, target := target,
           kind := kind, curve := curve }
  | _ => none

end PagedNets
