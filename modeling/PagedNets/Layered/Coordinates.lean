import PagedNets.Layered.Order

set_option autoImplicit false

namespace PagedNets.Layered

structure Spacing (α : Type) where
  /-- Between the boxes of a layer, and around the drawing. -/
  node : α
  /-- Between layers. -/
  layer : α
  deriving Repr

variable {α : Type} [Scalar α]

def widthOf (vertices : Array (Vertex α)) (v : Nat) : α :=
  match vertices[v]? with
  | none => Scalar.ofNat 0
  | some vertex => vertex.width

omit [Scalar α] in
def heightOf? (vertices : Array (Vertex α)) (v : Nat) : Option α :=
  vertices[v]?.bind (·.height)

def layerWidth (vertices : Array (Vertex α)) (spacing : Spacing α) (layer : Layer) : α :=
  Scalar.sum (layer.map (widthOf vertices)) + spacing.node * Scalar.ofNat (layer.length - 1)

def layerHeight (vertices : Array (Vertex α)) (layer : Layer) : α :=
  Scalar.largest (layer.filterMap (heightOf? vertices))

/-- The centres of a layer from left to right; `cursor` is the left edge of the next box. -/
def placeRow (vertices : Array (Vertex α)) (spacing : Spacing α) (y : α) :
    α → Layer → List (Nat × Spot α)
  | _, [] => []
  | cursor, v :: vs =>
    let width := widthOf vertices v
    (v, { x := cursor + Scalar.half width, y := y })
      :: placeRow vertices spacing y (cursor + (width + spacing.node)) vs

def placeLayers (vertices : Array (Vertex α)) (spacing : Spacing α) (widest : α) :
    α → List Layer → List (Nat × Spot α)
  | _, [] => []
  | top, layer :: layers =>
    let height := layerHeight vertices layer
    let left := spacing.node + Scalar.half (widest - layerWidth vertices spacing layer)
    placeRow vertices spacing (top + Scalar.half height) left layer
      ++ placeLayers vertices spacing widest
        (top + (Scalar.larger height spacing.node + spacing.layer)) layers

def placements (vertices : Array (Vertex α)) (spacing : Spacing α) (layers : List Layer) :
    List (Nat × Spot α) :=
  placeLayers vertices spacing (Scalar.largest (layers.map (layerWidth vertices spacing)))
    spacing.node layers

def centres (vertices : Array (Vertex α)) (spacing : Spacing α) (layers : List Layer) :
    Array (Spot α) :=
  let origin : Spot α := { x := Scalar.ofNat 0, y := Scalar.ofNat 0 }
  (placements vertices spacing layers).foldl (fun spots p => spots.setIfInBounds p.1 p.2)
    (Array.replicate vertices.size origin)

end PagedNets.Layered
