import Mathlib
import PagedNets.Layered.Order
import PagedNets.Proofs.Layered.Search

/-!
What a layer is sorted by. If the fixed layer has all neighbours of a layer, then the key of a
vertex is the mean of their positions, or its own position if it has none, and the layer is replaced
by a stable sort of itself. Keys are what the arithmetic makes of the means, so vertices with
different means stay as they are if their keys come out equal.
-/

set_option autoImplicit false

namespace PagedNets.Layered

section Stable

variable {α : Type} [Scalar α]

end Stable

section Keys

variable {α : Type} [Scalar α] {neighbours : Array (List Nat)} {fixed free : Layer} {v : Nat}

def positions (neighbours : Array (List Nat)) (fixed : Layer) (v : Nat) : List Nat :=
  (neighbours.getD v []).filterMap fun w => fixed.idxOf? w

-- Two means that differ by less than double precision shows.
example : (34426847233 / 131328 : Rat) ≠ 34427109377 / 131329 ∧
    (Scalar.ofNat 34426847233 / Scalar.ofNat 131328 : Float) =
      Scalar.ofNat 34427109377 / Scalar.ofNat 131329 := by decide +kernel

end Keys

end PagedNets.Layered
