import PagedNets.Proofs.Layered.Bends
import PagedNets.Proofs.Layered.Keys

/-!
Whatever turns there have been, every layer has the vertices of its rank, so the layer that stays as
it is has all neighbours that are looked for. On the layer above every vertex has some, for a node
stands right below one that an edge leads from to it.
-/

set_option autoImplicit false

namespace PagedNets.Layered

section Segments

variable {c : Chain} {v : Nat}

end Segments

namespace Layering.Expands

variable {α : Type} {l : Layering α} {g : Graph α} {ranks : List Nat} {oriented : List Oriented}
  {v w rank : Nat}

section

variable (hx : l.Expands g ranks oriented)
include hx

end

end Layering.Expands

section Orders

variable {α : Type} [Scalar α] {l : Layering α} {g : Graph α} {ranks : List Nat}
  {oriented : List Oriented} {t : Turn} {now : List Layer} {fixed free : Layer}

/-- The layers after so many sweeps and some turns of the next one. -/
def Layering.reached (l : Layering α) (number : Nat) (done : List Turn) : List Layer :=
  done.foldl (Turn.take α l.above l.below) (swept α l.above l.below l.layers number)

end Orders

namespace Method

section

variable {α : Type} [Scalar α]

end

end Method

end PagedNets.Layered
