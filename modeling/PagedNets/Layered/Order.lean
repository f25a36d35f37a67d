import PagedNets.Layered.Chain

/-!
The order of the vertices in each layer. Layers are sorted by the mean position of the neighbours
on the layer next to them, downwards and upwards in turn, and of all orders met the first with the
fewest crossings is kept.
-/

set_option autoImplicit false

namespace PagedNets.Layered

abbrev Layer := List Nat

section Sorting

variable {α : Type} [Scalar α]

/-- The mean position of the neighbours of a vertex on a fixed layer. A vertex without any keeps
its own position. -/
def barycenter (neighbours : Array (List Nat)) (fixed : Layer) (v current : Nat) : α :=
  match (neighbours.getD v []).filterMap fun w => fixed.idxOf? w with
  | [] => Scalar.ofNat current
  | positions => Scalar.sum (positions.map Scalar.ofNat) / Scalar.ofNat positions.length

variable (α)

/-- Sorts a layer by the neighbours on a fixed layer. Vertices whose means come out equal keep their
order. -/
def arrange (neighbours : Array (List Nat)) (fixed free : Layer) : Layer :=
  ((free.zipIdx.map fun v => ((barycenter neighbours fixed v.1 v.2 : α), v.1)).mergeSort
    fun a b => Scalar.precedes a.1 b.1).map (·.2)

/-- Sorts layer after layer, each by the one before it as already sorted. -/
def sweepFrom (neighbours : Array (List Nat)) : Layer → List Layer → List Layer
  | _, [] => []
  | fixed, free :: rest =>
    let sorted := arrange α neighbours fixed free
    sorted :: sweepFrom neighbours sorted rest

def sweep (neighbours : Array (List Nat)) : List Layer → List Layer
  | [] => []
  | first :: rest => first :: sweepFrom α neighbours first rest

end Sorting

/-- The number of pairs of a list, earlier member first, for which a test holds. -/
def countPairs {β : Type} (p : β → β → Bool) : List β → Nat
  | [] => 0
  | b :: bs => bs.countP (p b) + countPairs p bs

/-- Do two steps between the same layers cross? Steps with a common end do not. -/
def crosses (s t : Pair) : Bool :=
  (decide (s.1 < t.1) && decide (t.2 < s.2)) || (decide (t.1 < s.1) && decide (s.2 < t.2))

def steps (below : Array (List Nat)) (upper lower : Layer) : List Pair :=
  upper.zipIdx.flatMap fun v => (below.getD v.1 []).map fun w => (v.2, lower.idxOf w)

def crossings (below : Array (List Nat)) : List Layer → Nat
  | upper :: lower :: rest =>
    countPairs crosses (steps below upper lower) + crossings below (lower :: rest)
  | _ => 0

variable (α : Type) [Scalar α]

/-- One sweep: downwards if its number is even, else upwards. -/
def pass (above below : Array (List Nat)) (number : Nat) (layers : List Layer) : List Layer :=
  if number % 2 = 0 then sweep α above layers else (sweep α below layers.reverse).reverse

def improve (above below : Array (List Nat)) :
    Nat → Nat → List Layer → List Layer → Nat → List Layer × Nat
  | 0, _, _, best, count => (best, count)
  | left + 1, number, layers, best, count =>
    if count = 0 then (best, count)
    else
      let next := pass α above below number layers
      let crossed := crossings below next
      if crossed < count then improve above below left (number + 1) next next crossed
      else improve above below left (number + 1) next best count

/-- The order with the fewest crossings among the given one and those of `iterations` sweeps, and
their number. -/
def orderLayers (above below : Array (List Nat)) (iterations : Nat) (layers : List Layer) :
    List Layer × Nat :=
  improve α above below iterations 0 layers layers (crossings below layers)

end PagedNets.Layered
