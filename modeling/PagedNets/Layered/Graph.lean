import PagedNets.Layered.Error

/-!
Graphs to be drawn in layers: nodes with a size and a place, directed edges with bend points. The
numbers are those of any `Scalar`, so that a drawing can be made in double precision and reasoned
about in exact arithmetic.
-/

set_option autoImplicit false

namespace PagedNets.Layered

/-- The arithmetic that a drawing needs. Lengths are compared by `≤`; what is sorted is compared by
`precedes`, which leaves nothing without a place. -/
class Scalar (α : Type) extends Add α, Sub α, Mul α, Div α, LE α where
  ofNat : Nat → α
  isFinite : α → Bool
  decLe : (a b : α) → Decidable (a ≤ b)
  precedes : α → α → Bool
  precedes_trans : ∀ a b c, precedes a b = true → precedes b c = true → precedes a c = true
  precedes_total : ∀ a b, (precedes a b || precedes b a) = true

instance Scalar.decidableLe {α : Type} [Scalar α] (a b : α) : Decidable (a ≤ b) := Scalar.decLe a b

/-- The place of a double in the total order of all doubles: that of its bits, which run the other
way once the sign bit is set. -/
def totalRank (x : Float) : Int :=
  let bits := x.toBits.toNat
  if bits < 9223372036854775808 then bits else 9223372036854775807 - bits

instance : Scalar Float where
  ofNat n := Float.ofNat n
  isFinite := Float.isFinite
  decLe _ _ := inferInstance
  precedes x y := decide (totalRank x ≤ totalRank y)
  precedes_trans _ _ _ hxy hyz :=
    decide_eq_true (Int.le_trans (of_decide_eq_true hxy) (of_decide_eq_true hyz))
  precedes_total x y := by
    simp only [Bool.or_eq_true, decide_eq_true_eq]
    exact Int.le_total (totalRank x) (totalRank y)

namespace Scalar

variable {α : Type} [Scalar α]

/-- The larger one; the second of two that are equal, the first of two that do not compare. -/
def larger (a b : α) : α := if a ≤ b then b else a

def half (a : α) : α := a / ofNat 2

/-- The sum from left to right. Nothing is added to the first, so a sum of negative zeros is one. -/
def sum : List α → α
  | [] => ofNat 0
  | a :: as => as.foldl (· + ·) a

def largest (as : List α) : α := as.foldl larger (ofNat 0)

end Scalar

structure Spot (α : Type) where
  x : α
  y : α
  deriving Repr

def Spot.isFinite {α : Type} [Scalar α] (s : Spot α) : Bool :=
  Scalar.isFinite s.x && Scalar.isFinite s.y

/-- A box; `x` and `y` are its centre. -/
structure Box (α : Type) where
  key : String
  width : α
  height : α
  x : α
  y : α
  deriving Repr

structure Link (α : Type) where
  key : String
  source : Nat
  target : Nat
  points : List (Spot α) := []
  deriving Repr

structure Graph (α : Type) where
  nodes : List (Box α) := []
  edges : List (Link α) := []
  deriving Repr

variable {α : Type} [Scalar α]

def isLength (a : α) : Bool := Scalar.isFinite a && decide (Scalar.ofNat 0 ≤ a)

def checkNodes : List (Box α) → Except LayeringError Unit
  | [] => .ok ()
  | n :: ns =>
    if isLength n.width && isLength n.height then checkNodes ns else .error (.invalidSize n.key)

omit [Scalar α] in
def checkEdges (count : Nat) : List (Link α) → Except LayeringError Unit
  | [] => .ok ()
  | e :: es =>
    if e.source < count then
      if e.target < count then checkEdges count es
      else .error (.unknownEndpoint e.key e.target count)
    else .error (.unknownEndpoint e.key e.source count)

def Graph.check (g : Graph α) : Except LayeringError Unit := do
  checkNodes g.nodes
  checkEdges g.nodes.length g.edges

omit [Scalar α] in
def Graph.keyOf (g : Graph α) (node : Nat) : String := (g.nodes[node]?.map (·.key)).getD ""

end PagedNets.Layered
