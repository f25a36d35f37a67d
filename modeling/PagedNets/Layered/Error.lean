set_option autoImplicit false

namespace PagedNets.Layered

inductive LayeringError where
  | unknownEndpoint (edge : String) (index nodes : Nat)
  | invalidSize (node : String)
  | cyclic (through : String)
  | nonFinite (key : String)
  deriving DecidableEq, Repr

def LayeringError.message : LayeringError → String
  | .unknownEndpoint edge index nodes =>
    s!"edge {edge} references node #{index} but the graph only has {nodes} nodes"
  | .invalidSize node => s!"node {node} has a negative or non-finite size"
  | .cyclic through => s!"graph is cyclic (through {through}) and cycle removal is disabled"
  | .nonFinite key => s!"layout produced a non-finite coordinate for {key}"

end PagedNets.Layered
