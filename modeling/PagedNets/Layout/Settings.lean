import PagedNets.Layered.Drawing

set_option autoImplicit false

namespace PagedNets.Layout

structure Settings where
  /-- The side of the square that stands for a node without a size of its own. -/
  nodeSize : Float := 40
  iterations : Nat := 30
  ranker : Layered.Ranker := .longestPath
  removeCycles : Bool := true
  deriving Repr

namespace Settings

def layerSpacing (s : Settings) : Float := s.nodeSize * 2

def nodeSpacing (s : Settings) : Float := s.nodeSize

def method (s : Settings) : Layered.Method Float :=
  { ranker := s.ranker
    removeCycles := s.removeCycles
    iterations := s.iterations
    spacing := { node := s.nodeSpacing, layer := s.layerSpacing } }

end Settings

end PagedNets.Layout
