import PagedNets.Layered.Drawing

set_option autoImplicit false

namespace PagedNets.Layered.Method

variable {α : Type} [Scalar α]

/-- The first stages lead to these edges, which are turned round, and to these ranks. -/
structure Prepares (m : Method α) (g : Graph α) (back : List Pair) (ranks : List Nat) : Prop where
  checked : g.check = .ok ()
  turned : g.backEdges m.removeCycles = .ok back
  ranked : longestPathRanks g (g.orient back) = .ok ranks

def order (m : Method α) (l : Layering α) : List Layer × Nat :=
  orderLayers α l.above l.below m.iterations l.layers

def spots (m : Method α) (l : Layering α) : Array (Spot α) :=
  centres l.vertices m.spacing (m.order l).1

variable {m : Method α} {g drawn : Graph α} {summary : Summary}

theorem Prepares.unique {n : Method α} {back back' : List Pair} {ranks ranks' : List Nat}
    (h : m.Prepares g back ranks) (hn : n.Prepares g back' ranks')
    (hm : n.removeCycles = m.removeCycles) : back' = back ∧ ranks' = ranks := by
  have hback : back' = back := by
    have hturned := hn.turned
    rw [hm, h.turned] at hturned
    exact (Except.ok.inj hturned).symm
  have hranks := hn.ranked
  rw [hback, h.ranked] at hranks
  exact ⟨hback, (Except.ok.inj hranks).symm⟩

theorem draw_eq_ok_iff : m.draw g = .ok (drawn, summary) ↔
    ∃ back ranks, m.Prepares g back ranks ∧
      drawn = redraw g (layering g ranks (g.orient back)).chains
        (m.spots (layering g ranks (g.orient back))) back ∧
      drawn.nonFinite? = none ∧
      summary = {
        layers := (layering g ranks (g.orient back)).layerCount
        crossings := (m.order (layering g ranks (g.orient back))).2
        reversedEdges := (g.edges.filter (·.isReversed back)).length } := by
  simp only [draw, bind, Except.bind, ranks]
  constructor
  · intro h
    split at h
    · cases h
    next hcheck =>
      split at h
      · cases h
      next back hback =>
        split at h
        · cases h
        next ranks hranks =>
          split at h
          · cases h
          next hnone =>
            cases h
            exact ⟨back, ranks, ⟨hcheck, hback, hranks⟩, rfl, hnone, rfl⟩
  · rintro ⟨back, ranks, ⟨hcheck, hback, hranks⟩, rfl, hnone, rfl⟩
    rw [spots, order] at hnone
    simp only [hcheck, hback, hranks, hnone]
    rfl

theorem exists_draw (h : (m.draw g).toOption.map (·.2) = some summary) :
    ∃ drawn, m.draw g = .ok (drawn, summary) := by
  cases hdraw : m.draw g with
  | error cause =>
    rw [hdraw] at h
    cases h
  | ok result =>
    rw [hdraw] at h
    cases h
    exact ⟨result.1, rfl⟩

end PagedNets.Layered.Method
