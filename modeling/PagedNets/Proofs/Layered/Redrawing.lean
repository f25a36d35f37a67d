import PagedNets.Layered.Drawing

set_option autoImplicit false

namespace PagedNets.Layered

variable {α : Type} [Scalar α]

def Box.unplaced (n : Box α) : Box α := { n with x := Scalar.ofNat 0, y := Scalar.ofNat 0 }

omit [Scalar α] in
def Link.straight (e : Link α) : Link α := { e with points := [] }

/-- A graph with nothing of a drawing in it: keys, sizes and ends. -/
def Graph.undrawn (g : Graph α) : Graph α :=
  { nodes := g.nodes.map Box.unplaced, edges := g.edges.map Link.straight }

/-- What a graph and a drawing of it have to do with each other, whatever the method. -/
structure Graph.DrawnAs (g drawn : Graph α) : Prop where
  undrawn : drawn.undrawn = g.undrawn
  sizes : ∀ n ∈ drawn.nodes, isLength n.width = true ∧ isLength n.height = true
  places : ∀ n ∈ drawn.nodes, Scalar.isFinite n.x = true ∧ Scalar.isFinite n.y = true
  bends : ∀ e ∈ drawn.edges, e.points.all Spot.isFinite = true

section Undrawn

variable (g : Graph α)

theorem checkNodes_unplaced (ns : List (Box α)) :
    checkNodes (ns.map Box.unplaced) = checkNodes ns := by
  induction ns with
  | nil => rfl
  | cons n ns ih => simp only [List.map_cons, checkNodes, ih, Box.unplaced]

omit [Scalar α] in
theorem checkEdges_straight (count : Nat) (es : List (Link α)) :
    checkEdges count (es.map Link.straight) = checkEdges count es := by
  induction es with
  | nil => rfl
  | cons e es ih => simp only [List.map_cons, checkEdges, ih, Link.straight]

theorem length_nodes_undrawn : g.undrawn.nodes.length = g.nodes.length := List.length_map _

theorem check_undrawn : g.undrawn.check = g.check := by
  simp only [Graph.check, Graph.undrawn, checkNodes_unplaced, checkEdges_straight,
    List.length_map]

theorem pairs_undrawn : g.undrawn.pairs = g.pairs := by
  simp only [Graph.pairs, Graph.undrawn, List.filter_map, List.map_map]
  rfl

theorem keyOf_undrawn (v : Nat) : g.undrawn.keyOf v = g.keyOf v := by
  simp only [Graph.keyOf, Graph.undrawn, List.getElem?_map, Option.map_map]
  rfl

theorem backEdges_undrawn (removeCycles : Bool) :
    g.undrawn.backEdges removeCycles = g.backEdges removeCycles := by
  simp only [Graph.backEdges, length_nodes_undrawn, pairs_undrawn, keyOf_undrawn]

theorem zipIdx_nodes_undrawn :
    g.undrawn.nodes.zipIdx = g.nodes.zipIdx.map (Prod.map Box.unplaced id) := List.zipIdx_map

theorem zipIdx_edges_undrawn :
    g.undrawn.edges.zipIdx = g.edges.zipIdx.map (Prod.map Link.straight id) := List.zipIdx_map

theorem orient_undrawn (back : List Pair) : g.undrawn.orient back = g.orient back := by
  simp only [Graph.orient, zipIdx_edges_undrawn, List.filter_map, List.map_map]
  rfl

theorem ranks_undrawn (m : Method α) (oriented : List Oriented) :
    m.ranks g.undrawn oriented = m.ranks g oriented := by
  simp only [Method.ranks, longestPathRanks, length_nodes_undrawn, keyOf_undrawn]

theorem layering_undrawn (ranks : List Nat) (oriented : List Oriented) :
    layering g.undrawn ranks oriented = layering g ranks oriented := by
  simp only [layering, nodeVertices, zipIdx_nodes_undrawn, length_nodes_undrawn, List.map_map]
  rfl

theorem length_reversed_undrawn (back : List Pair) :
    (g.undrawn.edges.filter (·.isReversed back)).length =
      (g.edges.filter (·.isReversed back)).length := by
  simp only [Graph.undrawn, List.filter_map, List.length_map]
  rfl

end Undrawn

section Redraw

variable {g : Graph α} {chains : List Chain} {spots : Array (Spot α)} {back : List Pair}

theorem redraw_undrawn (h : g.nodes.length ≤ spots.size) :
    redraw g.undrawn chains spots back = redraw g chains spots back := by
  simp only [redraw, Graph.mk.injEq, zipIdx_nodes_undrawn, zipIdx_edges_undrawn, List.map_map]
  refine ⟨List.map_congr_left fun n hn => ?_, rfl⟩
  have hlt : n.2 < spots.size := Nat.lt_of_lt_of_le (List.snd_lt_of_mem_zipIdx hn) h
  simp only [Function.comp, Prod.map, id, Array.getElem?_eq_getElem hlt, Box.unplaced]

theorem undrawn_redraw : (redraw g chains spots back).undrawn = g.undrawn := by
  have hnodes : (redraw g chains spots back).nodes.map Box.unplaced =
      g.nodes.map Box.unplaced := by
    calc (redraw g chains spots back).nodes.map Box.unplaced
      _ = g.nodes.zipIdx.map (Box.unplaced ∘ Prod.fst) := by
        rw [redraw, List.map_map]
        refine List.map_congr_left fun n _ => ?_
        simp only [Function.comp]
        cases spots[n.2]? <;> rfl
      _ = g.nodes.map Box.unplaced := by rw [← List.map_map, List.zipIdx_map_fst]
  have hedges : (redraw g chains spots back).edges.map Link.straight =
      g.edges.map Link.straight := by
    calc (redraw g chains spots back).edges.map Link.straight
      _ = g.edges.zipIdx.map (Link.straight ∘ Prod.fst) := by
        rw [redraw, List.map_map]
        rfl
      _ = g.edges.map Link.straight := by rw [← List.map_map, List.zipIdx_map_fst]
  rw [Graph.undrawn, hnodes, hedges, Graph.undrawn]

end Redraw

theorem size_centres (vertices : Array (Vertex α)) (spacing : Spacing α) (layers : List Layer) :
    (centres vertices spacing layers).size = vertices.size := by
  have hkeep : ∀ (ps : List (Nat × Spot α)) (spots : Array (Spot α)),
      (ps.foldl (fun spots p => spots.setIfInBounds p.1 p.2) spots).size = spots.size := by
    intro ps
    induction ps with
    | nil => exact fun _ => rfl
    | cons p ps ih => exact fun spots => (ih _).trans Array.size_setIfInBounds
  rw [centres, hkeep, Array.size_replicate]

theorem length_le_size_layering (g : Graph α) (ranks : List Nat) (oriented : List Oriented) :
    g.nodes.length ≤ (layering g ranks oriented).vertices.size := by
  simp [layering, nodeVertices]

theorem isLength_of_checkNodes {ns : List (Box α)} (h : checkNodes ns = .ok ()) :
    ∀ n ∈ ns, isLength n.width = true ∧ isLength n.height = true := by
  induction ns with
  | nil => exact fun n hn => by cases hn
  | cons m ns ih =>
    unfold checkNodes at h
    split at h
    · next hm =>
      exact List.forall_mem_cons.mpr ⟨by simpa using hm, ih h⟩
    · cases h

theorem sizes_of_check {g : Graph α} (h : g.check = .ok ()) :
    ∀ n ∈ g.nodes, isLength n.width = true ∧ isLength n.height = true := by
  cases hn : checkNodes g.nodes with
  | error cause => simp [Graph.check, hn, bind, Except.bind] at h
  | ok u => exact isLength_of_checkNodes hn

theorem finite_of_nonFinite? {g : Graph α} (h : g.nonFinite? = none) :
    (∀ n ∈ g.nodes, Scalar.isFinite n.x = true ∧ Scalar.isFinite n.y = true) ∧
      ∀ e ∈ g.edges, e.points.all Spot.isFinite = true := by
  simp only [Graph.nonFinite?, Option.or_eq_none_iff, Option.map_eq_none_iff,
    List.find?_eq_none, Bool.not_eq_true, Bool.not_eq_false', Bool.and_eq_true] at h
  exact h

namespace Method

variable {m : Method α} {g h drawn : Graph α} {summary : Summary}

theorem draw_undrawn (m : Method α) (g : Graph α) : m.draw g.undrawn = m.draw g := by
  unfold Method.draw
  simp only [check_undrawn, backEdges_undrawn, orient_undrawn, ranks_undrawn, layering_undrawn,
    length_reversed_undrawn]
  refine bind_congr fun _ => bind_congr fun back => bind_congr fun ranks => ?_
  have hspots : g.nodes.length ≤ (layering g ranks (g.orient back)).vertices.size :=
    length_le_size_layering g ranks (g.orient back)
  rw [redraw_undrawn (by rw [size_centres]; exact hspots)]

theorem draw_congr (he : g.undrawn = h.undrawn) : m.draw g = m.draw h := by
  rw [← draw_undrawn, he, draw_undrawn]

theorem drawnAs_of_draw (hd : m.draw g = .ok (drawn, summary)) : g.DrawnAs drawn := by
  simp only [draw, bind, Except.bind] at hd
  split at hd
  · cases hd
  next hcheck =>
    split at hd
    · cases hd
    split at hd
    · cases hd
    split at hd
    · cases hd
    · next hnone =>
      cases hd
      obtain ⟨hplaces, hbends⟩ := finite_of_nonFinite? hnone
      refine ⟨undrawn_redraw, sizes_of_check ?_, hplaces, hbends⟩
      rw [← check_undrawn, undrawn_redraw, check_undrawn]
      exact hcheck

/-- A graph that was drawn is drawn again as it is. -/
theorem draw_drawn (hd : m.draw g = .ok (drawn, summary)) : m.draw drawn = .ok (drawn, summary) :=
  (draw_congr (drawnAs_of_draw hd).undrawn).trans hd

end Method

end PagedNets.Layered
