import Mathlib.Data.List.Induction
import PagedNets.Proofs.Layered.Chains
import PagedNets.Proofs.Layered.Ordering

set_option autoImplicit false

namespace PagedNets.Layered

section Placing

variable {α : Type} [Scalar α]

/-- The heights at which layers are drawn; `top` is the upper edge of the first. -/
def rowsFrom (vertices : Array (Vertex α)) (spacing : Spacing α) : α → List Layer → List α
  | _, [] => []
  | top, layer :: layers =>
    (top + Scalar.half (layerHeight vertices layer)) :: rowsFrom vertices spacing
      (top + (Scalar.larger (layerHeight vertices layer) spacing.node + spacing.layer)) layers

variable {vertices : Array (Vertex α)} {spacing : Spacing α} {layers : List Layer}
  {layer : Layer} {p : Nat × Spot α}

theorem length_rowsFrom (top : α) :
    (rowsFrom vertices spacing top layers).length = layers.length := by
  induction layers generalizing top with
  | nil => rfl
  | cons layer layers ih => rw [rowsFrom, List.length_cons, ih, List.length_cons]

theorem map_fst_placeRow (y cursor : α) :
    (placeRow vertices spacing y cursor layer).map (·.1) = layer := by
  induction layer generalizing cursor with
  | nil => rfl
  | cons v layer ih => rw [placeRow, List.map_cons, ih]

theorem y_of_mem_placeRow {y cursor : α} (h : p ∈ placeRow vertices spacing y cursor layer) :
    p.2.y = y := by
  induction layer generalizing cursor with
  | nil => cases h
  | cons v layer ih =>
    rcases List.mem_cons.mp h with rfl | h
    · rfl
    · exact ih h

theorem fst_mem_of_mem_placeRow {y cursor : α}
    (h : p ∈ placeRow vertices spacing y cursor layer) : p.1 ∈ layer := by
  have hkey := List.mem_map_of_mem (f := fun p : Nat × Spot α => p.1) h
  rwa [map_fst_placeRow] at hkey

theorem map_fst_placeLayers (vertices : Array (Vertex α)) (spacing : Spacing α)
    (widest top : α) (layers : List Layer) :
    (placeLayers vertices spacing widest top layers).map (·.1) = layers.flatten := by
  induction layers generalizing top with
  | nil => rfl
  | cons layer layers ih =>
    rw [placeLayers, List.map_append, map_fst_placeRow, ih, List.flatten_cons]

theorem exists_row_of_mem_placeLayers {widest top : α}
    (h : p ∈ placeLayers vertices spacing widest top layers) :
    ∃ (rank : Nat) (layer : Layer) (y : α), layers[rank]? = some layer ∧
      (rowsFrom vertices spacing top layers)[rank]? = some y ∧
      p ∈ placeRow vertices spacing y
        (spacing.node + Scalar.half (widest - layerWidth vertices spacing layer)) layer := by
  induction layers generalizing top with
  | nil => cases h
  | cons layer layers ih =>
    rcases List.mem_append.mp h with h | h
    · exact ⟨0, layer, _, rfl, rfl, h⟩
    · obtain ⟨rank, layer', y, hlayer, hrow, hp⟩ := ih h
      exact ⟨rank + 1, layer', y, hlayer, hrow, hp⟩

theorem row_of_mem_placeLayers {widest top : α}
    (h : p ∈ placeLayers vertices spacing widest top layers) :
    ∃ (rank : Nat) (layer : Layer), layers[rank]? = some layer ∧ p.1 ∈ layer ∧
      (rowsFrom vertices spacing top layers)[rank]? = some p.2.y := by
  obtain ⟨rank, layer, y, hlayer, hrow, hp⟩ := exists_row_of_mem_placeLayers h
  rw [← y_of_mem_placeRow hp] at hrow
  exact ⟨rank, layer, hlayer, fst_mem_of_mem_placeRow hp, hrow⟩

theorem size_written {β : Type} (ps : List (Nat × β)) (spots : Array β) :
    (ps.foldl (fun spots p => spots.setIfInBounds p.1 p.2) spots).size = spots.size := by
  induction ps generalizing spots with
  | nil => rfl
  | cons p ps ih => rw [List.foldl_cons, ih, Array.size_setIfInBounds]

theorem exists_written {β : Type} {ps : List (Nat × β)} {spots : Array β} {v : Nat}
    (hv : v < spots.size) (hmem : v ∈ ps.map (·.1)) :
    ∃ spot, (ps.foldl (fun spots p => spots.setIfInBounds p.1 p.2) spots)[v]? = some spot ∧
      (v, spot) ∈ ps := by
  -- The last entry decides, so the list is taken from its end.
  induction ps using List.reverseRecOn with
  | nil => cases hmem
  | append_singleton ps p ih =>
    obtain ⟨w, spot⟩ := p
    rw [List.foldl_append, List.foldl_cons, List.foldl_nil, Array.getElem?_setIfInBounds,
      size_written]
    by_cases hw : w = v
    · subst hw
      rw [if_pos rfl, if_pos hv]
      exact ⟨spot, rfl, List.mem_append_right ps (List.mem_singleton.mpr rfl)⟩
    · have hearlier : v ∈ ps.map (·.1) := by
        rw [List.map_append, List.mem_append, List.map_singleton, List.mem_singleton] at hmem
        exact hmem.resolve_right (Ne.symm hw)
      obtain ⟨spot', hspot, hp⟩ := ih hearlier
      rw [if_neg hw]
      exact ⟨spot', hspot, List.mem_append_left _ hp⟩

theorem exists_centre (spacing : Spacing α) {v : Nat} (hv : v < vertices.size)
    (hmem : v ∈ layers.flatten) :
    ∃ spot, (centres vertices spacing layers)[v]? = some spot ∧
      (v, spot) ∈ placements vertices spacing layers := by
  let origin : Spot α := { x := Scalar.ofNat 0, y := Scalar.ofNat 0 }
  have hsize : v < (Array.replicate vertices.size origin).size := by simpa using hv
  rw [← map_fst_placeLayers vertices spacing
    (Scalar.largest (layers.map (layerWidth vertices spacing))) spacing.node] at hmem
  exact exists_written hsize hmem

theorem row_of_centre {v rank : Nat} (hv : v < vertices.size) (hmem : v ∈ layers.flatten)
    (hrank : ∀ r layer, layers[r]? = some layer → v ∈ layer → r = rank) :
    ∃ spot, (centres vertices spacing layers)[v]? = some spot ∧
      (rowsFrom vertices spacing spacing.node layers)[rank]? = some spot.y := by
  obtain ⟨spot, hspot, hp⟩ := exists_centre spacing hv hmem
  obtain ⟨r, layer, hlayer, hv, hrow⟩ := row_of_mem_placeLayers hp
  obtain rfl := hrank r layer hlayer hv
  exact ⟨spot, hspot, hrow⟩

end Placing

namespace Layering

variable {α : Type} {l : Layering α} {layers : List Layer} {layer : Layer} {v rank : Nat}

theorem mem_iff_of_reordered (h : Reordered layers l.layers) (hlayer : layers[rank]? = some layer) :
    v ∈ layer ↔ l.rank? v = some rank := by
  obtain ⟨hlt, rfl⟩ := List.getElem?_eq_some_iff.mp hlayer
  have hlt' : rank < l.layers.length := h.length_eq ▸ hlt
  have hperm : List.Perm layers[rank] l.layers[rank] := h.get hlt hlt'
  have hgiven : l.layers[rank]? = some l.layers[rank] := List.getElem?_eq_getElem hlt'
  rw [hperm.mem_iff, mem_layer_iff hgiven, rank?, Option.map_eq_some_iff]

theorem nodup_of_reordered (h : Reordered layers l.layers) (hlayer : layer ∈ layers) :
    layer.Nodup := by
  obtain ⟨given, hgiven, hperm⟩ := exists_left_of_forall₂ h.flip hlayer
  obtain ⟨rank, -, rfl⟩ := List.mem_map.mp hgiven
  refine hperm.nodup_iff.mpr ((List.filter_sublist.map Prod.snd).nodup ?_)
  rw [List.zipIdx_map_snd]
  exact List.nodup_range'

end Layering

namespace Method

variable {α : Type} [Scalar α] {m : Method α} {l : Layering α} {v rank : Nat}

def rows (m : Method α) (l : Layering α) : List α :=
  rowsFrom l.vertices m.spacing m.spacing.node (m.order l).1

theorem reordered_order (m : Method α) (l : Layering α) : Reordered (m.order l).1 l.layers :=
  (orderLayers_spec α l.above l.below m.iterations l.layers).reordered

theorem length_rows (m : Method α) (l : Layering α) : (m.rows l).length = l.layerCount := by
  rw [rows, length_rowsFrom, (reordered_order m l).length_eq, Layering.length_layers]

theorem mem_order_iff {layer : Layer} (h : (m.order l).1[rank]? = some layer) :
    v ∈ layer ↔ l.rank? v = some rank :=
  Layering.mem_iff_of_reordered (reordered_order m l) h

theorem exists_layer (m : Method α) (hv : l.rank? v = some rank) :
    ∃ layer, (m.order l).1[rank]? = some layer ∧ v ∈ layer := by
  have hlt : rank < (m.order l).1.length := by
    obtain ⟨x, hx, rfl⟩ := Option.map_eq_some_iff.mp hv
    rw [(reordered_order m l).length_eq, Layering.length_layers]
    exact Layering.lt_layerCount_iff.mpr ⟨x, Array.mem_of_getElem? hx, Nat.le_refl _⟩
  have hlayer : (m.order l).1[rank]? = some (m.order l).1[rank] := List.getElem?_eq_getElem hlt
  exact ⟨_, hlayer, (mem_order_iff hlayer).mpr hv⟩

theorem row_of_spot (hv : l.rank? v = some rank) :
    ∃ spot, (m.spots l)[v]? = some spot ∧ (m.rows l)[rank]? = some spot.y := by
  obtain ⟨layer, hlayer, hmem⟩ := exists_layer m hv
  refine row_of_centre (Layering.lt_size_of_rank? hv) ?_ fun r layer hr hmem => ?_
  · exact List.mem_flatten.mpr ⟨layer, List.mem_of_getElem? hlayer, hmem⟩
  · have hr := (mem_order_iff hr).mp hmem
    rw [hv] at hr
    exact (Option.some.inj hr).symm

/-- What is on ranks that follow each other is drawn at the heights of their layers. -/
theorem rows_of_ranks {inner ranks : List Nat} (h : inner.map l.rank? = ranks.map some) :
    (inner.filterMap fun v => (m.spots l)[v]?).map (fun p => some p.y) =
      ranks.map fun rank => (m.rows l)[rank]? := by
  induction inner generalizing ranks with
  | nil => rw [List.map_eq_nil_iff.mp h.symm]; rfl
  | cons v inner ih =>
    cases ranks with
    | nil => cases h
    | cons rank ranks =>
      obtain ⟨hv, hrest⟩ := List.cons.inj h
      obtain ⟨spot, hspot, hrow⟩ := row_of_spot (m := m) hv
      rw [List.filterMap_cons_some hspot, List.map_cons, List.map_cons, ih hrest, hrow]

end Method

section Edges

variable {α : Type} {g : Graph α} {back : List Pair} {i : Nat} {e : Link α}

def Link.oriented (back : List Pair) (e : Link α) (index : Nat) : Oriented :=
  if e.isReversed back then { source := e.target, target := e.source, edge := index }
  else { source := e.source, target := e.target, edge := index }

theorem Link.edge_oriented (e : Link α) : (e.oriented back i).edge = i := by
  unfold oriented
  split <;> rfl

theorem mem_orient_iff {o : Oriented} : o ∈ g.orient back ↔
    ∃ i, ∃ e : Link α, g.edges[i]? = some e ∧ e.source ≠ e.target ∧ o = e.oriented back i := by
  simp only [Graph.orient, List.mem_map, List.mem_filter, bne_iff_ne]
  constructor
  · rintro ⟨⟨e, i⟩, ⟨he, hne⟩, rfl⟩
    exact ⟨i, e, List.mk_mem_zipIdx_iff_getElem?.mp he, hne, rfl⟩
  · rintro ⟨i, e, he, hne, rfl⟩
    exact ⟨(e, i), ⟨List.mk_mem_zipIdx_iff_getElem?.mpr he, hne⟩, rfl⟩

variable {l : Layering α} {ranks : List Nat}

theorem leads_of_mem_chains (h : List.Forall₂ (Chain.Leads l ranks) (g.orient back) l.chains)
    (he : g.edges[i]? = some e) {c : Chain} (hc : c ∈ l.chains) (hci : c.edge = i) :
    e.source ≠ e.target ∧ c.Leads l ranks (e.oriented back i) := by
  obtain ⟨o, ho, hleads⟩ := exists_left_of_forall₂ h hc
  obtain ⟨j, e', he', hne, rfl⟩ := mem_orient_iff.mp ho
  have hj : j = i := by rw [← hci, hleads.edge, Link.edge_oriented]
  rw [hj, he] at he'
  cases he'
  exact ⟨hne, hj ▸ hleads⟩

theorem find?_chain_of_loop
    (h : List.Forall₂ (Chain.Leads l ranks) (g.orient back) l.chains)
    (he : g.edges[i]? = some e) (hloop : e.source = e.target) :
    (l.chains.find? fun c => c.edge == i) = none := by
  refine List.find?_eq_none.mpr fun c hc hci => ?_
  exact (leads_of_mem_chains h he hc (beq_iff_eq.mp hci)).1 hloop

theorem find?_chain (h : List.Forall₂ (Chain.Leads l ranks) (g.orient back) l.chains)
    (he : g.edges[i]? = some e) (hne : e.source ≠ e.target) :
    ∃ c, (l.chains.find? fun c => c.edge == i) = some c ∧
      c.Leads l ranks (e.oriented back i) := by
  obtain ⟨c, hc, hleads⟩ := exists_right_of_forall₂ h (mem_orient_iff.mpr ⟨i, e, he, hne, rfl⟩)
  have hsome : (l.chains.find? fun c => c.edge == i).isSome :=
    List.find?_isSome.mpr ⟨c, hc, beq_iff_eq.mpr (hleads.edge.trans e.edge_oriented)⟩
  obtain ⟨c', hfound⟩ := Option.isSome_iff_exists.mp hsome
  have hci : c'.edge = i := by simpa using List.find?_some hfound
  exact ⟨c', hfound, (leads_of_mem_chains h he (List.mem_of_find?_eq_some hfound) hci).2⟩

structure Bends (rows : List α) (s t : Nat) (points : List (Spot α)) : Prop where
  count : points.length = ((s : Int) - t).natAbs - 1
  downward : s < t → ∀ i p, points[i]? = some p → rows[s + i + 1]? = some p.y
  upward : t < s → ∀ i p, points[i]? = some p → rows[s - i - 1]? = some p.y

variable {rows : List α} {s t : Nat} {points : List (Spot α)}

theorem bends_of_map (hlt : s < t)
    (h : points.map (fun p => some p.y) =
      (List.range' (s + 1) (t - (s + 1))).map fun rank => rows[rank]?) :
    Bends rows s t points := by
  have hlength : points.length = t - (s + 1) := by
    have hlength := congrArg List.length h
    simpa using hlength
  refine ⟨by omega, fun _ i p hp => ?_, fun h => absurd h (Nat.lt_asymm hlt)⟩
  have hi : i < t - (s + 1) := hlength ▸ (List.getElem?_eq_some_iff.mp hp).1
  have hrow := congrArg (fun rows => rows[i]?) h
  simp only [List.getElem?_map, hp, List.getElem?_range' hi, Option.map_some, Nat.one_mul,
    Option.some.injEq] at hrow
  rw [hrow]
  congr 1
  omega

theorem Bends.reverse (h : Bends rows s t points) (hlt : s < t) :
    Bends rows t s points.reverse := by
  have hcount := h.count
  refine ⟨by rw [List.length_reverse]; omega, fun h => absurd h (Nat.lt_asymm hlt),
    fun _ i p hp => ?_⟩
  have hi : i < points.length := by
    have hi := (List.getElem?_eq_some_iff.mp hp).1
    rwa [List.length_reverse] at hi
  rw [List.getElem?_reverse hi] at hp
  have hrow := h.downward hlt _ p hp
  have hindex : s + (points.length - 1 - i) + 1 = t - i - 1 := by omega
  rwa [hindex] at hrow

theorem bends_bendPoints [Scalar α] {m : Method α}
    (h : List.Forall₂ (Chain.Leads l ranks) (g.orient back) l.chains)
    (he : g.edges[i]? = some e) (hne : e.source ≠ e.target)
    (hlt : ranks.getD (e.oriented back i).source 0 < ranks.getD (e.oriented back i).target 0) :
    Bends (m.rows l) (ranks.getD e.source 0) (ranks.getD e.target 0)
      (bendPoints l.chains (m.spots l) back e i) := by
  obtain ⟨c, hfound, hleads⟩ := find?_chain h he hne
  have hdown := bends_of_map hlt (Method.rows_of_ranks (m := m) hleads.inner)
  simp only [bendPoints, hfound]
  by_cases hrev : e.isReversed back = true
  · rw [if_pos hrev]
    rw [Link.oriented, if_pos hrev] at hlt hdown
    exact hdown.reverse hlt
  · rw [if_neg hrev]
    rw [Link.oriented, if_neg hrev] at hdown
    exact hdown

end Edges

namespace Method

variable {α : Type} [Scalar α]

structure Drawn (m : Method α) (l : Layering α) (g drawn : Graph α) (ranks : List Nat) : Prop where
  nodes : ∀ (v : Nat) (n : Box α), g.nodes[v]? = some n → ∃ spot : Spot α,
    (m.rows l)[ranks.getD v 0]? = some spot.y ∧
      drawn.nodes[v]? = some { n with x := spot.x, y := spot.y }
  edges : ∀ (i : Nat) (e : Link α), g.edges[i]? = some e → ∃ points : List (Spot α),
    drawn.edges[i]? = some { e with points := points } ∧
      (e.source = e.target → points = []) ∧
      (e.source ≠ e.target →
        Bends (m.rows l) (ranks.getD e.source 0) (ranks.getD e.target 0) points)

theorem drawn_redraw {m : Method α} {g : Graph α} {back : List Pair} {ranks : List Nat}
    (h : m.Prepares g back ranks) :
    m.Drawn (layering g ranks (g.orient back)) g
      (redraw g (layering g ranks (g.orient back)).chains
        (m.spots (layering g ranks (g.orient back))) back) ranks := by
  constructor
  · intro v n hv
    obtain ⟨hlt, -⟩ := List.getElem?_eq_some_iff.mp hv
    obtain ⟨spot, hspot, hrow⟩ := row_of_spot (m := m)
      (rank?_of_node ranks (g.orient back) hlt)
    refine ⟨spot, hrow, ?_⟩
    simp only [redraw, List.getElem?_map, List.getElem?_zipIdx, hv, Option.map_some, Nat.zero_add,
      hspot]
  · intro i e he
    have hleads := leads_layering g ranks (g.orient back)
    refine ⟨bendPoints (layering g ranks (g.orient back)).chains
      (m.spots (layering g ranks (g.orient back))) back e i, ?_, fun hloop => ?_, fun hne => ?_⟩
    · simp only [redraw, List.getElem?_map, List.getElem?_zipIdx, he, Option.map_some,
        Nat.zero_add]
    · simp only [bendPoints, find?_chain_of_loop hleads he hloop]
    · have ho : e.oriented back i ∈ g.orient back := mem_orient_iff.mpr ⟨i, e, he, hne, rfl⟩
      exact bends_bendPoints hleads he hne (h.longest.downward ho)

/-- Where a drawing succeeds, each edge is led through one vertex of its own on every layer between
its ends, and bends at the heights of these layers, in its own direction. -/
theorem chains_and_bends (m : Method α) (g drawn : Graph α) (summary : Summary)
    (h : m.draw g = .ok (drawn, summary)) : ∃ back ranks, m.Prepares g back ranks ∧
      ∃ l : Layering α, l = layering g ranks (g.orient back) ∧
        l.Expands g ranks (g.orient back) ∧ (m.rows l).length = summary.layers ∧
          m.Drawn l g drawn ranks := by
  obtain ⟨back, ranks, hprepares, rfl, -, rfl⟩ := draw_eq_ok_iff.mp h
  exact ⟨back, ranks, hprepares, _, rfl,
    expands_layering hprepares.longest (Graph.orient_lt hprepares.checked), length_rows m _,
    drawn_redraw hprepares⟩

theorem chains_and_bends_shortcut : ∃ drawn,
    (plainMethod true).draw shortcut = .ok (drawn, ⟨3, 0, 1⟩) ∧
      ∃ back ranks, ∃ l : Layering Rat, l.Expands shortcut ranks (shortcut.orient back) ∧
        ((plainMethod true).rows l).length = 3 ∧
          (plainMethod true).Drawn l shortcut drawn ranks := by
  obtain ⟨drawn, hdraw⟩ : ∃ drawn, (plainMethod true).draw shortcut = .ok (drawn, ⟨3, 0, 1⟩) :=
    exists_draw (by decide +kernel)
  obtain ⟨back, ranks, -, l, -, hexpands, hrows, hdrawn⟩ :=
    chains_and_bends (plainMethod true) shortcut drawn _ hdraw
  exact ⟨drawn, hdraw, back, ranks, l, hexpands, hrows, hdrawn⟩

end Method

end PagedNets.Layered
