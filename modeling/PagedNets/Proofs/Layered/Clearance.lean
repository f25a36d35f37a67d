import PagedNets.Proofs.Layered.Placement

set_option autoImplicit false

namespace PagedNets.Layered

namespace Box

variable {a b : Box Rat}

def left (n : Box Rat) : Rat := n.x - n.width / 2

def right (n : Box Rat) : Rat := n.x + n.width / 2

def top (n : Box Rat) : Rat := n.y - n.height / 2

def bottom (n : Box Rat) : Rat := n.y + n.height / 2

def interior (n : Box Rat) : Set (Spot Rat) :=
  {p | (n.left < p.x ∧ p.x < n.right) ∧ n.top < p.y ∧ p.y < n.bottom}

theorem disjoint_of_beside (h : a.right ≤ b.left) : Disjoint a.interior b.interior :=
  Set.disjoint_left.mpr fun _ ha hb => (ha.1.2.trans_le h).not_gt hb.1.1

theorem disjoint_of_below (h : a.bottom ≤ b.top) : Disjoint a.interior b.interior :=
  Set.disjoint_left.mpr fun _ ha hb => (ha.2.2.trans_le h).not_gt hb.2.1

end Box

section Sizes

variable {g : Graph Rat}

theorem zero_le_widthOf (h : g.check = .ok ()) (ranks : List Nat) (oriented : List Oriented)
    (v : Nat) : 0 ≤ widthOf (layering g ranks oriented).vertices v := by
  unfold widthOf
  split
  · rfl
  · next x hx =>
    have hmem := Array.mem_of_getElem? hx
    simp only [layering, List.mem_toArray, List.mem_append, List.mem_flatMap] at hmem
    rcases hmem with hnode | ⟨o, -, hinner⟩
    · obtain ⟨⟨n, i⟩, hn, rfl⟩ := List.mem_map.mp hnode
      exact zero_le_of_isLength (sizes_of_check h n (List.fst_mem_of_mem_zipIdx hn)).1
    · obtain ⟨rank, -, rfl⟩ := List.mem_map.mp hinner
      rfl

end Sizes

namespace Method

section Standing

variable {α : Type} [Scalar α]

def width (m : Method α) (l : Layering α) : α :=
  Scalar.largest ((m.order l).1.map (layerWidth l.vertices m.spacing))

def start (m : Method α) (l : Layering α) (layer : Layer) : α :=
  m.spacing.node + Scalar.half (m.width l - layerWidth l.vertices m.spacing layer)

structure Stands (m : Method α) (l : Layering α) (p : Nat × Spot α) (rank : Nat) (layer : Layer) :
    Prop where
  ordered : (m.order l).1[rank]? = some layer
  row : (m.rows l)[rank]? = some p.2.y
  placed : p ∈ placeRow l.vertices m.spacing p.2.y (m.start l layer) layer

variable {m : Method α} {l : Layering α} {v rank : Nat} {layer : Layer} {spot : Spot α}

theorem stands_of_spot (hordered : (m.order l).1[rank]? = some layer) (hv : v ∈ layer)
    (h : (m.spots l)[v]? = some spot) : m.Stands l (v, spot) rank layer := by
  have hrank := (mem_order_iff hordered).mp hv
  have hflat := List.mem_flatten.mpr ⟨layer, List.mem_of_getElem? hordered, hv⟩
  obtain ⟨spot', hspot, hplaced⟩ :=
    exists_centre m.spacing (Layering.lt_size_of_rank? hrank) hflat
  obtain rfl : spot' = spot := Option.some.inj (hspot.symm.trans h)
  -- It was placed in the row of some layer, and it is on no layer but that of its rank.
  obtain ⟨rank', layer', y, hlayer, hrow, hp⟩ := exists_row_of_mem_placeLayers hplaced
  have hrank' := (mem_order_iff hlayer).mp (fst_mem_of_mem_placeRow hp)
  obtain rfl : rank' = rank := Option.some.inj (hrank'.symm.trans hrank)
  obtain rfl : layer' = layer := Option.some.inj (hlayer.symm.trans hordered)
  obtain rfl : spot'.y = y := y_of_mem_placeRow hp
  exact ⟨hlayer, hrow, hp⟩

theorem exists_stands (h : (m.spots l)[v]? = some spot) :
    ∃ rank layer, m.Stands l (v, spot) rank layer := by
  have hv : v < l.vertices.size := by
    rw [← size_centres l.vertices m.spacing (m.order l).1]
    exact (Array.getElem?_eq_some_iff.mp h).1
  have hrank : l.rank? v = some l.vertices[v].rank := by
    rw [Layering.rank?, Array.getElem?_eq_getElem hv]
    rfl
  obtain ⟨layer, hordered, hmem⟩ := exists_layer m hrank
  exact ⟨_, layer, stands_of_spot hordered hmem h⟩

end Standing

section Exact

/-- Between the edges of two vertices there is at least a gap. -/
def SideBySide (vertices : Array (Vertex Rat)) (spacing : Spacing Rat) (p q : Nat × Spot Rat) :
    Prop :=
  rightEdge vertices p + spacing.node ≤ leftEdge vertices q ∨
    rightEdge vertices q + spacing.node ≤ leftEdge vertices p

instance SideBySide.symmetric (vertices : Array (Vertex Rat)) (spacing : Spacing Rat) :
    Std.Symm (SideBySide vertices spacing) := ⟨fun _ _ => Or.symm⟩

variable {m : Method Rat} {l : Layering Rat} {p q : Nat × Spot Rat} {rank r s : Nat}
  {layer other : Layer}

theorem start_eq (m : Method Rat) (l : Layering Rat) (layer : Layer) : m.start l layer =
    m.spacing.node + (m.width l - layerWidth l.vertices m.spacing layer) / 2 := rfl

theorem le_width (h : layer ∈ (m.order l).1) :
    layerWidth l.vertices m.spacing layer ≤ m.width l := le_largest (List.mem_map_of_mem h)

section

variable (hwidth : ∀ v, 0 ≤ widthOf l.vertices v) (hnode : 0 ≤ m.spacing.node)
include hwidth hnode

theorem Stands.within (h : m.Stands l p rank layer) :
    m.spacing.node ≤ leftEdge l.vertices p ∧
      rightEdge l.vertices p ≤ m.spacing.node + m.width l := by
  have hle := le_width (List.mem_of_getElem? h.ordered)
  have hleft := le_leftEdge hwidth hnode h.placed
  have hright := rightEdge_le hwidth hnode h.placed
  rw [start_eq] at hleft hright
  constructor <;> linarith

theorem Stands.beside (hp : m.Stands l p rank layer) (hq : m.Stands l q rank other) (hne : p ≠ q) :
    SideBySide l.vertices m.spacing p q := by
  obtain rfl : layer = other := Option.some.inj (hp.ordered.symm.trans hq.ordered)
  have hy : q.2.y = p.2.y := Option.some.inj (hq.row.symm.trans hp.row)
  have hplaced := hq.placed
  rw [hy] at hplaced
  have hpairs : (placeRow l.vertices m.spacing p.2.y (m.start l layer) layer).Pairwise
      (SideBySide l.vertices m.spacing) := (pairwise_placeRow hwidth hnode _ _ layer).imp .inl
  exact hpairs.forall hp.placed hplaced hne

end

theorem Stands.below (hp : m.Stands l p r layer) (hq : m.Stands l q s other) (hrs : r < s)
    (hlayer : 0 ≤ m.spacing.layer) :
    p.2.y + layerHeight l.vertices layer / 2 + m.spacing.layer ≤
      q.2.y - layerHeight l.vertices other / 2 :=
  row_below hlayer hrs hp.ordered hp.row hq.ordered hq.row

theorem spot_of_mem_placeRow {y : Rat} (hordered : (m.order l).1[rank]? = some layer)
    (hrow : (m.rows l)[rank]? = some y) (hnodup : layer.Nodup)
    (hp : p ∈ placeRow l.vertices m.spacing y (m.start l layer) layer) :
    (m.spots l)[p.1]? = some p.2 := by
  obtain ⟨v, spot⟩ := p
  have hv : v ∈ layer := fst_mem_of_mem_placeRow hp
  obtain ⟨spot', hspot, -⟩ := row_of_spot (m := m) ((mem_order_iff hordered).mp hv)
  have hstands := stands_of_spot hordered hv hspot
  have hy : spot'.y = y := Option.some.inj (hstands.row.symm.trans hrow)
  have hplaced := hstands.placed
  rw [hy] at hplaced
  have hdistinct : ((placeRow l.vertices m.spacing y (m.start l layer) layer).map
      (·.1)).Nodup := by rwa [map_fst_placeRow]
  cases List.inj_on_of_nodup_map hdistinct hplaced hp rfl
  exact hspot

structure Centred (m : Method Rat) (l : Layering Rat) (layer : Layer)
    (first last : Nat × Spot Rat) : Prop where
  begins : first.1 ∈ layer ∧ (m.spots l)[first.1]? = some first.2
  ends : last.1 ∈ layer ∧ (m.spots l)[last.1]? = some last.2
  between : ∀ v ∈ layer, ∀ spot, (m.spots l)[v]? = some spot →
    leftEdge l.vertices first ≤ leftEdge l.vertices (v, spot) ∧
      rightEdge l.vertices (v, spot) ≤ rightEdge l.vertices last
  extent : rightEdge l.vertices last - leftEdge l.vertices first =
    layerWidth l.vertices m.spacing layer
  middle : (leftEdge l.vertices first + rightEdge l.vertices last) / 2 =
    m.spacing.node + m.width l / 2

theorem exists_centred (hwidth : ∀ v, 0 ≤ widthOf l.vertices v) (hnode : 0 ≤ m.spacing.node)
    (hordered : (m.order l).1[rank]? = some layer) (hnodup : layer.Nodup) (hne : layer ≠ []) :
    ∃ first last, Centred m l layer first last := by
  have hrank : rank < (m.rows l).length := by
    rw [rows, length_rowsFrom]
    exact (List.getElem?_eq_some_iff.mp hordered).1
  have hspot : ∀ p ∈ placeRow l.vertices m.spacing (m.rows l)[rank] (m.start l layer) layer,
      p.1 ∈ layer ∧ (m.spots l)[p.1]? = some p.2 := fun p hp =>
    ⟨fst_mem_of_mem_placeRow hp,
      spot_of_mem_placeRow hordered (List.getElem?_eq_getElem hrank) hnodup hp⟩
  obtain ⟨⟨first, hfirst, hleft⟩, last, hlast, hright⟩ :=
    ends_placeRow l.vertices m.spacing (m.rows l)[rank] (m.start l layer) hne
  have hstart := start_eq m l layer
  refine ⟨first, last, hspot first hfirst, hspot last hlast, fun v hv spot hvspot => ?_,
    by linarith, by linarith⟩
  have hplaced := (stands_of_spot hordered hv hvspot).placed
  rw [hleft, hright]
  exact ⟨le_leftEdge hwidth hnode hplaced, rightEdge_le hwidth hnode hplaced⟩

end Exact

section Nodes

variable {m : Method Rat} {g : Graph Rat} {ranks : List Nat} {oriented : List Oriented}
  {back : List Pair} {v : Nat} {a : Box Rat}

structure Boxed (m : Method Rat) (l : Layering Rat) (v : Nat) (a : Box Rat) (rank : Nat)
    (layer : Layer) : Prop where
  stands : m.Stands l (v, { x := a.x, y := a.y }) rank layer
  left : leftEdge l.vertices (v, { x := a.x, y := a.y }) = a.left
  right : rightEdge l.vertices (v, { x := a.x, y := a.y }) = a.right
  height : a.height ≤ layerHeight l.vertices layer

theorem boxed_of_redraw {chains : List Chain}
    (ha : (redraw g chains (m.spots (layering g ranks oriented)) back).nodes[v]? = some a) :
    ∃ layer, Boxed m (layering g ranks oriented) v a (ranks.getD v 0) layer := by
  simp only [redraw, List.getElem?_map, List.getElem?_zipIdx, Option.map_map] at ha
  obtain ⟨n, hn, ha⟩ := Option.map_eq_some_iff.mp ha
  have hvertex := vertex_of_node ranks oriented hn
  have hrank := rank?_of_node ranks oriented (List.getElem?_eq_some_iff.mp hn).1
  obtain ⟨spot, hspot, -⟩ := row_of_spot (m := m) hrank
  obtain ⟨layer, hordered, hmem⟩ := exists_layer m hrank
  have hwidth : widthOf (layering g ranks oriented).vertices v = n.width := by
    rw [widthOf, hvertex]
  have hheight : heightOf? (layering g ranks oriented).vertices v = some n.height := by
    rw [heightOf?, hvertex]
    rfl
  simp only [Function.comp, Nat.zero_add, hspot] at ha
  subst ha
  refine ⟨layer, stands_of_spot hordered hmem hspot, ?_, ?_, le_layerHeight hmem hheight⟩
  · rw [leftEdge, hwidth, Box.left]
  · rw [rightEdge, hwidth, Box.right]

end Nodes

section Edges

variable {α : Type} {g : Graph α} {chains : List Chain} {spots : Array (Spot α)} {back : List Pair}
  {i : Nat} {e : Link α} {p : Spot α}

theorem exists_spot_of_mem_bendPoints (h : p ∈ bendPoints chains spots back e i) :
    ∃ v : Nat, spots[v]? = some p := by
  unfold bendPoints at h
  split at h
  · cases h
  · next chain _ =>
    have hp : p ∈ chain.inner.filterMap fun v => spots[v]? := by
      dsimp only at h
      split at h
      · exact List.mem_reverse.mp h
      · exact h
    obtain ⟨v, -, hv⟩ := List.mem_filterMap.mp hp
    exact ⟨v, hv⟩

theorem exists_link_of_redraw (h : e ∈ (redraw g chains spots back).edges) :
    ∃ (i : Nat) (given : Link α), g.edges[i]? = some given ∧ e.source = given.source ∧
      e.target = given.target ∧ e.points = bendPoints chains spots back given i := by
  obtain ⟨⟨given, i⟩, hgiven, rfl⟩ := List.mem_map.mp h
  exact ⟨i, given, List.mk_mem_zipIdx_iff_getElem?.mp hgiven, rfl, rfl, rfl⟩

theorem exists_oriented_of_redraw (h : e ∈ (redraw g chains spots back).edges)
    (hne : e.source ≠ e.target) : ∃ i, e.oriented back i ∈ g.orient back := by
  obtain ⟨i, given, hgiven, hsource, htarget, -⟩ := exists_link_of_redraw h
  refine ⟨i, mem_orient_iff.mpr ⟨i, given, hgiven, by rwa [← hsource, ← htarget], ?_⟩⟩
  rw [Link.oriented, Link.oriented, Link.isReversed, Link.isReversed, hsource, htarget]

end Edges

/-- Nothing overlaps in a drawing: boxes are apart, all is drawn within the width of the widest
layer, and every layer is in the middle. Edges lead downward but for those of `back`. -/
structure Clear (m : Method Rat) (l : Layering Rat) (back : List Pair) (ranks : List Nat)
    (drawn : Graph Rat) : Prop where
  disjoint : ∀ (v w : Nat) (a b : Box Rat), v ≠ w →
    drawn.nodes[v]? = some a → drawn.nodes[w]? = some b → Disjoint a.interior b.interior
  apart : ∀ (v w : Nat) (a b : Box Rat), v ≠ w →
    drawn.nodes[v]? = some a → drawn.nodes[w]? = some b → ranks.getD v 0 = ranks.getD w 0 →
      a.right + m.spacing.node ≤ b.left ∨ b.right + m.spacing.node ≤ a.left
  widest : drawn.nodes ≠ [] → IsGreatest
    {w | ∃ layer ∈ (m.order l).1, layerWidth l.vertices m.spacing layer = w} (m.width l)
  boxes : ∀ a ∈ drawn.nodes,
    m.spacing.node ≤ a.left ∧ a.right ≤ m.spacing.node + m.width l
  bends : ∀ e ∈ drawn.edges, ∀ p ∈ e.points,
    m.spacing.node ≤ p.x ∧ p.x ≤ m.spacing.node + m.width l
  centred : ∀ layer ∈ (m.order l).1, ∃ first last, Centred m l layer first last
  downward : 0 < m.spacing.layer → ∀ e ∈ drawn.edges, e.source ≠ e.target →
    e.isReversed back = false → ∃ a b, drawn.nodes[e.source]? = some a ∧
      drawn.nodes[e.target]? = some b ∧ a.y < b.y
  upward : 0 < m.spacing.layer → ∀ e ∈ drawn.edges, e.isReversed back = true →
    ∃ a b, drawn.nodes[e.source]? = some a ∧ drawn.nodes[e.target]? = some b ∧ b.y < a.y

section Drawings

variable {m : Method Rat} {g : Graph Rat} {back : List Pair} {ranks : List Nat} {v w : Nat}
  {a b : Box Rat} {la lb : Layer}

theorem Boxed.beside {l : Layering Rat} {rank : Nat} (hwidth : ∀ v, 0 ≤ widthOf l.vertices v)
    (hnode : 0 ≤ m.spacing.node) (ha : Boxed m l v a rank la) (hb : Boxed m l w b rank lb)
    (hne : v ≠ w) :
    a.right + m.spacing.node ≤ b.left ∨ b.right + m.spacing.node ≤ a.left := by
  have hside := ha.stands.beside hwidth hnode hb.stands fun heq => hne (congrArg Prod.fst heq)
  rw [SideBySide, ha.left, ha.right, hb.left, hb.right] at hside
  exact hside

theorem Boxed.below {l : Layering Rat} {r s : Nat} (hlayer : 0 ≤ m.spacing.layer)
    (ha : Boxed m l v a r la) (hb : Boxed m l w b s lb) (hrs : r < s) :
    a.bottom + m.spacing.layer ≤ b.top := by
  have hbelow := ha.stands.below hb.stands hrs hlayer
  have hupper := ha.height
  have hlower := hb.height
  rw [Box.bottom, Box.top]
  linarith

/-- Boxes of one layer are beside each other, all others one below the other. -/
theorem Boxed.disjoint {l : Layering Rat} {r s : Nat} (hwidth : ∀ v, 0 ≤ widthOf l.vertices v)
    (hnode : 0 ≤ m.spacing.node) (hlayer : 0 ≤ m.spacing.layer) (ha : Boxed m l v a r la)
    (hb : Boxed m l w b s lb) (hne : v ≠ w) : Disjoint a.interior b.interior := by
  rcases lt_trichotomy r s with hlt | rfl | hgt
  · have hbelow := ha.below hlayer hb hlt
    exact Box.disjoint_of_below (by linarith)
  · rcases ha.beside hwidth hnode hb hne with hleft | hright
    · exact Box.disjoint_of_beside (by linarith)
    · exact (Box.disjoint_of_beside (by linarith)).symm
  · have hbelow := hb.below hlayer ha hgt
    exact (Box.disjoint_of_below (by linarith)).symm

theorem Boxed.lower {l : Layering Rat} {r s : Nat} (hlayer : 0 < m.spacing.layer)
    (ha : Boxed m l v a r la) (hb : Boxed m l w b s lb) (hrs : r < s) : a.y < b.y := by
  have hbelow := ha.stands.below hb.stands hrs hlayer.le
  have hupper := zero_le_layerHeight l.vertices la
  have hlower := zero_le_layerHeight l.vertices lb
  linarith

abbrev layered (g : Graph Rat) (back : List Pair) (ranks : List Nat) : Layering Rat :=
  layering g ranks (g.orient back)

abbrev redrawn (m : Method Rat) (g : Graph Rat) (back : List Pair) (ranks : List Nat) : Graph Rat :=
  redraw g (layered g back ranks).chains (m.spots (layered g back ranks)) back

section

variable (h : m.Prepares g back ranks)
include h

theorem exists_lower (hlayer : 0 < m.spacing.layer) {o : Oriented} (ho : o ∈ g.orient back) :
    ∃ a b, (m.redrawn g back ranks).nodes[o.source]? = some a ∧
      (m.redrawn g back ranks).nodes[o.target]? = some b ∧ a.y < b.y := by
  have hlength : (m.redrawn g back ranks).nodes.length = g.nodes.length := by simp [redraw]
  obtain ⟨hsource, htarget⟩ := Graph.orient_lt h.checked o ho
  have ha := List.getElem?_eq_getElem (hlength ▸ hsource)
  have hb := List.getElem?_eq_getElem (hlength ▸ htarget)
  obtain ⟨la, hla⟩ := boxed_of_redraw ha
  obtain ⟨lb, hlb⟩ := boxed_of_redraw hb
  exact ⟨_, _, ha, hb, hla.lower hlayer hlb (h.longest.downward ho)⟩

theorem ne_of_isReversed {e : Link Rat} (he : e ∈ (m.redrawn g back ranks).edges)
    (hrev : e.isReversed back = true) : e.source ≠ e.target := by
  obtain ⟨i, given, hgiven, hsource, htarget, -⟩ := exists_link_of_redraw he
  rw [Link.isReversed, hsource, htarget] at hrev
  rw [hsource, htarget]
  exact ((Graph.breaks_of_backEdges h.checked h.turned).onCycle given
    (List.mem_of_getElem? hgiven) hrev).1.1

theorem layer_ne_nil {rank : Nat} {layer : Layer}
    (hordered : (m.order (layered g back ranks)).1[rank]? = some layer) : layer ≠ [] := by
  have hlt : rank < (layered g back ranks).layerCount := by
    rw [← Layering.length_layers, ← (reordered_order m _).length_eq]
    exact (List.getElem?_eq_some_iff.mp hordered).1
  obtain ⟨v, hv, hrank⟩ := h.graded.filled rank hlt
  have hranked := rank?_of_node ranks (g.orient back) hv
  rw [hrank] at hranked
  exact List.ne_nil_of_mem ((mem_order_iff hordered).mpr hranked)

theorem isGreatest_width (hnode : 0 ≤ m.spacing.node) (hne : (m.redrawn g back ranks).nodes ≠ []) :
    IsGreatest {w | ∃ layer ∈ (m.order (layered g back ranks)).1,
      layerWidth (layered g back ranks).vertices m.spacing layer = w}
      (m.width (layered g back ranks)) := by
  have hwidth := zero_le_widthOf h.checked ranks (g.orient back)
  constructor
  · rcases (isGreatest_largest ((m.order (layered g back ranks)).1.map
      (layerWidth (layered g back ranks).vertices m.spacing))).1 with hzero | hmem
    · -- If the widest layer has no width, then every layer is the widest one.
      have hpos := List.length_pos_iff.mpr hne
      obtain ⟨layer, hstands⟩ := boxed_of_redraw (List.getElem?_eq_getElem hpos)
      have hmem := List.mem_of_getElem? hstands.stands.ordered
      have hle := le_width hmem
      have hzero : m.width (layered g back ranks) = 0 := hzero
      refine ⟨layer, hmem, le_antisymm hle ?_⟩
      rw [hzero]
      exact zero_le_layerWidth hwidth hnode layer
    · exact List.mem_map.mp hmem
  · rintro w ⟨layer, hmem, rfl⟩
    exact le_width hmem

theorem Prepares.clear (hnode : 0 ≤ m.spacing.node) (hlayer : 0 ≤ m.spacing.layer) :
    m.Clear (layered g back ranks) back ranks (m.redrawn g back ranks) := by
  have hwidth := zero_le_widthOf h.checked ranks (g.orient back)
  constructor
  case disjoint =>
    intro v w a b hne ha hb
    obtain ⟨la, hla⟩ := boxed_of_redraw ha
    obtain ⟨lb, hlb⟩ := boxed_of_redraw hb
    exact hla.disjoint hwidth hnode hlayer hlb hne
  case apart =>
    intro v w a b hne ha hb heq
    obtain ⟨la, hla⟩ := boxed_of_redraw ha
    obtain ⟨lb, hlb⟩ := boxed_of_redraw hb
    rw [heq] at hla
    exact hla.beside hwidth hnode hlb hne
  case widest => exact isGreatest_width h hnode
  case boxes =>
    intro a ha
    obtain ⟨v, hv⟩ := List.mem_iff_getElem?.mp ha
    obtain ⟨layer, hboxed⟩ := boxed_of_redraw hv
    have hwithin := hboxed.stands.within hwidth hnode
    rwa [hboxed.left, hboxed.right] at hwithin
  case bends =>
    intro e he p hp
    obtain ⟨i, given, -, -, -, hpoints⟩ := exists_link_of_redraw he
    obtain ⟨v, hv⟩ := exists_spot_of_mem_bendPoints (hpoints ▸ hp)
    obtain ⟨rank, layer, hstands⟩ := exists_stands hv
    obtain ⟨hleft, hright⟩ := hstands.within hwidth hnode
    have hpos := hwidth v
    rw [leftEdge] at hleft
    rw [rightEdge] at hright
    dsimp only at hleft hright
    constructor <;> linarith
  case centred =>
    intro layer hmem
    obtain ⟨rank, hordered⟩ := List.mem_iff_getElem?.mp hmem
    exact exists_centred hwidth hnode hordered
      (Layering.nodup_of_reordered (reordered_order m _) hmem) (layer_ne_nil h hordered)
  case downward =>
    intro hpos e he hne hkept
    obtain ⟨i, ho⟩ := exists_oriented_of_redraw he hne
    have hlower := exists_lower h hpos ho
    rwa [Link.oriented, hkept] at hlower
  case upward =>
    intro hpos e he hrev
    obtain ⟨i, ho⟩ := exists_oriented_of_redraw he (ne_of_isReversed h he hrev)
    obtain ⟨a, b, ha, hb, hlt⟩ := exists_lower h hpos ho
    rw [Link.oriented, hrev] at ha hb
    exact ⟨b, a, hb, ha, hlt⟩

end

end Drawings

end Method

end PagedNets.Layered
