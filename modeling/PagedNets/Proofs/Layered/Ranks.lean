import PagedNets.Proofs.Layered.Cycles
import PagedNets.Proofs.Layered.Stages

set_option autoImplicit false

namespace PagedNets.Layered

open Relation

theorem foldl_max_le_iff {l : List Nat} {a b : Nat} :
    l.foldl max a ≤ b ↔ a ≤ b ∧ ∀ x ∈ l, x ≤ b := by
  induction l generalizing a with
  | nil => simp
  | cons x l ih =>
    rw [List.foldl_cons, ih, List.forall_mem_cons, ← and_assoc]
    exact and_congr_left fun _ => Nat.max_le

variable {α : Type}

namespace Layering

variable {l : Layering α} {rank v : Nat} {layer : Layer}

theorem lt_layerCount_iff : rank < l.layerCount ↔ ∃ x ∈ l.vertices, rank ≤ x.rank := by
  have hle : l.layerCount ≤ rank ↔ ∀ x ∈ l.vertices, x.rank < rank := by
    rw [layerCount, foldl_max_le_iff]
    simp only [List.forall_mem_map, Array.mem_toList_iff, Nat.zero_le, true_and]
    rfl
  rw [← Nat.not_le, hle]
  simp

theorem length_layers (l : Layering α) : l.layers.length = l.layerCount := by simp [layers]

theorem mem_layer_iff (h : l.layers[rank]? = some layer) :
    v ∈ layer ↔ ∃ x, l.vertices[v]? = some x ∧ x.rank = rank := by
  have hlt : rank < l.layerCount := by
    rw [← length_layers]
    exact (List.getElem?_eq_some_iff.mp h).1
  simp only [layers, List.getElem?_map, List.getElem?_range hlt, Option.map_some,
    Option.some.injEq] at h
  rw [← h]
  simp only [List.mem_map, List.mem_filter, beq_iff_eq]
  constructor
  · rintro ⟨⟨x, i⟩, ⟨hx, hrank⟩, rfl⟩
    rw [List.mk_mem_zipIdx_iff_getElem?, Array.getElem?_toList] at hx
    exact ⟨x, hx, hrank⟩
  · rintro ⟨x, hx, hrank⟩
    rw [← Array.getElem?_toList, ← List.mk_mem_zipIdx_iff_getElem?] at hx
    exact ⟨(x, v), ⟨hx, hrank⟩, rfl⟩

end Layering

section Nodes

variable [Scalar α] {g : Graph α} {ranks : List Nat} {oriented : List Oriented} {v : Nat}

omit [Scalar α] in
theorem getElem?_nodeVertices (g : Graph α) (ranks : List Nat) (v : Nat) :
    (nodeVertices g ranks)[v]? = (g.nodes[v]?).map fun n =>
      { rank := ranks.getD v 0, width := n.width, height := some n.height } := by
  simp only [nodeVertices, List.getElem?_map, List.getElem?_zipIdx, Option.map_map, Nat.zero_add]
  rfl

theorem vertex_of_node {n : Box α} (ranks : List Nat) (oriented : List Oriented)
    (hv : g.nodes[v]? = some n) : (layering g ranks oriented).vertices[v]? =
      some { rank := ranks.getD v 0, width := n.width, height := some n.height } := by
  have hlength : v < (nodeVertices g ranks).length := by
    simpa [nodeVertices] using (List.getElem?_eq_some_iff.mp hv).1
  simp only [layering, List.getElem?_toArray]
  rw [List.getElem?_append_left hlength, getElem?_nodeVertices, hv]
  rfl

theorem rank_of_node (ranks : List Nat) (oriented : List Oriented) (hv : v < g.nodes.length) :
    ∃ x, (layering g ranks oriented).vertices[v]? = some x ∧ x.rank = ranks.getD v 0 :=
  ⟨_, vertex_of_node ranks oriented (List.getElem?_eq_getElem hv), rfl⟩

theorem mem_vertices {x : Vertex α} (hx : x ∈ (layering g ranks oriented).vertices) :
    (∃ v < g.nodes.length, x.rank = ranks.getD v 0) ∨
      ∃ o ∈ oriented, x.rank < ranks.getD o.target 0 := by
  simp only [layering, List.mem_toArray, List.mem_append, List.mem_flatMap] at hx
  rcases hx with hx | ⟨o, ho, hx⟩
  · left
    obtain ⟨⟨n, v⟩, hn, rfl⟩ := List.mem_map.mp hx
    exact ⟨v, List.snd_lt_of_mem_zipIdx hn, rfl⟩
  · right
    obtain ⟨rank, hrank, rfl⟩ := List.mem_map.mp hx
    refine ⟨o, ho, ?_⟩
    obtain ⟨hle, hlt⟩ := List.mem_range'_1.mp hrank
    simp only [Oriented.gap] at hlt ⊢
    omega

theorem lt_layerCount_iff {rank : Nat}
    (hends : ∀ o ∈ oriented, o.source < g.nodes.length ∧ o.target < g.nodes.length) :
    rank < (layering g ranks oriented).layerCount ↔
      ∃ v < g.nodes.length, rank ≤ ranks.getD v 0 := by
  rw [Layering.lt_layerCount_iff]
  constructor
  · rintro ⟨x, hx, hrank⟩
    rcases mem_vertices hx with ⟨v, hv, heq⟩ | ⟨o, ho, hlt⟩
    · exact ⟨v, hv, heq ▸ hrank⟩
    · exact ⟨o.target, (hends o ho).2, by omega⟩
  · rintro ⟨v, hv, hrank⟩
    obtain ⟨x, hx, heq⟩ := rank_of_node ranks oriented hv
    exact ⟨x, Array.mem_of_getElem? hx, heq ▸ hrank⟩

end Nodes

structure Graded (g : Graph α) (oriented : List Oriented) (ranks : List Nat) (count : Nat) :
    Prop where
  longest : Longest (oriented.map Oriented.ends) g.nodes.length ranks
  downward : ∀ o ∈ oriented, ranks.getD o.source 0 < ranks.getD o.target 0
  before : ∀ v < g.nodes.length, ∀ rank, ranks.getD v 0 = rank + 1 →
    ∃ o ∈ oriented, o.target = v ∧ ranks.getD o.source 0 = rank
  empty : g.nodes = [] → count = 0
  deepest : g.nodes ≠ [] → ∃ k, IsGreatest
    {k | ∃ v < g.nodes.length, EndsAt (oriented.map Oriented.ends) k v} k ∧ count = k + 1
  filled : ∀ rank < count, ∃ v < g.nodes.length, ranks.getD v 0 = rank

namespace Longest

variable [Scalar α] {g : Graph α} {ranks : List Nat} {oriented : List Oriented} {v rank : Nat}

section

variable (h : Longest (oriented.map Oriented.ends) g.nodes.length ranks)
include h

omit [Scalar α] in
theorem downward {o : Oriented} (ho : o ∈ oriented) :
    ranks.getD o.source 0 < ranks.getD o.target 0 :=
  h.lt_of_mem (List.mem_map_of_mem (f := Oriented.ends) ho)

omit [Scalar α] in
theorem exists_oriented (hv : ranks.getD v 0 = rank + 1) :
    ∃ o ∈ oriented, o.target = v ∧ ranks.getD o.source 0 = rank := by
  obtain ⟨u, hedge, hu⟩ := h.exists_before hv
  obtain ⟨o, ho, hends⟩ := List.mem_map.mp hedge
  obtain ⟨rfl, rfl⟩ := Prod.mk.inj hends
  exact ⟨o, ho, rfl, hu⟩

variable (hends : ∀ o ∈ oriented, o.source < g.nodes.length ∧ o.target < g.nodes.length)
include hends

omit [Scalar α] in
/-- Going up from a node, one comes through all layers above it. -/
theorem exists_above (hv : v < g.nodes.length) (hrank : rank ≤ ranks.getD v 0) :
    ∃ u < g.nodes.length, ranks.getD u 0 = rank := by
  obtain ⟨distance, hdistance⟩ := Nat.exists_eq_add_of_le hrank
  induction distance generalizing v with
  | zero => exact ⟨v, hv, hdistance⟩
  | succ distance ih =>
    have hbelow : ranks.getD v 0 = rank + distance + 1 := hdistance
    obtain ⟨o, ho, -, hsource⟩ := h.exists_oriented hbelow
    exact ih (hends o ho).1 (by omega) hsource

theorem graded : Graded g oriented ranks (layering g ranks oriented).layerCount := by
  refine ⟨h, fun o ho => h.downward ho, fun v _ rank hv => h.exists_oriented hv, ?_, ?_, ?_⟩
  · intro hnil
    by_contra hne
    obtain ⟨v, hv, -⟩ := (lt_layerCount_iff hends).mp (Nat.pos_of_ne_zero hne)
    rw [hnil] at hv
    exact Nat.not_lt_zero v hv
  · intro hne
    have hpos : 0 < (layering g ranks oriented).layerCount :=
      (lt_layerCount_iff hends).mpr ⟨0, List.length_pos_iff.mpr hne, Nat.zero_le _⟩
    obtain ⟨k, hk⟩ := Nat.exists_eq_succ_of_ne_zero (Nat.ne_of_gt hpos)
    refine ⟨k, ⟨?_, ?_⟩, hk⟩
    · obtain ⟨v, hv, hle⟩ := (lt_layerCount_iff hends).mp (hk ▸ Nat.lt_succ_self k)
      obtain ⟨u, hu, hrank⟩ := h.exists_above hends hv hle
      exact ⟨u, hu, hrank ▸ (h.greatest u).1⟩
    · rintro j ⟨v, hv, hj⟩
      have hlt := (lt_layerCount_iff hends).mpr ⟨v, hv, h.le_of_endsAt hj⟩
      omega
  · intro rank hrank
    obtain ⟨v, hv, hle⟩ := (lt_layerCount_iff hends).mp hrank
    exact h.exists_above hends hv hle

end

end Longest

namespace Method

variable [Scalar α] {m : Method α} {g : Graph α} {back : List Pair} {ranks : List Nat}

theorem Prepares.longest (h : m.Prepares g back ranks) :
    Longest ((g.orient back).map Oriented.ends) g.nodes.length ranks := by
  obtain ⟨ranks', hranks, hlongest⟩ :=
    (Graph.breaks_of_backEdges h.checked h.turned).longest h.checked
  rw [h.ranked] at hranks
  cases hranks
  exact hlongest

theorem Prepares.graded (h : m.Prepares g back ranks) :
    Graded g (g.orient back) ranks (layering g ranks (g.orient back)).layerCount :=
  h.longest.graded (Graph.orient_lt h.checked)

/-- Ranks are lengths of longest paths, whatever the topological order that they are found by. So
all edges of a drawing lead downward, there is one more layer than edges on a longest path, and no
layer is without a node. -/
theorem ranks_longest (g : Graph α) :
    (∀ oriented : List Oriented,
      (∀ o ∈ oriented, o.source < g.nodes.length ∧ o.target < g.nodes.length) →
      (∀ v, ¬ TransGen (fun v w => (v, w) ∈ oriented.map Oriented.ends) v v) →
      ∃ ranks, longestPathRanks g oriented = .ok ranks ∧
        Longest (oriented.map Oriented.ends) g.nodes.length ranks ∧
        ∀ order, Topological (oriented.map Oriented.ends) g.nodes.length order →
          ranksAlong (oriented.map Oriented.ends) g.nodes.length order = ranks) ∧
    ∀ (m : Method α) drawn summary, m.draw g = .ok (drawn, summary) →
      ∃ back ranks, m.Prepares g back ranks ∧ Graded g (g.orient back) ranks summary.layers ∧
        (layering g ranks (g.orient back)).layers.length = summary.layers ∧
        ∀ (rank : Nat) (layer : Layer),
          (layering g ranks (g.orient back)).layers[rank]? = some layer →
            ∃ v ∈ layer, v < g.nodes.length := by
  constructor
  · intro oriented hends hacyclic
    obtain ⟨ranks, hranks, hlongest⟩ := longestPathRanks_spec g hends hacyclic
    refine ⟨ranks, hranks, hlongest, fun order horder => hlongest.unique ?_⟩
    exact horder.longest_ranksAlong (List.forall_mem_map.mpr fun o ho => (hends o ho).2)
  · intro m drawn summary hdraw
    obtain ⟨back, ranks, hprepares, -, -, rfl⟩ := draw_eq_ok_iff.mp hdraw
    have hgraded := hprepares.graded
    refine ⟨back, ranks, hprepares, hgraded, Layering.length_layers _, fun rank layer hlayer => ?_⟩
    have hrank : rank < (layering g ranks (g.orient back)).layerCount := by
      rw [← Layering.length_layers]
      exact (List.getElem?_eq_some_iff.mp hlayer).1
    obtain ⟨v, hv, heq⟩ := hgraded.filled rank hrank
    refine ⟨v, (Layering.mem_layer_iff hlayer).mpr ?_, hv⟩
    obtain ⟨x, hx, hxrank⟩ := rank_of_node ranks (g.orient back) hv
    exact ⟨x, hx, hxrank.trans heq⟩

/-- A chain of three nodes with an edge from its first to its last and one back. -/
def shortcut : Graph Rat where
  nodes := [⟨"a", 40, 20, 0, 0⟩, ⟨"b", 40, 30, 0, 0⟩, ⟨"c", 30, 30, 0, 0⟩]
  edges := [⟨"ab", 0, 1, []⟩, ⟨"bc", 1, 2, []⟩, ⟨"ac", 0, 2, []⟩, ⟨"ca", 2, 0, []⟩,
    ⟨"bb", 1, 1, []⟩]

theorem ranks_longest_shortcut :
    (∃ ranks, longestPathRanks shortcut [⟨0, 1, 0⟩, ⟨1, 2, 1⟩, ⟨0, 2, 2⟩] = .ok ranks ∧
      Longest [(0, 1), (1, 2), (0, 2)] 3 ranks ∧
      ranksAlong [(0, 1), (1, 2), (0, 2)] 3 [0, 1, 2] = ranks) ∧
    ∃ drawn, (plainMethod true).draw shortcut = .ok (drawn, ⟨3, 0, 1⟩) ∧
      ∃ back ranks, Graded shortcut (shortcut.orient back) ranks 3 := by
  obtain ⟨drawn, hdraw⟩ : ∃ drawn, (plainMethod true).draw shortcut = .ok (drawn, ⟨3, 0, 1⟩) :=
    exists_draw (by decide +kernel)
  have hahead : ∀ e ∈ [((0, 1) : Pair), (1, 2), (0, 2)], [e.1, e.2].Sublist [0, 1, 2] := by
    decide
  have hforward : ∀ v w, (v, w) ∈ [((0, 1) : Pair), (1, 2), (0, 2)] → Ahead [0, 1, 2] v w :=
    fun v w he => hahead (v, w) he
  have hdistinct : [0, 1, 2].Nodup := by decide
  obtain ⟨hranks, hrun⟩ := ranks_longest shortcut
  obtain ⟨found, hfound, hlongest, horders⟩ := hranks [⟨0, 1, 0⟩, ⟨1, 2, 1⟩, ⟨0, 2, 2⟩] (by decide)
    (Ahead.acyclic hdistinct hforward)
  obtain ⟨back, ranks, -, hgraded, -, -⟩ := hrun (plainMethod true) drawn _ hdraw
  have horder := horders [0, 1, 2] ⟨hdistinct, by decide, fun e he => hforward e.1 e.2 he⟩
  exact ⟨⟨found, hfound, hlongest, horder⟩, drawn, hdraw, back, ranks, hgraded⟩

end Method

end PagedNets.Layered
