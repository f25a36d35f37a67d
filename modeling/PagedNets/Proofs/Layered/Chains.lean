import Mathlib.Data.List.Count
import PagedNets.Proofs.Layered.Ranks
import PagedNets.Proofs.Listwise

/-!
Edges led through the layers. The vertices between the ends of an edge belong to its chain alone and
stand one on each layer, so that all steps join adjacent layers. The tables of neighbours list these
steps, once from above and once from below.
-/

set_option autoImplicit false

namespace PagedNets.Layered

section Tables

variable {n v w : Nat} {pairs : List Pair}

theorem getElem?_foldl_modify (pairs : List Pair) (t : Array (List Nat)) (v : Nat) :
    (pairs.foldl (fun t p => t.modify p.1 (· ++ [p.2])) t)[v]? =
      t[v]?.map (· ++ (pairs.filter fun p => p.1 == v).map (·.2)) := by
  induction pairs generalizing t with
  | nil => simp
  | cons p pairs ih =>
    rw [List.foldl_cons, ih, Array.getElem?_modify]
    by_cases hp : p.1 = v <;> simp [hp, Function.comp_def]

theorem getD_neighbourTable (pairs : List Pair) (hv : v < n) :
    (neighbourTable n pairs).getD v [] = (pairs.filter fun p => p.1 == v).map (·.2) := by
  rw [Array.getD_eq_getD_getElem?, neighbourTable, getElem?_foldl_modify,
    Array.getElem?_replicate, if_pos hv]
  rfl

theorem count_seconds (pairs : List Pair) (v w : Nat) :
    ((pairs.filter fun p => p.1 == v).map (·.2)).count w = pairs.count (v, w) := by
  induction pairs with
  | nil => rfl
  | cons p pairs ih =>
    obtain ⟨a, b⟩ := p
    by_cases hv : a = v
    · subst hv
      by_cases hw : b = w <;> simp [hw, ih]
    · simp [hv, ih]

theorem count_neighbourTable (h : ∀ p ∈ pairs, p.1 < n) (v w : Nat) :
    ((neighbourTable n pairs).getD v []).count w = pairs.count (v, w) := by
  by_cases hv : v < n
  · rw [getD_neighbourTable pairs hv, count_seconds]
  · have hnone : (v, w) ∉ pairs := fun hmem => hv (h _ hmem)
    have hsize : (neighbourTable n pairs)[v]? = none := by
      rw [neighbourTable, getElem?_foldl_modify, Array.getElem?_replicate, if_neg hv]
      rfl
    rw [Array.getD_eq_getD_getElem?, hsize, List.count_eq_zero_of_not_mem hnone]
    rfl

end Tables

variable {α : Type}

def Layering.rank? (l : Layering α) (v : Nat) : Option Nat := l.vertices[v]?.map (·.rank)

/-- The chain of an edge leads from its upper end to its lower one, through one vertex on each layer
between them. -/
structure Chain.Leads (l : Layering α) (ranks : List Nat) (o : Oriented) (c : Chain) : Prop where
  edge : c.edge = o.edge
  source : c.source = o.source
  target : c.target = o.target
  inner : c.inner.map l.rank? =
    (List.range' (ranks.getD o.source 0 + 1)
      (ranks.getD o.target 0 - (ranks.getD o.source 0 + 1))).map some

/-- What chains make of the edges. The vertices that they add are numbered after the nodes, each for
one chain alone. Neighbours are listed above and below alike, and are on adjacent layers. -/
structure Layering.Expands (l : Layering α) (g : Graph α) (ranks : List Nat)
    (oriented : List Oriented) : Prop where
  nodes : ∀ v < g.nodes.length, l.rank? v = some (ranks.getD v 0)
  chains : List.Forall₂ (Chain.Leads l ranks) oriented l.chains
  own : l.chains.flatMap (·.inner) =
    List.range' g.nodes.length (l.vertices.size - g.nodes.length)
  listed : ∀ v w, (l.below.getD v []).count w = l.segments.count (v, w)
  inverse : ∀ v w, (l.above.getD w []).count v = (l.below.getD v []).count w
  adjacent : ∀ v w, w ∈ l.below.getD v [] →
    ∃ rank, l.rank? v = some rank ∧ l.rank? w = some (rank + 1)

section Numbering

variable [Scalar α] {ranks : List Nat} {oriented : List Oriented}

theorem length_innerVertices (ranks : List Nat) (o : Oriented) :
    (innerVertices ranks o : List (Vertex α)).length = o.gap ranks := by
  simp [innerVertices]

theorem ranks_range' (before after : List (Vertex α)) (ranks : List Nat) (o : Oriented) :
    (List.range' before.length (o.gap ranks)).map
        (fun v => ((before ++ innerVertices ranks o ++ after)[v]?).map (·.rank)) =
      (List.range' (ranks.getD o.source 0 + 1) (o.gap ranks)).map some := by
  refine List.ext_getElem (by simp) fun i hi _ => ?_
  have hgap : i < o.gap ranks := by simpa using hi
  have hinner : i < (innerVertices ranks o : List (Vertex α)).length := by
    rwa [length_innerVertices]
  simp only [List.getElem_map, List.getElem_range', Nat.one_mul, List.append_assoc]
  rw [List.getElem?_append_right (Nat.le_add_right _ _), Nat.add_sub_cancel_left,
    List.getElem?_append_left hinner, List.getElem?_eq_getElem hinner]
  simp [innerVertices]

theorem leads_chainsFrom (before : List (Vertex α)) (ranks : List Nat)
    (oriented : List Oriented) {l : Layering α}
    (h : l.vertices.toList = before ++ oriented.flatMap (innerVertices ranks)) :
    List.Forall₂ (Chain.Leads l ranks) oriented (chainsFrom ranks before.length oriented) := by
  induction oriented generalizing before with
  | nil => exact .nil
  | cons o oriented ih =>
    rw [List.flatMap_cons, ← List.append_assoc] at h
    refine .cons ⟨rfl, rfl, rfl, ?_⟩ ?_
    · have hranks := ranks_range' before (oriented.flatMap (innerVertices ranks)) ranks o
      rw [← h] at hranks
      simp only [Array.getElem?_toList] at hranks
      exact hranks
    · have hrest := ih (before ++ innerVertices ranks o) h
      rwa [List.length_append, length_innerVertices] at hrest

theorem flatMap_inner (next : Nat) (ranks : List Nat) (oriented : List Oriented) :
    (chainsFrom ranks next oriented).flatMap (·.inner) =
      List.range' next (oriented.flatMap (innerVertices ranks) : List (Vertex α)).length := by
  induction oriented generalizing next with
  | nil => rfl
  | cons o oriented ih =>
    rw [chainsFrom, List.flatMap_cons, ih, List.flatMap_cons, List.length_append,
      length_innerVertices, List.range'_append_1]

end Numbering

section Steps

variable {β : Type}

theorem rank_succ_of_mem_zip {rank? : Nat → Option Nat} {stops : List Nat} {first count : Nat}
    (h : stops.map rank? = (List.range' first count).map some) {s : Pair}
    (hs : s ∈ stops.zip stops.tail) :
    ∃ rank, rank? s.1 = some rank ∧ rank? s.2 = some (rank + 1) := by
  induction stops generalizing first count with
  | nil => cases hs
  | cons v stops ih =>
    cases stops with
    | nil => cases hs
    | cons w stops =>
      obtain ⟨count, rfl⟩ : ∃ more, count = more + 2 := by
        have hlength := congrArg List.length h
        simp only [List.length_map, List.length_cons, List.length_range'] at hlength
        exact ⟨stops.length, hlength.symm⟩
      simp only [List.map_cons, List.range'_succ, List.cons.injEq] at h
      obtain ⟨hv, hw, hrest⟩ := h
      rcases List.mem_cons.mp hs with rfl | hs
      · exact ⟨first, hv, hw⟩
      · have hbelow : (w :: stops).map rank? =
            (List.range' (first + 1) (count + 1)).map some := by
          simp only [List.map_cons, List.range'_succ, hw, hrest]
        exact ih hbelow hs

variable {l : Layering α} {ranks : List Nat} {o : Oriented} {c : Chain}

theorem Chain.segments_eq (c : Chain) : c.segments = c.stops.zip c.stops.tail := rfl

/-- The stops of a chain stand on all layers from its upper end to its lower one. -/
theorem Chain.Leads.ranks_stops (h : c.Leads l ranks o)
    (hsource : l.rank? o.source = some (ranks.getD o.source 0))
    (htarget : l.rank? o.target = some (ranks.getD o.target 0))
    (hlt : ranks.getD o.source 0 < ranks.getD o.target 0) :
    c.stops.map l.rank? =
      (List.range' (ranks.getD o.source 0) (o.gap ranks + 2)).map some := by
  have hlast : ranks.getD o.target 0 = ranks.getD o.source 0 + 1 + o.gap ranks := by
    unfold Oriented.gap
    omega
  rw [List.range'_succ, List.range'_1_concat, ← hlast]
  simp only [stops, h.source, h.target, List.map_append, List.map_cons, List.map_nil, hsource,
    htarget, h.inner, List.cons_append]
  rfl

end Steps

section Expands

theorem Layering.lt_size_of_rank? {l : Layering α} {v rank : Nat} (h : l.rank? v = some rank) :
    v < l.vertices.size := by
  obtain ⟨x, hx, -⟩ := Option.map_eq_some_iff.mp h
  exact (Array.getElem?_eq_some_iff.mp hx).1

variable [Scalar α] {g : Graph α} {ranks : List Nat} {oriented : List Oriented}

theorem rank?_of_node (ranks : List Nat) (oriented : List Oriented) {v : Nat}
    (hv : v < g.nodes.length) :
    (layering g ranks oriented).rank? v = some (ranks.getD v 0) := by
  obtain ⟨x, hx, hrank⟩ := rank_of_node ranks oriented hv
  rw [Layering.rank?, hx, ← hrank]
  rfl

omit [Scalar α] in
theorem length_nodeVertices (g : Graph α) (ranks : List Nat) :
    (nodeVertices g ranks).length = g.nodes.length := by
  simp [nodeVertices]

theorem leads_layering (g : Graph α) (ranks : List Nat) (oriented : List Oriented) :
    List.Forall₂ (Chain.Leads (layering g ranks oriented) ranks) oriented
      (layering g ranks oriented).chains := by
  have hleads := leads_chainsFrom (nodeVertices g ranks) ranks oriented
    (l := layering g ranks oriented) rfl
  rwa [length_nodeVertices] at hleads

section

variable (h : Longest (oriented.map Oriented.ends) g.nodes.length ranks)
  (hends : ∀ o ∈ oriented, o.source < g.nodes.length ∧ o.target < g.nodes.length)
include h hends

theorem rank?_of_mem_segments {s : Pair} (hs : s ∈ (layering g ranks oriented).segments) :
    ∃ rank, (layering g ranks oriented).rank? s.1 = some rank ∧
      (layering g ranks oriented).rank? s.2 = some (rank + 1) := by
  obtain ⟨c, hc, hs⟩ := List.mem_flatMap.mp hs
  obtain ⟨o, ho, hleads⟩ := exists_left_of_forall₂ (leads_layering g ranks oriented) hc
  obtain ⟨hsource, htarget⟩ := hends o ho
  have hstops := hleads.ranks_stops (rank?_of_node ranks oriented hsource)
    (rank?_of_node ranks oriented htarget) (h.downward ho)
  rw [c.segments_eq] at hs
  exact rank_succ_of_mem_zip hstops hs

theorem count_below (v w : Nat) : ((layering g ranks oriented).below.getD v []).count w =
    (layering g ranks oriented).segments.count (v, w) := by
  refine count_neighbourTable (fun s hs => ?_) v w
  obtain ⟨rank, hupper, -⟩ := rank?_of_mem_segments h hends hs
  exact Layering.lt_size_of_rank? hupper

theorem count_above (v w : Nat) : ((layering g ranks oriented).above.getD w []).count v =
    (layering g ranks oriented).segments.count (v, w) := by
  rw [Layering.above, count_neighbourTable (List.forall_mem_map.mpr fun s hs => ?_) w v]
  · exact List.count_map_of_injective _ Prod.swap Prod.swap_injective (v, w)
  · obtain ⟨rank, -, hlower⟩ := rank?_of_mem_segments h hends hs
    exact Layering.lt_size_of_rank? hlower

theorem expands_layering : (layering g ranks oriented).Expands g ranks oriented := by
  refine ⟨fun v hv => rank?_of_node ranks oriented hv, leads_layering g ranks oriented, ?_,
    count_below h hends, fun v w => ?_, fun v w hw => ?_⟩
  · have hsize : (layering g ranks oriented).vertices.size =
        g.nodes.length + (oriented.flatMap (innerVertices ranks) : List (Vertex α)).length := by
      simp [layering, length_nodeVertices]
    rw [hsize, Nat.add_sub_cancel_left]
    exact flatMap_inner g.nodes.length ranks oriented
  · rw [count_above h hends, count_below h hends]
  · refine rank?_of_mem_segments h hends (s := (v, w)) (List.count_pos_iff.mp ?_)
    rw [← count_below h hends]
    exact List.count_pos_iff.mpr hw

end

end Expands

end PagedNets.Layered
