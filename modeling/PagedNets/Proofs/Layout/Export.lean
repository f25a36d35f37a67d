import PagedNets.Layout.Page
import PagedNets.Proofs.Document.Adjacency

set_option autoImplicit false

namespace PagedNets.Layout

open Layered (Graph Box Link Spot)

variable {d : Document} {key : ObjectId} {page : Page} {settings : Settings}

theorem map_filterMap_of_some {α β γ : Type} {f : α → Option β} {g : β → γ} {h : α → γ}
    {l : List α} (hf : ∀ a ∈ l, (f a).map g = some (h a)) : (l.filterMap f).map g = l.map h := by
  rw [List.map_filterMap, List.filterMap_congr hf, ← List.filterMap_eq_map]
  rfl

theorem idxOf?_range' {n v : Nat} (h : v < n) : (List.range' 0 n).idxOf? v = some v :=
  List.idxOf?_eq_some_iff.mpr ⟨by simpa using h, by simp, fun j hj => by simp; omega⟩

def linkAlong (d : Document) (e : Edge) : Link Float :=
  { key := e.arc.text, source := e.source, target := e.target, points := curveOf d e.arc }

/-- What makes nothing be left out: the table numbers the vertices, each of them is a node of the
document, and the edges are found under their arcs and run between vertices. -/
structure Complete (d : Document) (page : Page) : Prop where
  numbered : page.nodes.entries = page.graph.vertices.zipIdx
  present : ∀ i ∈ page.graph.vertices, (d.node? i).isSome = true
  arcs : page.arcs.keys = page.graph.edges.map (·.arc)
  found : ∀ e ∈ page.graph.edges, page.edge? e.arc = some e
  anchored : ∀ e ∈ page.graph.edges,
    e.source < page.graph.vertices.length ∧ e.target < page.graph.vertices.length

namespace Complete

variable (h : Complete d page)
include h

theorem keys_nodes : page.nodes.keys = page.graph.vertices := by
  rw [Table.keys, h.numbered, List.zipIdx_map_fst]

theorem entries_nodesOn :
    (nodesOn d page).map (fun n => (n.1, n.2.1)) = page.nodes.entries := by
  have hentry : ∀ e ∈ page.nodes.entries,
      ((d.node? e.1).map fun node => (e.1, e.2, node)).map (fun n => (n.1, n.2.1)) = some e := by
    intro e he
    have hkey : e.1 ∈ page.graph.vertices := h.keys_nodes ▸ List.mem_map_of_mem he
    obtain ⟨node, hnode⟩ := Option.isSome_iff_exists.mp (h.present e.1 hkey)
    rw [hnode]
    rfl
  rw [nodesOn, map_filterMap_of_some (h := id) hentry, List.map_id]

theorem ids_nodesOn : (nodesOn d page).map (·.1) = page.nodes.keys := by
  rw [Table.keys, ← h.entries_nodesOn, List.map_map]
  rfl

theorem vertices_nodesOn :
    (nodesOn d page).map (·.2.1) = List.range' 0 page.graph.vertices.length := by
  calc (nodesOn d page).map (·.2.1)
    _ = ((nodesOn d page).map fun n => (n.1, n.2.1)).map (·.2) := by rw [List.map_map]; rfl
    _ = _ := by rw [h.entries_nodesOn, h.numbered, List.zipIdx_map_snd]

theorem linkOf?_eq {e : Edge} (he : e ∈ page.graph.edges) :
    linkOf? d page ((nodesOn d page).map (·.2.1)) e.arc = some (linkAlong d e) := by
  obtain ⟨hsource, htarget⟩ := h.anchored e he
  simp only [linkOf?, h.found e he, h.vertices_nodesOn, idxOf?_range' hsource,
    idxOf?_range' htarget, bind, Option.bind_some]
  rfl

/-- No `filterMap` of the export drops anything. -/
theorem exportPage_eq : exportPage d page settings =
    { graph :=
        { nodes := (nodesOn d page).map fun n => boxOf settings n.1 n.2.2
          edges := page.graph.edges.map (linkAlong d) }
      nodes := page.nodes.keys
      arcs := page.arcs.keys } := by
  have hlinks : page.arcs.keys.filterMap (fun arc =>
      (linkOf? d page ((nodesOn d page).map (·.2.1)) arc).map fun link => (arc, link)) =
        page.graph.edges.map fun e => (e.arc, linkAlong d e) := by
    rw [h.arcs, List.filterMap_map, ← List.map_id (List.filterMap _ _)]
    refine map_filterMap_of_some fun e he => ?_
    simp only [Function.comp, h.linkOf?_eq he, Option.map_some, id]
  rw [exportPage, hlinks, h.ids_nodesOn, List.map_map, List.map_map, h.arcs]
  rfl

end Complete

theorem complete_of_reachable (hd : d.Reachable Edit.IsPlain) (hp : d.page? key = some page) :
    Complete d page := by
  obtain ⟨hr, ht⟩ := hd.registered_and_tabled
  have ho := Document.page?_eq_some_iff.mp hp
  have howner := (hr.asOwner?_eq_some_iff ho).mpr (.inr ⟨rfl, rfl⟩)
  have hl := ht key (.page page) (.page key) ho howner
  have hs := hd.inStep hp
  have hnodes := ((Document.contained_of_tabled hr ht).nodes key page hp).2
  have hruns : ∀ e ∈ page.graph.edges, ∃ a, Document.Runs page.graph.vertices e a := by
    intro e he
    obtain ⟨a, -, hea⟩ := exists_right_of_forall₂ hs.edges he
    exact ⟨a, hea⟩
  constructor
  case numbered => exact hl.nodes
  case present =>
    intro i hi
    have hkey : i ∈ page.nodes.keys := by
      rw [Table.keys, show page.nodes.entries = _ from hl.nodes, List.zipIdx_map_fst]
      exact hi
    obtain ⟨o, hi, hnode, -⟩ := (hnodes i).mp hkey
    rw [Document.node?, hi, Option.bind_some]
    cases o with
    | place p => rfl
    | transition t => rfl
    | _ => cases hnode
  case arcs =>
    rw [Table.keys, show page.arcs.entries = _ from hl.arcs, List.zipIdx_map_fst]
    rfl
  case found =>
    intro e he
    obtain ⟨k, hk⟩ := List.mem_iff_getElem?.mp he
    rw [Page.edge?, (hs.edge e.arc k).mpr ⟨e, hk, rfl⟩, Option.bind_some, hk]
  case anchored =>
    intro e he
    obtain ⟨a, hea⟩ := hruns e he
    exact ⟨(List.getElem?_eq_some_iff.mp hea.source).1,
      (List.getElem?_eq_some_iff.mp hea.target).1⟩

structure StandsFor (d : Document) (x : Exported) (i : ObjectId) (link : Link Float) (a : Arc) :
    Prop where
  arc : d.arc? i = some a
  key : link.key = i.text
  source : x.nodes[link.source]? = some a.source
  target : x.nodes[link.target]? = some a.target
  sourceKey : (x.graph.nodes[link.source]?).map (·.key) = some a.source.text
  targetKey : (x.graph.nodes[link.target]?).map (·.key) = some a.target.text
  points : link.points = a.curve.map fun p => { x := p.x, y := p.y }

/-- An export is the page: a box for each node on it and a link for each arc on it, each in the
order of its table. -/
structure Depicts (d : Document) (key : ObjectId) (page : Page) (settings : Settings)
    (x : Exported) : Prop where
  nodes : x.nodes = page.nodes.keys
  arcs : x.arcs = page.arcs.keys
  once : x.nodes.Nodup ∧ x.arcs.Nodup
  standing : ∀ i, i ∈ x.nodes ↔
    ∃ o, d.object? i = some o ∧ o.kind.isNode = true ∧ o.owner = some (.page key)
  joining : ∀ i, i ∈ x.arcs ↔ ∃ a, d.arc? i = some a ∧ a.owner = some (.page key)
  boxes : List.Forall₂
    (fun i box => ∃ node, d.node? i = some node ∧ box = boxOf settings i node) x.nodes x.graph.nodes
  links : List.Forall₂ (fun i link => ∃ a, StandsFor d x i link a) x.arcs x.graph.edges

theorem boxes_nodesOn (h : Complete d page) (settings : Settings) :
    List.Forall₂ (fun i box => ∃ node, d.node? i = some node ∧ box = boxOf settings i node)
      page.nodes.keys ((nodesOn d page).map fun n => boxOf settings n.1 n.2.2) := by
  rw [← h.ids_nodesOn, List.forall₂_map_left_iff, List.forall₂_map_right_iff, List.forall₂_same]
  intro n hn
  obtain ⟨e, -, he⟩ := List.mem_filterMap.mp hn
  obtain ⟨node, hnode, rfl⟩ := Option.map_eq_some_iff.mp he
  exact ⟨node, hnode, rfl⟩

theorem key_of_boxes {ids : List ObjectId} {boxes : List (Box Float)}
    (h : List.Forall₂ (fun i box => ∃ node, d.node? i = some node ∧ box = boxOf settings i node)
      ids boxes) (v : Nat) : (boxes[v]?).map (·.key) = (ids[v]?).map (·.text) := by
  rw [← List.getElem?_map, ← List.getElem?_map]
  congr 1
  induction h with
  | nil => rfl
  | cons hbox _ ih =>
    obtain ⟨node, -, rfl⟩ := hbox
    rw [List.map_cons, List.map_cons, ih]
    rfl

theorem depicts_exportPage (hd : d.Reachable Edit.IsPlain) (hp : d.page? key = some page)
    (settings : Settings) : Depicts d key page settings (exportPage d page settings) := by
  have hr := hd.registered
  have hc := Document.contained_of_tabled hr hd.tabled
  have hs := hd.inStep hp
  have h := complete_of_reachable hd hp
  have hboxes := boxes_nodesOn h settings
  rw [h.exportPage_eq]
  refine ⟨rfl, rfl, ⟨(hc.nodes key page hp).1, (hc.arcs key page hp).1⟩,
    (hc.nodes key page hp).2, (hc.arcs key page hp).2, hboxes, ?_⟩
  dsimp only
  rw [h.arcs, List.forall₂_map_left_iff, List.forall₂_map_right_iff, List.forall₂_same]
  intro e he
  obtain ⟨a, ha, hea⟩ := exists_right_of_forall₂ hs.edges he
  have hfound : d.arc? e.arc = some a := by
    rw [hea.arc]
    exact ((Document.mem_arcsOn hr).mp ha).1
  have hsource : page.nodes.keys[e.source]? = some a.source := by
    rw [h.keys_nodes]
    exact hea.source
  have htarget : page.nodes.keys[e.target]? = some a.target := by
    rw [h.keys_nodes]
    exact hea.target
  refine ⟨a, hfound, rfl, hsource, htarget, ?_, ?_, ?_⟩
  · rw [key_of_boxes hboxes, linkAlong, hsource, Option.map_some]
  · rw [key_of_boxes hboxes, linkAlong, htarget, Option.map_some]
  · rw [linkAlong, curveOf, hfound]

end PagedNets.Layout
