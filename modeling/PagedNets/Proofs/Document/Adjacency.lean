import PagedNets.Proofs.Document.Nesting
import PagedNets.Proofs.Listwise

set_option autoImplicit false

namespace PagedNets

/-- No two edges run between the same vertices in the same direction. -/
def Adjacency.Simple (g : Adjacency) : Prop := (g.edges.map fun e => (e.source, e.target)).Nodup

namespace Adjacency

variable {g : Adjacency}

theorem findEdge?_eq_none {v w : Nat} :
    g.findEdge? v w = none ↔ (v, w) ∉ g.edges.map fun e => (e.source, e.target) := by
  simp [findEdge?, List.find?_eq_none]

theorem findEdge?_eq_some {v w : Nat} {e : Edge} (h : g.findEdge? v w = some e) :
    e ∈ g.edges ∧ e.source = v ∧ e.target = w := by
  have hm := List.mem_of_find?_eq_some h
  have hp := List.find?_some h
  exact ⟨List.mem_reverse.mp hm, by simpa using hp⟩

theorem Simple.eq_of_ends (h : g.Simple) {e f : Edge} (he : e ∈ g.edges) (hf : f ∈ g.edges)
    (hs : e.source = f.source) (ht : e.target = f.target) : e = f :=
  List.inj_on_of_nodup_map h he hf (Prod.ext hs ht)

theorem Simple.addEdge (h : g.Simple) {e : Edge} (he : g.findEdge? e.source e.target = none) :
    (g.addEdge e).Simple := by
  rw [findEdge?_eq_none] at he
  unfold Simple Adjacency.addEdge
  rw [List.map_append]
  refine List.nodup_append.mpr ⟨h, by simp, fun a ha b hb hab => he ?_⟩
  rw [List.map_singleton, List.mem_singleton] at hb
  rw [← hb, ← hab]
  exact ha

end Adjacency

theorem Object.edges_adopt (child container : Object) :
    (child.adopt container).tables.graph.edges = container.tables.graph.edges ∨
      ∃ a p v w, child = .arc a ∧ container = .page p ∧ p.vertex? a.source = some v ∧
        p.vertex? a.target = some w ∧
        (child.adopt container).tables.graph =
          p.graph.addEdge { arc := a.id, source := v, target := w } := by
  cases container with
  | page p =>
    cases child with
    | arc a =>
      cases hv : p.vertex? a.source with
      | none => exact .inl (by simp only [adopt, hv])
      | some v =>
        cases hw : p.vertex? a.target with
        | none => exact .inl (by simp only [adopt, hv, hw])
        | some w =>
          refine .inr ⟨a, p, v, w, rfl, rfl, hv, hw, ?_⟩
          simp only [adopt, hv, hw]
          rfl
    | _ => exact .inl rfl
  | _ => exact .inl rfl

namespace Document

def Simple (d : Document) : Prop := ∀ i o, d.object? i = some o → o.tables.graph.Simple

variable {d e : Document} {c i : ObjectId}

theorem simple_enter (h : d.Simple) {parent : ObjectId} {o container : Object} {w : Owner}
    (hb : o.IsBare) (ha : d.Admissible parent o container w) :
    (d.enter parent (o.admitted w)).Simple := by
  have hfresh : d.object? (o.admitted w).id = none := by
    rw [Object.id_admitted]
    exact ha.fresh
  intro i x hx
  obtain ⟨y, hy, hs⟩ := object?_enter (fun _ => Object.shape_mapNode _) hfresh hx
  have htables : x.tables = (if i = parent then (o.admitted w).adopt y else y).tables :=
    congrArg Prod.snd hs
  have hold : y.tables.graph.Simple := by
    split at hy
    · cases hy
      rw [Object.tables_admitted, Object.tables_of_bare hb]
      exact List.nodup_nil
    · exact h i y hy
  rw [htables]
  split
  · next hi =>
    rcases Object.edges_adopt (o.admitted w) y with he | ⟨a, p, v, t, hchild, rfl, hv, ht, hg⟩
    · unfold Adjacency.Simple
      rw [he]
      exact hold
    · rw [hg]
      apply Adjacency.Simple.addEdge hold
      -- The check of an arc has seen that there is no such edge yet.
      have hparent : i ≠ (o.admitted w).id := by
        rw [hi, Object.id_admitted]
        exact ha.parent_ne
      rw [if_neg hparent, hi, ha.found] at hy
      cases hy
      obtain ⟨v', t', hv', ht', hnone⟩ := ha.joins hchild rfl
      rw [hv] at hv'
      rw [ht] at ht'
      cases hv'
      cases ht'
      exact hnone
  · exact hold

theorem simple_append_net (h : d.Simple) {n : Net} (hfresh : d.object? n.id = none) :
    (d.append (.net n)).Simple := by
  intro i x hx
  have ho := object?_append_of_fresh (o := .net n) hfresh i
  rw [hx] at ho
  split at ho
  · cases ho
    exact List.nodup_nil
  · exact h i x ho.symm

theorem Simple.of_view (h : d.Simple) (hv : e.view Object.shape = d.view Object.shape) :
    e.Simple := by
  intro i x hx
  obtain ⟨o, ho, hs⟩ := exists_of_view hv hx
  have htables : o.tables = x.tables := congrArg Prod.snd hs
  rw [← htables]
  exact h i o ho

theorem Reachable.simple (h : d.Reachable Edit.IsPlain) : d.Simple := by
  refine h.induction (P := Simple) (fun i o ho => by cases ho) fun {d e change} hd hc he => ?_
  rcases view_shape_edit he with ⟨n, rfl, hn⟩ | ⟨parent, o, rfl, ho⟩ | hv
  · obtain ⟨_, hfresh, rfl⟩ := addNet_eq_ok_iff.mp hn
    exact simple_append_net hd hfresh
  · obtain ⟨container, w, ha, rfl⟩ := add_eq_ok_iff.mp ho
    exact simple_enter hd hc ha
  · exact hd.of_view hv

def arcsOn (d : Document) (c : ObjectId) : List Arc :=
  (d.toList.filterMap Object.arc?).filter fun a => decide (a.owner = some (.page c))

theorem labels_arcsOn (d : Document) (c : ObjectId) :
    (d.children (.page c)).filter (fun l => l.kind == .arc) =
      (d.arcsOn c).map fun a => (Object.arc a).label := by
  unfold children arcsOn labels
  induction d.toList with
  | nil => rfl
  | cons o os ih =>
    cases o with
    | arc a =>
      by_cases ha : a.owner = some (.page c)
      · simpa [Object.label, Object.owner, Object.kind, Object.arc?, ha] using ih
      · simpa [Object.label, Object.owner, Object.arc?, ha] using ih
    | _ =>
      rw [List.map_cons, List.filterMap_cons_none rfl, ← ih]
      rw [List.filter_cons]
      split <;> simp [Object.label, Object.kind]

structure Runs (vertices : List ObjectId) (e : Edge) (a : Arc) : Prop where
  arc : e.arc = a.id
  source : vertices[e.source]? = some a.source
  target : vertices[e.target]? = some a.target

structure InStep (d : Document) (c : ObjectId) (p : Page) : Prop where
  vertex : ∀ i v, p.vertex? i = some v ↔ p.graph.vertices[v]? = some i
  edge : ∀ i k, p.arcs.find? i = some k ↔ ∃ e, p.graph.edges[k]? = some e ∧ e.arc = i
  edges : List.Forall₂ (Runs p.graph.vertices) p.graph.edges (d.arcsOn c)
  simple : p.graph.Simple

theorem Reachable.inStep (h : d.Reachable Edit.IsPlain) {p : Page} (hp : d.page? c = some p) :
    d.InStep c p := by
  obtain ⟨hr, ht⟩ := h.registered_and_tabled
  have ho := page?_eq_some_iff.mp hp
  have hl := ht c (.page p) (.page c) ho ((hr.asOwner?_eq_some_iff ho).mpr (.inr ⟨rfl, rfl⟩))
  have hd := hr.nodup_children (.page c)
  refine ⟨fun i v => hl.vertex_iff hd, fun i k => ?_, ?_, h.simple c (.page p) ho⟩
  · rw [← Option.map_eq_some_iff]
    exact hl.edge_iff hd
  · have he := hl.edges
    rw [labels_arcsOn, List.forall₂_map_right_iff] at he
    refine he.imp fun e a hj => ?_
    obtain ⟨s, t, hends, hs, htt⟩ := hj.ends
    cases hends
    exact ⟨hj.arc, hs, htt⟩

theorem mem_arcsOn (h : d.Registered) {a : Arc} :
    a ∈ d.arcsOn c ↔ d.arc? a.id = some a ∧ a.owner = some (.page c) := by
  unfold arcsOn
  rw [List.mem_filter, List.mem_filterMap, decide_eq_true_eq, arc?_eq_some_iff]
  refine and_congr_left fun _ => ⟨?_, fun ha => ⟨.arc a, ?_, rfl⟩⟩
  · rintro ⟨o, ho, hoa⟩
    have hoa : o = .arc a := by cases o <;> cases hoa; rfl
    subst hoa
    exact h.mem_toList.mp ho
  · exact h.mem_toList.mpr ha

section Queries

variable {vertices : List ObjectId} {edges : List Edge} {arcs : List Arc} {v : Nat} {s : ObjectId}

/-- What the edges that leave a vertex lead to are the targets of the arcs that leave its node. -/
theorem lookup_targets (h : List.Forall₂ (Runs vertices) edges arcs)
    (hv : ∀ u, vertices[u]? = some s ↔ u = v) :
    ((edges.filter fun e => e.source == v).map (·.target)).filterMap (fun w => vertices[w]?) =
      (arcs.filter fun a => decide (a.source = s)).map (·.target) := by
  induction h with
  | nil => rfl
  | @cons e a edges arcs hea _ ih =>
    have hs : e.source = v ↔ a.source = s := by
      rw [← hv e.source, hea.source, Option.some.injEq]
    by_cases he : e.source = v
    · rw [List.filter_cons_of_pos (by simpa using he),
        List.filter_cons_of_pos (by simpa using hs.mp he), List.map_cons, List.map_cons,
        List.filterMap_cons_some hea.target, ih]
    · rw [List.filter_cons_of_neg (by simpa using he),
        List.filter_cons_of_neg (by simpa using fun ha => he (hs.mpr ha)), ih]

theorem lookup_sources (h : List.Forall₂ (Runs vertices) edges arcs)
    (hv : ∀ u, vertices[u]? = some s ↔ u = v) :
    ((edges.filter fun e => e.target == v).map (·.source)).filterMap (fun w => vertices[w]?) =
      (arcs.filter fun a => decide (a.target = s)).map (·.source) := by
  induction h with
  | nil => rfl
  | @cons e a edges arcs hea _ ih =>
    have ht : e.target = v ↔ a.target = s := by
      rw [← hv e.target, hea.target, Option.some.injEq]
    by_cases he : e.target = v
    · rw [List.filter_cons_of_pos (by simpa using he),
        List.filter_cons_of_pos (by simpa using ht.mp he), List.map_cons, List.map_cons,
        List.filterMap_cons_some hea.source, ih]
    · rw [List.filter_cons_of_neg (by simpa using he),
        List.filter_cons_of_neg (by simpa using fun ha => he (ht.mpr ha)), ih]

end Queries

namespace InStep

variable {p : Page} (h : d.InStep c p)
include h

theorem vertex_unique {i : ObjectId} {v : Nat} (hv : p.vertex? i = some v) (u : Nat) :
    p.graph.vertices[u]? = some i ↔ u = v := by
  rw [← h.vertex, hv, Option.some.injEq]
  exact eq_comm

theorem vertex_of_runs {e : Edge} {a : Arc} (hr : Runs p.graph.vertices e a) :
    p.vertex? a.source = some e.source ∧ p.vertex? a.target = some e.target :=
  ⟨(h.vertex _ _).mpr hr.source, (h.vertex _ _).mpr hr.target⟩

theorem arc_unique {a b : Arc} (ha : a ∈ d.arcsOn c) (hb : b ∈ d.arcsOn c)
    (hs : a.source = b.source) (ht : a.target = b.target) : a.id = b.id := by
  obtain ⟨e, he, hea⟩ := exists_left_of_forall₂ h.edges ha
  obtain ⟨f, hf, hfb⟩ := exists_left_of_forall₂ h.edges hb
  have hes := (h.vertex_of_runs hea).1
  have het := (h.vertex_of_runs hea).2
  rw [hs, (h.vertex_of_runs hfb).1] at hes
  rw [ht, (h.vertex_of_runs hfb).2] at het
  have hef : e = f :=
    h.simple.eq_of_ends he hf (Option.some.inj hes).symm (Option.some.inj het).symm
  rw [← hea.arc, ← hfb.arc, hef]

theorem successors_eq (s : ObjectId) : p.successors s =
    ((d.arcsOn c).reverse.filter fun a => decide (a.source = s)).map (·.target) := by
  unfold Page.successors
  cases hv : p.vertex? s with
  | none =>
    -- Every end of an arc of the page is a node of the page.
    have hnone : (d.arcsOn c).reverse.filter (fun a => decide (a.source = s)) = [] := by
      rw [List.filter_eq_nil_iff]
      intro a ha hs
      obtain ⟨e, _, hea⟩ := exists_left_of_forall₂ h.edges (List.mem_reverse.mp ha)
      rw [← of_decide_eq_true hs, (h.vertex_of_runs hea).1] at hv
      cases hv
    rw [hnone]
    rfl
  | some v => exact lookup_targets (List.rel_reverse h.edges) (h.vertex_unique hv)

theorem predecessors_eq (t : ObjectId) : p.predecessors t =
    ((d.arcsOn c).reverse.filter fun a => decide (a.target = t)).map (·.source) := by
  unfold Page.predecessors
  cases hv : p.vertex? t with
  | none =>
    have hnone : (d.arcsOn c).reverse.filter (fun a => decide (a.target = t)) = [] := by
      rw [List.filter_eq_nil_iff]
      intro a ha ht
      obtain ⟨e, _, hea⟩ := exists_left_of_forall₂ h.edges (List.mem_reverse.mp ha)
      rw [← of_decide_eq_true ht, (h.vertex_of_runs hea).2] at hv
      cases hv
    rw [hnone]
    rfl
  | some v => exact lookup_sources (List.rel_reverse h.edges) (h.vertex_unique hv)

theorem arcBetween?_eq_some_iff {s t i : ObjectId} :
    p.arcBetween? s t = some i ↔ ∃ a ∈ d.arcsOn c, a.id = i ∧ a.source = s ∧ a.target = t := by
  constructor
  · intro hi
    simp only [Page.arcBetween?, bind, Option.bind_eq_some_iff, Option.map_eq_some_iff] at hi
    obtain ⟨v, hv, w, hw, e, he, rfl⟩ := hi
    obtain ⟨hm, rfl, rfl⟩ := Adjacency.findEdge?_eq_some he
    obtain ⟨a, ha, hea⟩ := exists_right_of_forall₂ h.edges hm
    refine ⟨a, ha, hea.arc.symm, ?_, ?_⟩
    · have hs := (h.vertex s e.source).mp hv
      rw [hea.source] at hs
      exact Option.some.inj hs
    · have ht := (h.vertex t e.target).mp hw
      rw [hea.target] at ht
      exact Option.some.inj ht
  · rintro ⟨a, ha, rfl, rfl, rfl⟩
    obtain ⟨e, he, hea⟩ := exists_left_of_forall₂ h.edges ha
    obtain ⟨hv, hw⟩ := h.vertex_of_runs hea
    simp only [Page.arcBetween?, bind, hv, hw, Option.bind_some]
    cases hf : p.graph.findEdge? e.source e.target with
    | none =>
      rw [Adjacency.findEdge?_eq_none] at hf
      exact absurd (List.mem_map_of_mem (f := fun e : Edge => (e.source, e.target)) he) hf
    | some f =>
      obtain ⟨hm, hs, ht⟩ := Adjacency.findEdge?_eq_some hf
      have hfe : f = e := h.simple.eq_of_ends hm he hs ht
      rw [hfe, Option.map_some, hea.arc]

end InStep

theorem nodup_arcsOn (h : d.Registered) (c : ObjectId) : (d.arcsOn c).Nodup := by
  have hd : (((d.children (.page c)).filter fun l => l.kind == .arc).map (·.id)).Nodup :=
    (h.nodup_children (.page c)).sublist (List.filter_sublist.map _)
  rw [labels_arcsOn, List.map_map] at hd
  exact hd.of_map

theorem arc_eq_of_id (h : d.Registered) {a b : Arc} (ha : a ∈ d.arcsOn c) (hb : b ∈ d.arcsOn c)
    (hi : a.id = b.id) : a = b := by
  have hfa := ((mem_arcsOn h).mp ha).1
  have hfb := ((mem_arcsOn h).mp hb).1
  rw [hi, hfb] at hfa
  exact (Option.some.inj hfa).symm

theorem nodup_far (hr : d.Registered) {near far : Arc → ObjectId}
    (hone : ∀ a ∈ d.arcsOn c, ∀ b ∈ d.arcsOn c, near a = near b → far a = far b → a.id = b.id)
    (i : ObjectId) :
    (((d.arcsOn c).reverse.filter fun a => decide (near a = i)).map far).Nodup := by
  refine List.Nodup.map_on ?_ ((List.nodup_reverse.mpr (nodup_arcsOn hr c)).filter _)
  intro a ha b hb hfar
  obtain ⟨ha, hai⟩ := List.mem_filter.mp ha
  obtain ⟨hb, hbi⟩ := List.mem_filter.mp hb
  have hnear : near a = near b := (of_decide_eq_true hai).trans (of_decide_eq_true hbi).symm
  have ha := List.mem_reverse.mp ha
  have hb := List.mem_reverse.mp hb
  exact arc_eq_of_id hr ha hb (hone a ha b hb hnear hfar)

/-- A page of a document that came about by its own operations. Its tables number the nodes and the
arcs on it as vertices and edges of its graph, each edge runs between the nodes that its arc names,
and what is asked of the graph is answered about the objects. -/
structure Adjacent (d : Document) (c : ObjectId) (p : Page) : Prop where
  distinct : p.nodes.keys.Nodup ∧ p.arcs.keys.Nodup
  vertex : ∀ i v, p.vertex? i = some v ↔ p.graph.vertices[v]? = some i
  nodes : ∀ i, (∃ v, p.vertex? i = some v) ↔
    ∃ o, d.object? i = some o ∧ o.kind.isNode = true ∧ o.owner = some (.page c)
  edge : ∀ i k, p.arcs.find? i = some k ↔ ∃ e, p.graph.edges[k]? = some e ∧ e.arc = i
  arcs : ∀ i, (∃ k, p.arcs.find? i = some k) ↔
    ∃ a, d.arc? i = some a ∧ a.owner = some (.page c)
  ends : ∀ e ∈ p.graph.edges, ∃ a, d.arc? e.arc = some a ∧ a.owner = some (.page c) ∧
    p.vertex? a.source = some e.source ∧ p.vertex? a.target = some e.target
  single : ∀ (k l : Nat) (e f : Edge), p.graph.edges[k]? = some e → p.graph.edges[l]? = some f →
    e.source = f.source → e.target = f.target → k = l
  between : ∀ s t i, p.arcBetween? s t = some i ↔
    ∃ a, d.arc? i = some a ∧ a.owner = some (.page c) ∧ a.source = s ∧ a.target = t
  successors : ∀ s, (p.successors s).Nodup ∧ p.successors s =
    ((d.arcsOn c).reverse.filter fun a => decide (a.source = s)).map (·.target)
  predecessors : ∀ t, (p.predecessors t).Nodup ∧ p.predecessors t =
    ((d.arcsOn c).reverse.filter fun a => decide (a.target = t)).map (·.source)

theorem Reachable.arcBetween?_iff (hd : d.Reachable Edit.IsPlain) {p : Page}
    (hp : d.page? c = some p) {s t i : ObjectId} : p.arcBetween? s t = some i ↔
      ∃ a, d.arc? i = some a ∧ a.owner = some (.page c) ∧ a.source = s ∧ a.target = t := by
  have hr := hd.registered
  rw [(hd.inStep hp).arcBetween?_eq_some_iff]
  constructor
  · rintro ⟨a, ha, rfl, hs, ht⟩
    obtain ⟨hfound, howner⟩ := (mem_arcsOn hr).mp ha
    exact ⟨a, hfound, howner, hs, ht⟩
  · rintro ⟨a, ha, howner, hs, ht⟩
    have hid : a.id = i := hr.id_of_object? (arc?_eq_some_iff.mp ha)
    exact ⟨a, (mem_arcsOn hr).mpr ⟨hid ▸ ha, howner⟩, hid, hs, ht⟩

/-- In every run the graph of each page stays in step with the nodes and arcs on the page. -/
theorem Reachable.adjacent (hd : d.Reachable Edit.IsPlain) {p : Page} (hp : d.page? c = some p) :
    d.Adjacent c p := by
  have hr := hd.registered
  have hc := contained_of_tabled hr hd.tabled
  have h := hd.inStep hp
  have hsource : ∀ e ∈ p.graph.edges, ∃ a, d.arc? e.arc = some a ∧ a.owner = some (.page c) ∧
      p.vertex? a.source = some e.source ∧ p.vertex? a.target = some e.target := by
    intro e he
    obtain ⟨a, ha, hea⟩ := exists_right_of_forall₂ h.edges he
    obtain ⟨hfound, howner⟩ := (mem_arcsOn hr).mp ha
    exact ⟨a, hea.arc ▸ hfound, howner, h.vertex_of_runs hea⟩
  constructor
  case distinct => exact ⟨(hc.nodes c p hp).1, (hc.arcs c p hp).1⟩
  case vertex => exact h.vertex
  case nodes =>
    intro i
    rw [← (hc.nodes c p hp).2 i, Table.mem_keys_iff]
    rfl
  case edge => exact h.edge
  case arcs =>
    intro i
    rw [← (hc.arcs c p hp).2 i, Table.mem_keys_iff]
  case ends => exact hsource
  case single =>
    intro k l e f he hf hs ht
    have hef := h.simple.eq_of_ends (List.mem_of_getElem? he) (List.mem_of_getElem? hf) hs ht
    subst hef
    have hk := (h.edge e.arc k).mpr ⟨e, he, rfl⟩
    have hl := (h.edge e.arc l).mpr ⟨e, hf, rfl⟩
    rw [hk] at hl
    exact Option.some.inj hl
  case between => exact fun s t i => hd.arcBetween?_iff hp
  case successors =>
    intro s
    refine ⟨?_, h.successors_eq s⟩
    rw [h.successors_eq s]
    exact nodup_far hr (fun a ha b hb hs ht => h.arc_unique ha hb hs ht) s
  case predecessors =>
    intro t
    refine ⟨?_, h.predecessors_eq t⟩
    rw [h.predecessors_eq t]
    exact nodup_far hr (fun a ha b hb ht hs => h.arc_unique ha hb hs ht) t

/-- A page with a loop on a place, an arc there and back again, and an arc that is refused since
there is one already. -/
def loopRun : List Action :=
  [.edit (.addNet { id := ⟨"n"⟩, format := .placeTransition }),
    .edit (.add ⟨"n"⟩ (.page { id := ⟨"p"⟩ })),
    .edit (.add ⟨"p"⟩ (.place { id := ⟨"a"⟩ })),
    .edit (.add ⟨"p"⟩ (.transition { id := ⟨"b"⟩ })),
    .edit (.add ⟨"p"⟩ (.arc { id := ⟨"aa"⟩, source := ⟨"a"⟩, target := ⟨"a"⟩ })),
    .edit (.add ⟨"p"⟩ (.arc { id := ⟨"ab"⟩, source := ⟨"a"⟩, target := ⟨"b"⟩ })),
    .edit (.add ⟨"p"⟩ (.arc { id := ⟨"ba"⟩, source := ⟨"b"⟩, target := ⟨"a"⟩ })),
    .edit (.add ⟨"p"⟩ (.arc { id := ⟨"ab2"⟩, source := ⟨"a"⟩, target := ⟨"b"⟩ }))]

theorem uses_loopRun : ∀ a ∈ loopRun, a.Uses Edit.IsPlain := by
  intro a ha
  simp only [loopRun, List.mem_cons, List.not_mem_nil, or_false] at ha
  rcases ha with rfl | rfl | rfl | rfl | rfl | rfl | rfl | rfl
  · exact ⟨rfl, rfl⟩
  · exact ⟨rfl, rfl, rfl, rfl, rfl⟩
  all_goals trivial

theorem adjacent_loopRun : (run loopRun).Reachable Edit.IsPlain ∧
    ∃ p, (run loopRun).page? ⟨"p"⟩ = some p ∧ (run loopRun).Adjacent ⟨"p"⟩ p ∧
      p.successors ⟨"a"⟩ = [⟨"b"⟩, ⟨"a"⟩] ∧ p.arcBetween? ⟨"a"⟩ ⟨"b"⟩ = some ⟨"ab"⟩ :=
  ⟨⟨loopRun, uses_loopRun, rfl⟩, _, rfl, Reachable.adjacent ⟨loopRun, uses_loopRun, rfl⟩ rfl,
    by decide, by decide⟩

end Document

end PagedNets
