import PagedNets.Proofs.Document.Admission

/-!
What the tables of a container have to do with the objects that it owns: they list its children by
kind, in the order of arrival, and the edges of its graph join the vertices that the arcs name.
Admitting one more child keeps the two in step.
-/

set_option autoImplicit false

namespace PagedNets

def idsOf (p : Kind → Bool) (ls : List Label) : List ObjectId :=
  (ls.filter fun l => p l.kind).map (·.id)

theorem idsOf_append (p : Kind → Bool) (ls ms : List Label) :
    idsOf p (ls ++ ms) = idsOf p ls ++ idsOf p ms := by simp [idsOf]

theorem idsOf_singleton (p : Kind → Bool) (l : Label) :
    idsOf p [l] = if p l.kind then [l.id] else [] := by
  by_cases h : p l.kind = true <;> simp [idsOf, h]

theorem mem_idsOf {p : Kind → Bool} {ls : List Label} {i : ObjectId} :
    i ∈ idsOf p ls ↔ ∃ l ∈ ls, p l.kind = true ∧ l.id = i := by
  simp [idsOf, and_assoc]

theorem nodup_idsOf {p : Kind → Bool} {ls : List Label} (h : (ls.map (·.id)).Nodup) :
    (idsOf p ls).Nodup := h.sublist (List.filter_sublist.map _)

structure Edge.Joins (vertices : List ObjectId) (e : Edge) (l : Label) : Prop where
  arc : e.arc = l.id
  ends : ∃ s t, l.ends = some (s, t) ∧ vertices[e.source]? = some s ∧ vertices[e.target]? = some t

/-- The tables list exactly the given children, each in the table of its kind. -/
structure Tables.Lists (t : Tables) (children : List Label) : Prop where
  pages : t.pages = idsOf (· == .page) children
  vertices : t.graph.vertices = idsOf Kind.isNode children
  nodes : t.nodes.entries = t.graph.vertices.zipIdx
  arcs : t.arcs.entries = (t.graph.edges.map (·.arc)).zipIdx
  edges : List.Forall₂ (Edge.Joins t.graph.vertices) t.graph.edges
    (children.filter fun l => l.kind == .arc)

theorem Edge.Joins.append {vertices : List ObjectId} {e : Edge} {l : Label}
    (h : e.Joins vertices l) (more : List ObjectId) : e.Joins (vertices ++ more) l := by
  obtain ⟨s, t, hl, hs, ht⟩ := h.ends
  refine ⟨h.arc, s, t, hl, ?_, ?_⟩
  · rw [List.getElem?_append_left (List.getElem?_eq_some_iff.mp hs).1, hs]
  · rw [List.getElem?_append_left (List.getElem?_eq_some_iff.mp ht).1, ht]

theorem Table.entries_insert_numbered {t : Table ObjectId Nat} {keys : List ObjectId}
    (ht : t.entries = keys.zipIdx) {i : ObjectId} (hi : i ∉ keys) :
    (t.insert i keys.length).entries = (keys ++ [i]).zipIdx := by
  have hk : t.keys = keys := by simp [Table.keys, ht]
  have hc : t.contains i = false := by
    rw [← Bool.not_eq_true, t.contains_iff_mem_keys, hk]
    exact hi
  rw [Table.insert_of_contains_eq_false hc, ht]
  simp [List.zipIdx_append]

theorem insertKey_of_not_mem {keys : List ObjectId} {i : ObjectId} (h : i ∉ keys) :
    insertKey keys i = keys ++ [i] := by
  simp [insertKey, h]

namespace Tables.Lists

variable {t : Tables} {children : List Label}

theorem keys_nodes (h : t.Lists children) : t.nodes.keys = idsOf Kind.isNode children := by
  simp [Table.keys, h.nodes, h.vertices]

theorem edge_arcs (h : t.Lists children) :
    t.graph.edges.map (·.arc) = idsOf (· == .arc) children := by
  have he := h.edges
  unfold idsOf
  generalize t.graph.edges = edges at he
  generalize children.filter (fun l => l.kind == .arc) = arcs at he
  induction he with
  | nil => rfl
  | cons hj _ ih => simp [hj.arc, ih]

theorem keys_arcs (h : t.Lists children) : t.arcs.keys = idsOf (· == .arc) children := by
  simp [Table.keys, h.arcs, h.edge_arcs]

theorem vertex_iff (h : t.Lists children) (hd : (children.map (·.id)).Nodup) {i : ObjectId}
    {v : Nat} : t.nodes.find? i = some v ↔ t.graph.vertices[v]? = some i := by
  have hn : t.nodes.keys.Nodup := by
    rw [h.keys_nodes]
    exact nodup_idsOf hd
  rw [Table.find?_eq_some_iff hn, h.nodes, List.mem_zipIdx_iff_getElem?]

theorem edge_iff (h : t.Lists children) (hd : (children.map (·.id)).Nodup) {i : ObjectId}
    {k : Nat} : t.arcs.find? i = some k ↔ (t.graph.edges[k]?).map (·.arc) = some i := by
  have hn : t.arcs.keys.Nodup := by
    rw [h.keys_arcs]
    exact nodup_idsOf hd
  rw [Table.find?_eq_some_iff hn, h.arcs, List.mem_zipIdx_iff_getElem?, List.getElem?_map]

end Tables.Lists

namespace Tables

def addPage (t : Tables) (i : ObjectId) : Tables := { t with pages := t.pages ++ [i] }

def addNode (t : Tables) (i : ObjectId) : Tables :=
  { t with nodes := t.nodes.insert i t.graph.vertices.length, graph := t.graph.addVertex i }

def addArc (t : Tables) (e : Edge) : Tables :=
  { t with arcs := t.arcs.insert e.arc t.graph.edges.length, graph := t.graph.addEdge e }

namespace Lists

variable {t : Tables} {children : List Label} {l : Label}

theorem addPage (h : t.Lists children) (hk : l.kind = .page) :
    (t.addPage l.id).Lists (children ++ [l]) where
  pages := by simp [Tables.addPage, h.pages, idsOf_append, idsOf_singleton, hk]
  vertices := by simp [Tables.addPage, h.vertices, idsOf_append, idsOf_singleton, hk, Kind.isNode]
  nodes := h.nodes
  arcs := h.arcs
  edges := by simpa [Tables.addPage, List.filter_append, hk] using h.edges

theorem addNode (h : t.Lists children) (hk : l.kind.isNode = true)
    (hi : ∀ m ∈ children, m.id ≠ l.id) : (t.addNode l.id).Lists (children ++ [l]) := by
  have hp : (l.kind == .page) = false := by cases hl : l.kind <;> simp_all [Kind.isNode]
  have ha : (l.kind == .arc) = false := by cases hl : l.kind <;> simp_all [Kind.isNode]
  have hv : l.id ∉ t.graph.vertices := by
    rw [h.vertices, mem_idsOf]
    rintro ⟨m, hm, _, he⟩
    exact hi m hm he
  constructor
  · simp [Tables.addNode, h.pages, idsOf_append, idsOf_singleton, hp]
  · simp [Tables.addNode, Adjacency.addVertex, h.vertices, idsOf_append, idsOf_singleton, hk]
  · exact Table.entries_insert_numbered h.nodes hv
  · exact h.arcs
  · have he : (children ++ [l]).filter (fun l => l.kind == .arc) =
        children.filter (fun l => l.kind == .arc) := by simp [List.filter_append, ha]
    rw [he]
    exact h.edges.imp fun e m hj => hj.append _

theorem addArc (h : t.Lists children) {e : Edge} (hk : l.kind = .arc)
    (hj : e.Joins t.graph.vertices l) (hi : ∀ m ∈ children, m.id ≠ l.id) :
    (t.addArc e).Lists (children ++ [l]) := by
  have hv : e.arc ∉ t.graph.edges.map (·.arc) := by
    rw [hj.arc, h.edge_arcs, mem_idsOf]
    rintro ⟨m, hm, _, he⟩
    exact hi m hm he
  constructor
  · simp [Tables.addArc, h.pages, idsOf_append, idsOf_singleton, hk]
  · simp [Tables.addArc, Adjacency.addEdge, h.vertices, idsOf_append, idsOf_singleton, hk,
      Kind.isNode]
  · exact h.nodes
  · have he := Table.entries_insert_numbered h.arcs hv
    simpa [Tables.addArc, Adjacency.addEdge] using he
  · have he : (children ++ [l]).filter (fun l => l.kind == .arc) =
        children.filter (fun l => l.kind == .arc) ++ [l] := by simp [List.filter_append, hk]
    rw [he]
    exact List.rel_append h.edges (.cons hj .nil)

end Lists

end Tables

theorem Object.lists_adopt {container child : Object} {children : List Label}
    {names : Table String ObjectId} (h : container.tables.Lists children)
    (hscope : container.scopeFor child.kind = .ok names)
    (hi : ∀ l ∈ children, l.id ≠ child.id) (hd : (children.map (·.id)).Nodup)
    (harc : ∀ a p, child = .arc a → container = .page p →
      ∃ v w, p.vertex? a.source = some v ∧ p.vertex? a.target = some w) :
    (child.adopt container).tables.Lists (children ++ [child.label]) := by
  rcases (scopeFor_eq_ok hscope).2 with ⟨n, rfl, hk⟩ | ⟨p, rfl, hk, _⟩
  · -- Nets hold pages only.
    have hn : child.id ∉ n.pages := by
      have hp : n.pages = idsOf (· == .page) children := h.pages
      rw [hp, mem_idsOf]
      rintro ⟨m, hm, _, he⟩
      exact hi m hm he
    have ht : (child.adopt (.net n)).tables = (Object.net n).tables.addPage child.id := by
      simp [adopt, tables, Net.insertPage, insertKey_of_not_mem hn, Tables.addPage]
    rw [ht]
    exact h.addPage (l := child.label) hk
  · cases child with
    | net n => exact absurd rfl hk
    | page q =>
      have hn : q.id ∉ p.pages := by
        have hp : p.pages = idsOf (· == .page) children := h.pages
        rw [hp, mem_idsOf]
        rintro ⟨m, hm, _, he⟩
        exact hi m hm he
      have ht : ((Object.page q).adopt (.page p)).tables = (Object.page p).tables.addPage q.id := by
        simp [adopt, tables, Page.insertPage, insertKey_of_not_mem hn, Tables.addPage, Object.id]
      rw [ht]
      exact h.addPage (l := (Object.page q).label) rfl
    | place q => exact h.addNode (l := (Object.place q).label) rfl hi
    | transition q => exact h.addNode (l := (Object.transition q).label) rfl hi
    | arc a =>
      obtain ⟨v, w, hv, hw⟩ := harc a p rfl rfl
      have ht : ((Object.arc a).adopt (.page p)).tables =
          (Object.page p).tables.addArc { arc := a.id, source := v, target := w } := by
        simp only [adopt, hv, hw]
        rfl
      rw [ht]
      have hs := (h.vertex_iff hd).mp hv
      have htarget := (h.vertex_iff hd).mp hw
      exact h.addArc (l := (Object.arc a).label) rfl ⟨rfl, a.source, a.target, rfl, hs, htarget⟩ hi

theorem Tables.lists_nil : Tables.Lists {} [] := ⟨rfl, rfl, rfl, rfl, .nil⟩

end PagedNets
