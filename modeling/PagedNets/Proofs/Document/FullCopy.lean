import PagedNets.Proofs.Document.Copy

/-!
What a document derives by itself is decided by its objects and by the order of what is in each
container, so that a full copy with all alias links is the document again.
-/

set_option autoImplicit false

namespace PagedNets

theorem eq_of_sublist {α : Type} {l m whole : List α} (hw : whole.Nodup) (hl : l.Sublist whole)
    (hm : m.Sublist whole) (h : ∀ a, a ∈ l ↔ a ∈ m) : l = m := by
  induction whole generalizing l m with
  | nil =>
    rw [List.sublist_nil.mp hl, List.sublist_nil.mp hm]
  | cons a whole ih =>
    obtain ⟨ha, hw⟩ := List.nodup_cons.mp hw
    -- The head of the whole list is in both of the others or in none.
    cases hl with
    | cons _ hl =>
      have hal : a ∉ l := fun hm => ha (hl.subset hm)
      cases hm with
      | cons _ hm => exact ih hw hl hm h
      | cons_cons _ hm => exact absurd ((h a).mpr List.mem_cons_self) hal
    | @cons_cons l _ _ hl =>
      cases hm with
      | cons _ hm => exact absurd (hm.subset ((h a).mp List.mem_cons_self)) ha
      | @cons_cons m _ _ hm =>
        have hal : a ∉ l := fun hm => ha (hl.subset hm)
        have ham : a ∉ m := fun hl => ha (hm.subset hl)
        rw [ih hw hl hm fun b => ?_]
        have hb := h b
        simp only [List.mem_cons] at hb
        by_cases hba : b = a
        · subst hba
          simp [hal, ham]
        · simpa [hba] using hb

theorem eq_of_map_eq {α β : Type} {f : α → β} {l m : List α} (hf : l.map f = m.map f)
    (h : ∀ a ∈ l, ∀ b ∈ m, f a = f b → a = b) : l = m := by
  induction l generalizing m with
  | nil => exact (List.map_eq_nil_iff.mp hf.symm).symm
  | cons a l ih =>
    cases m with
    | nil => cases hf
    | cons b m =>
      simp only [List.map_cons, List.cons.injEq] at hf
      have hab := h a List.mem_cons_self b List.mem_cons_self hf.1
      have hlm := ih hf.2 fun x hx y hy =>
        h x (List.mem_cons_of_mem _ hx) y (List.mem_cons_of_mem _ hy)
      rw [hab, hlm]

namespace Object

/-- The objects are the same, up to the order in which names were entered into a scope. -/
structure Agrees (x y : Object) : Prop where
  fields : x.mapNames (fun _ => .empty) = y.mapNames (fun _ => .empty)
  names : ∀ n, (x.names?.bind (·.find? n)) = y.names?.bind (·.find? n)

theorem fields_of_parts {x y : Object} (hc : x.core = y.core) (ht : x.tables = y.tables)
    (hl : x.links = y.links) :
    x.mapNames (fun _ => .empty) = y.mapNames (fun _ => .empty) := by
  have hk : x.kind = y.kind := by
    have hl : x.core.label = y.core.label := by rw [hc]
    rw [label_core, label_core] at hl
    exact kind_of_label hl
  cases x with
  | net m =>
    obtain ⟨n, rfl⟩ := eq_net_of_kind hk.symm
    simp_all [core, tables, mapNames]
  | page p =>
    obtain ⟨q, rfl⟩ := eq_page_of_kind hk.symm
    simp_all [core, tables, mapNames]
  | arc a =>
    obtain ⟨b, rfl⟩ := eq_arc_of_kind hk.symm
    exact hc
  | place p =>
    obtain ⟨q, rfl⟩ := eq_place_of_kind hk.symm
    obtain ⟨_, _, _, ⟨_, _, _, _⟩, _, _⟩ := p
    obtain ⟨_, _, _, ⟨_, _, _, _⟩, _, _⟩ := q
    simp_all [core, links, node?, mapNames]
  | transition p =>
    cases y with
    | transition q =>
      obtain ⟨_, _, _, ⟨_, _, _, _⟩⟩ := p
      obtain ⟨_, _, _, ⟨_, _, _, _⟩⟩ := q
      simp_all [core, links, node?, mapNames]
    | _ => cases hk

@[simp] theorem tables_reread (o : Object) : o.reread.tables = o.tables := by cases o <;> rfl

@[simp] theorem links_reread (o : Object) : o.reread.links = o.links := by cases o <;> rfl

@[simp] theorem names?_reread (o : Object) : o.reread.names? = o.names? := by cases o <;> rfl

end Object

theorem Edge.Joins.unique {vertices : List ObjectId} (hv : vertices.Nodup) {e f : Edge} {l : Label}
    (he : e.Joins vertices l) (hf : f.Joins vertices l) : e = f := by
  obtain ⟨s, t, hl, hs, ht⟩ := he.ends
  obtain ⟨s', t', hl', hs', ht'⟩ := hf.ends
  rw [hl] at hl'
  cases hl'
  have hsource := (List.getElem?_inj (List.getElem?_eq_some_iff.mp hs).1 hv).mp (hs.trans hs'.symm)
  have htarget := (List.getElem?_inj (List.getElem?_eq_some_iff.mp ht).1 hv).mp (ht.trans ht'.symm)
  have harc := he.arc.trans hf.arc.symm
  cases e
  cases f
  simp_all

theorem Tables.Lists.unique {t u : Tables} {l m : List Label} (ht : t.Lists l) (hu : u.Lists m)
    (hd : (l.map (·.id)).Nodup) (hp : idsOf (· == .page) l = idsOf (· == .page) m)
    (hn : idsOf Kind.isNode l = idsOf Kind.isNode m)
    (ha : l.filter (fun x => x.kind == .arc) = m.filter (fun x => x.kind == .arc)) : t = u := by
  have hpages : t.pages = u.pages := by rw [ht.pages, hu.pages, hp]
  have hvertices : t.graph.vertices = u.graph.vertices := by rw [ht.vertices, hu.vertices, hn]
  have hnodup : t.graph.vertices.Nodup := by
    rw [ht.vertices]
    exact nodup_idsOf hd
  have hedges : t.graph.edges = u.graph.edges := by
    have hte := ht.edges
    have hue := hu.edges
    rw [← hvertices, ← ha] at hue
    have hunique : Relator.LeftUnique (Edge.Joins t.graph.vertices) :=
      fun _ _ _ he hf => he.unique hnodup hf
    exact List.left_unique_forall₂' hunique hte hue
  have hnodes : t.nodes = u.nodes := by
    have hentries : t.nodes.entries = u.nodes.entries := by rw [ht.nodes, hu.nodes, hvertices]
    cases hte : t.nodes
    cases hue : u.nodes
    simp_all
  have harcs : t.arcs = u.arcs := by
    have hentries : t.arcs.entries = u.arcs.entries := by rw [ht.arcs, hu.arcs, hedges]
    cases hte : t.arcs
    cases hue : u.arcs
    simp_all
  obtain ⟨_, _, _, ⟨_, _⟩⟩ := t
  obtain ⟨_, _, _, ⟨_, _⟩⟩ := u
  simp_all

namespace Document

variable {d e : Document} {present : List ObjectId} {i j r : ObjectId}

theorem Copies.kindOf?_eq (h : d.Copies e present) (hi : i ∈ present) :
    e.kindOf? i = d.kindOf? i := by
  obtain ⟨o, x, ho, hx, hox⟩ := h.object? hi
  rw [kindOf?, kindOf?, ho, hx, Option.map_some, Option.map_some,
    Object.kind_of_label (Object.label_of_core hox)]

/-- A link between two nodes that are there can be made, since the document has no cycle. -/
theorem Copies.link (hd : d.Reachable Edit.IsPlain) (h : d.Copies e present)
    (hir : d.RefersTo i r) (hi : i ∈ present) (hr : r ∈ present) :
    ∃ f, e.setReference i (some r) = .ok f ∧ d.Copies f present ∧ f.refersTo? i = some r ∧
      ∀ k, k ≠ i → f.refersTo? k = e.refersTo? k := by
  have hregistered := h.reachable.registered
  have hground := h.reachable.aliased.grounded
  obtain ⟨k, hki, hkr⟩ := hd.aliased.sameKind i r hir
  obtain ⟨l, hli, hnode⟩ := isNode_of_refersTo hir
  rw [hki] at hli
  cases hli
  have hfree : i ∉ e.referents r := by
    rw [mem_referents hground]
    intro hri
    exact hd.aliased.grounded.not_reaches hir (Relation.ReflTransGen.mono h.refers _ _ hri)
  have hset : e.setReference i (some r) = .ok
      (if e.refersTo? i = some r then e else e.link i (e.refersTo? i) (some r)) := by
    refine (setReference_eq_ok_iff hregistered).mpr ⟨k, ?_, hnode, fun t ht => ?_, rfl⟩
    · rw [h.kindOf?_eq hi, hki]
    · cases ht
      rw [h.kindOf?_eq hr, hkr]
      exact ⟨rfl, hfree⟩
  have hrefers := refersTo?_setReference hregistered hset
  have hview := view_setReference (f := Object.core) Object.core_mapAliases
    (fun o => by cases o <;> rfl) hset
  have hplain : (Edit.setReference i (some r)).IsPlain := trivial
  refine ⟨_, hset, ⟨h.reachable.edit hplain hset, ?_, ?_, ?_⟩, ?_, ?_⟩
  · rw [keys_of_view hview, h.keys]
  · intro a x hx
    obtain ⟨y, hy, hyx⟩ := exists_of_view hview hx
    rw [← hyx]
    exact h.same a y hy
  · intro a b hab
    rw [RefersTo, hrefers] at hab
    split at hab
    · next ha =>
      cases hab
      rw [ha]
      exact hir
    · exact h.refers a b hab
  · rw [hrefers, if_pos rfl]
  · intro k hk
    rw [hrefers, if_neg hk]

theorem Registered.idsOf_children_sublist (h : d.Registered) (q : Kind → Bool) (w : Owner) :
    (idsOf q (d.children w)).Sublist d.keys := by
  rw [h.stored]
  exact (List.filter_sublist.trans List.filter_sublist).map _

theorem Reachable.idsOf_children_sublist (hd : d.Reachable Edit.IsPlain) {c : ObjectId}
    {o : Object} {w : Owner} (ho : d.object? c = some o) (hw : o.asOwner? = some w) :
    (idsOf (· == .page) (d.children w)).Sublist d.preorder ∧
      (idsOf Kind.isNode (d.children w)).Sublist d.preorder ∧
      (idsOf (· == .arc) (d.children w)).Sublist d.preorder := by
  have hl := hd.tabled c o w ho hw
  rw [← hl.pages, ← hl.keys_nodes, ← hl.keys_arcs]
  cases o with
  | net n =>
    refine ⟨hd.sublist_preorder_net (net?_eq_some_iff.mpr ho), ?_, ?_⟩
    · exact List.nil_sublist _
    · exact List.nil_sublist _
  | page p =>
    obtain ⟨hnodes, harcs, hpages⟩ := hd.sublist_preorder_page (page?_eq_some_iff.mpr ho)
    exact ⟨hpages, hnodes, harcs⟩
  | place p => cases hw
  | transition t => cases hw
  | arc a => cases hw

namespace Copies

section

variable (hd : d.Reachable Edit.IsPlain) (h : d.Copies e d.preorder)
include hd h

theorem exists_of_object? {o : Object} (ho : d.object? i = some o) :
    ∃ x, e.object? i = some x ∧ x.core = o.reread.core := by
  obtain ⟨o', x, ho', hx, hxo⟩ := h.object? (hd.mem_preorder.mpr (mem_keys_of_object? ho))
  rw [ho] at ho'
  cases ho'
  exact ⟨x, hx, hxo⟩

theorem mem_idsOf_iff (q : Kind → Bool) (w : Owner) :
    i ∈ idsOf q (e.children w) ↔ i ∈ idsOf q (d.children w) := by
  rw [h.reachable.registered.mem_idsOf_children,
    hd.registered.mem_idsOf_children]
  constructor
  · intro hi
    obtain ⟨x, hx, hq, hw⟩ := hi
    obtain ⟨o, ho, hxo⟩ := h.same i x hx
    have hl := Object.label_of_core hxo
    exact ⟨o, ho, Object.kind_of_label hl ▸ hq, (Object.owner_of_label hl).symm.trans hw⟩
  · intro hi
    obtain ⟨o, ho, hq, hw⟩ := hi
    obtain ⟨x, hx, hxo⟩ := h.exists_of_object? hd ho
    have hl := Object.label_of_core hxo
    exact ⟨x, hx, (Object.kind_of_label hl).symm ▸ hq, (Object.owner_of_label hl).trans hw⟩

theorem idsOf_children (q : Kind → Bool) (w : Owner)
    (hs : (idsOf q (d.children w)).Sublist d.preorder) :
    idsOf q (e.children w) = idsOf q (d.children w) := by
  refine eq_of_sublist hd.nodup_preorder ?_ hs fun i => h.mem_idsOf_iff hd q w
  rw [← h.keys]
  exact h.reachable.registered.idsOf_children_sublist q w

theorem tables {c : ObjectId} {o x : Object} (ho : d.object? c = some o)
    (hx : e.object? c = some x) (hxo : x.core = o.reread.core) : x.tables = o.tables := by
  have hasOwner := Object.asOwner?_of_label (Object.label_of_core hxo)
  cases hw : o.asOwner? with
  | none =>
    rw [hw] at hasOwner
    rw [Object.tables_of_asOwner?_eq_none hw, Object.tables_of_asOwner?_eq_none hasOwner]
  | some w =>
    rw [hw] at hasOwner
    obtain ⟨hr, ht⟩ := hd.registered_and_tabled
    obtain ⟨her, het⟩ := h.reachable.registered_and_tabled
    obtain ⟨hpages, hnodes, harcs⟩ := hd.idsOf_children_sublist ho hw
    refine Tables.Lists.unique (het c x w hx hasOwner) (ht c o w ho hw) (her.nodup_children w)
      (h.idsOf_children hd _ w hpages) (h.idsOf_children hd _ w hnodes) ?_
    refine eq_of_map_eq (f := Label.id) (h.idsOf_children hd _ w harcs) fun a ha b hb hab => ?_
    obtain ⟨y, hy, hya⟩ := her.object?_of_mem_labels (mem_children.mp (List.mem_filter.mp ha).1).1
    obtain ⟨z, hz, hzb⟩ := hr.object?_of_mem_labels (mem_children.mp (List.mem_filter.mp hb).1).1
    obtain ⟨z', hz', hyz⟩ := h.same a.id y hy
    have hab : a.id = b.id := hab
    rw [hab, hz] at hz'
    cases hz'
    rw [← hya, ← hzb, Object.label_of_core hyz]

theorem links (hlinks : ∀ i, e.refersTo? i = d.refersTo? i) {o x : Object}
    (ho : d.object? i = some o) (hx : e.object? i = some x) (hxo : x.core = o.reread.core) :
    x.links = o.links := by
  have haliases := aliasesOf_congr hd.aliased h.reachable.aliased hlinks i
  have hrefers := hlinks i
  rw [aliasesOf_eq, aliasesOf_eq, ho, hx, Option.bind_some, Option.bind_some] at haliases
  rw [refersTo?, refersTo?, ho, hx, Option.bind_some, Option.bind_some, Object.reference?_eq,
    Object.reference?_eq] at hrefers
  have hsome : x.links.isSome = o.links.isSome := by
    unfold Object.links
    rw [Option.isSome_map, Option.isSome_map, Object.isSome_node?_iff, Object.isSome_node?_iff,
      Object.kind_of_label (Object.label_of_core hxo)]
  cases hxl : x.links with
  | none =>
    rw [hxl] at hsome
    exact (Option.isNone_iff_eq_none.mp (by simpa using hsome.symm)).symm
  | some a =>
    obtain ⟨b, hb⟩ := Option.isSome_iff_exists.mp (hsome.symm.trans (by rw [hxl]; rfl))
    rw [hxl, hb] at haliases hrefers
    rw [hb]
    exact congrArg some (Prod.ext hrefers haliases)

theorem names {c : ObjectId} {o x : Object} (ho : d.object? c = some o)
    (hx : e.object? c = some x) (hxo : x.core = o.reread.core) (n : String) :
    (x.names?.bind (·.find? n)) = o.names?.bind (·.find? n) := by
  have hl := Object.label_of_core hxo
  have hk := Object.kind_of_label hl
  cases hw : o.asOwner? with
  | none =>
    have hxw := (Object.asOwner?_of_label hl).trans hw
    rw [Object.names?_of_asOwner?_eq_none hw, Object.names?_of_asOwner?_eq_none hxw]
  | some w =>
    have hxw := (Object.asOwner?_of_label hl).trans hw
    obtain ⟨old, hold⟩ := Object.exists_names? hw
    obtain ⟨new, hnew⟩ := Object.exists_names? hxw
    rw [hold, hnew, Option.bind_some, Option.bind_some]
    ext j
    rw [h.reachable.named c x w new hx hxw hnew, hd.named c o w old ho hw hold]
    constructor
    · exact h.calls
    · intro hj
      obtain ⟨y, hy, hyw, hyn⟩ := hj
      obtain ⟨z, hz, hzy⟩ := h.exists_of_object? hd hy
      refine ⟨z, hz, (Object.owner_of_label (Object.label_of_core hzy)).trans hyw, ?_⟩
      rw [Object.scopedName_of_core hzy, hyn]

theorem fields (hlinks : ∀ i, e.refersTo? i = d.refersTo? i) {o x : Object}
    (ho : d.object? i = some o) (hx : e.object? i = some x) (hxo : x.core = o.reread.core) :
    x.mapNames (fun _ => .empty) = o.reread.mapNames (fun _ => .empty) := by
  refine Object.fields_of_parts hxo ?_ ?_
  · rw [Object.tables_reread]
    exact h.tables hd ho hx hxo
  · rw [Object.links_reread]
    exact h.links hd hlinks ho hx hxo

/-- A full copy with all links is the document again. -/
theorem agrees (hlinks : ∀ i, e.refersTo? i = d.refersTo? i) {o : Object}
    (ho : d.object? i = some o) : ∃ x, e.object? i = some x ∧ x.Agrees o.reread := by
  obtain ⟨x, hx, hxo⟩ := h.exists_of_object? hd ho
  refine ⟨x, hx, h.fields hd hlinks ho hx hxo, fun n => ?_⟩
  rw [Object.names?_reread]
  exact h.names hd ho hx hxo n

theorem contains_eq (i : ObjectId) : e.contains i = d.contains i := by
  rw [Bool.eq_iff_iff, contains_iff, contains_iff, ← mem_keys_iff, ← mem_keys_iff, h.keys,
    hd.mem_preorder]

end

end Copies

end Document

end PagedNets
