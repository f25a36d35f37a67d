import PagedNets.Proofs.Pnml.Acceptance
import PagedNets.Proofs.Pnml.Writing

set_option autoImplicit false

namespace PagedNets.Pnml

open Xml (Node)

section Kinds

variable {q : Kind → Bool} {us : List Visit}

theorem idsOf_plates (q : Kind → Bool) (us : List Visit) :
    idsOf q (us.map fun v => v.plate.toLabel) = idsOfVisits (us.filter fun v => q v.kind) := by
  rw [idsOf, List.filter_map, List.map_map]
  rfl

theorem idsOf_all (h : ∀ u ∈ us, q u.kind = true) :
    idsOf q (us.map fun v => v.plate.toLabel) = idsOfVisits us := by
  rw [idsOf_plates, List.filter_eq_self.mpr h]

theorem idsOf_none (h : ∀ u ∈ us, q u.kind = false) :
    idsOf q (us.map fun v => v.plate.toLabel) = [] := by
  rw [idsOf_plates, List.filter_eq_nil_iff.mpr fun u hu => by simp [h u hu]]
  rfl

theorem idsOf_heads (w : Owner) (children : List Node) :
    idsOf (· == .page) ((pageHeads w children).map fun v => v.plate.toLabel) =
      idsOfVisits (pageHeads w children) :=
  idsOf_all fun u hu => by rw [(owner_pageHeads u hu).2]; rfl

theorem idsOf_members {v : Visit} (hk : v.kind = .page) :
    idsOf Kind.isNode (v.members.map fun v => v.plate.toLabel) =
        idsOfVisits (nodeVisits v.id v.element) ∧
      idsOf (· == .arc) (v.members.map fun v => v.plate.toLabel) =
        idsOfVisits (arcVisits v.id v.element) ∧
      idsOf (· == .page) (v.members.map fun v => v.plate.toLabel) =
        idsOfVisits (pageHeads (.page v.id) v.element.children) := by
  have hmembers : v.members = nodeVisits v.id v.element ++ arcVisits v.id v.element ++
      pageHeads (.page v.id) v.element.children := by
    simp only [Visit.members, hk]
  have hnodes : ∀ u ∈ nodeVisits v.id v.element, u.kind.isNode = true :=
    fun u hu => (owner_nodeVisits u hu).2
  have harcs : ∀ u ∈ arcVisits v.id v.element, u.kind = .arc :=
    fun u hu => (owner_arcVisits u hu).2
  have hpages : ∀ u ∈ pageHeads (.page v.id) v.element.children, u.kind = .page :=
    fun u hu => (owner_pageHeads u hu).2
  have hother : ∀ k : Kind, k.isNode = true → (k == .arc) = false ∧ (k == .page) = false := by
    intro k hk
    cases k <;> first | exact ⟨rfl, rfl⟩ | cases hk
  simp only [hmembers, List.map_append, idsOf_append]
  refine ⟨?_, ?_, ?_⟩
  · rw [idsOf_all hnodes, idsOf_none fun u hu => by rw [harcs u hu]; rfl,
      idsOf_none fun u hu => by rw [hpages u hu]; rfl, List.append_nil, List.append_nil]
  · rw [idsOf_none fun u hu => (hother _ (hnodes u hu)).1,
      idsOf_all fun u hu => by rw [harcs u hu]; rfl,
      idsOf_none fun u hu => by rw [hpages u hu]; rfl, List.nil_append, List.append_nil]
  · rw [idsOf_none fun u hu => (hother _ (hnodes u hu)).2,
      idsOf_none fun u hu => by rw [harcs u hu]; rfl, idsOf_heads, List.nil_append,
      List.nil_append]

end Kinds

section Walks

variable {d : Document} {vs : List Visit} {v : Visit} {n : Node}

theorem Represents.nodup_ids (h : Represents d vs) : (idsOfVisits vs).Nodup :=
  keys_of_plates h.reachable h.plates ▸ h.reachable.registered.distinct

theorem Represents.exists_object (h : Represents d vs) (hv : v ∈ vs) :
    ∃ o, d.object? v.id = some o ∧ o.kind = v.kind :=
  Option.map_eq_some_iff.mp ((kindOf?_of_plates h.reachable h.plates).mpr ⟨v, hv, rfl, rfl⟩)

section

variable (h : Represents d vs) (hw : Whole vs)
include h hw

theorem children_of_visit {w : Owner} (hv : v ∈ vs) (hvw : v.asOwner? = some w) :
    d.children w = v.members.map fun u => u.plate.toLabel := by
  have hnodup := h.nodup_ids
  rw [Document.children, Document.labels_eq_plates, h.plates, List.map_map, List.filter_map,
    ← hw.members hnodup v hv w hvw]
  rfl

theorem lists_of_visit {w : Owner} {o : Object} (hv : v ∈ vs) (ho : d.object? v.id = some o)
    (how : o.asOwner? = some w) (hvw : v.asOwner? = some w) :
    o.tables.Lists (v.members.map fun u => u.plate.toLabel) := by
  rw [← children_of_visit h hw hv hvw]
  exact h.reachable.tabled v.id o w ho how

theorem page_of_element {w : Option Owner}
    (hv : { owner := w, kind := .page, element := n } ∈ vs) : ∃ p, d.page? (idOf n) = some p ∧
      p.nodes.keys = idsOfVisits (nodeVisits (idOf n) n) ∧
      p.arcs.keys = idsOfVisits (arcVisits (idOf n) n) ∧
      p.pages = idsOfVisits (pageHeads (.page (idOf n)) n.children) := by
  obtain ⟨o, ho, hko⟩ := h.exists_object hv
  obtain ⟨p, rfl⟩ := Object.eq_page_of_kind hko
  have hid : p.id = idOf n := h.reachable.registered.id_of_object? ho
  have hlists := lists_of_visit h hw (w := .page (idOf n)) hv ho
    (by rw [Object.asOwner?, hid]) rfl
  obtain ⟨hnodes, harcs, hpages⟩ := idsOf_members
    (v := { owner := w, kind := .page, element := n }) rfl
  exact ⟨p, Document.page?_eq_some_iff.mpr ho, hlists.keys_nodes.trans hnodes,
    hlists.keys_arcs.trans harcs, hlists.pages.trans hpages⟩

theorem net_of_element {w : Option Owner}
    (hv : { owner := w, kind := .net, element := n } ∈ vs) : ∃ net, d.net? (idOf n) = some net ∧
      net.pages = idsOfVisits (pageHeads (.net (idOf n)) n.children) := by
  obtain ⟨o, ho, hko⟩ := h.exists_object hv
  obtain ⟨net, rfl⟩ := Object.eq_net_of_kind hko
  have hid : net.id = idOf n := h.reachable.registered.id_of_object? ho
  have hlists := lists_of_visit h hw (w := .net (idOf n)) hv ho
    (by rw [Object.asOwner?, hid]) rfl
  exact ⟨net, Document.net?_eq_some_iff.mpr ho, hlists.pages.trans (idsOf_heads _ _)⟩

end

mutual

/-- The walk over a page meets what was read of it, in the same order. -/
theorem walk_pageVisits (h : Represents d vs) (hw : Whole vs) (w : Owner) (n : Node)
    (hn : n.isTagged "page" = true) {fuel : Nat} {keys : List ObjectId} (hsub : pageVisits w n ⊆ vs)
    (hle : d.size ≤ fuel + 1 + d.keys.idxOf (idOf n)) :
    d.walk (fuel + 1) (idOf n :: keys) =
      idsOfVisits (pageVisits w n) ++ d.walk (fuel + 1) keys := by
  cases n with
  | element tag attributes children =>
    have hc := Document.contained_of_tabled h.reachable.registered h.reachable.tabled
    rw [pageVisits] at hsub ⊢
    obtain ⟨p, hp, hnodes, harcs, hpages⟩ := page_of_element h hw
      (hsub (List.mem_append_left _ (List.mem_append_left _ List.mem_cons_self)))
    rw [Node.children] at hpages
    -- Nested pages came later than this one, so that less fuel is enough for them.
    have hadequate : d.Adequate fuel p.pages := hc.adequate_page hp hle
    rw [hpages] at hadequate
    have hnested := walk_nestedVisits h hw (.page (idOf (.element tag attributes children)))
      children (fun u hu => hsub (List.mem_append_right _ hu)) hadequate
    rw [walk_cons hp, hnodes, harcs, hpages, hnested]
    simp [idsOfVisits, Visit.id]
  | text content => cases hn
  | aside => cases hn

theorem walk_nestedVisits (h : Represents d vs) (hw : Whole vs) (w : Owner) (children : List Node)
    {fuel : Nat} (hsub : nestedVisits w children ⊆ vs)
    (hf : d.Adequate fuel (idsOfVisits (pageHeads w children))) :
    d.walk fuel (idsOfVisits (pageHeads w children)) = idsOfVisits (nestedVisits w children) := by
  cases children with
  | nil =>
    cases fuel <;> rfl
  | cons child rest =>
    rw [nestedVisits] at hsub ⊢
    have hrest : d.Adequate fuel (idsOfVisits (pageHeads w rest)) →
        d.walk fuel (idsOfVisits (pageHeads w rest)) = idsOfVisits (nestedVisits w rest) :=
      walk_nestedVisits h hw w rest fun u hu => hsub (List.mem_append_right _ hu)
    split
    · next hchild =>
      have hheads : idsOfVisits (pageHeads w (child :: rest)) =
          idOf child :: idsOfVisits (pageHeads w rest) := by
        simp [pageHeads, hchild, idsOfVisits, Visit.id]
      rw [hheads] at hf ⊢
      cases fuel with
      | zero => exact absurd hf.eq_nil (by simp)
      | succ fuel =>
        rw [walk_pageVisits h hw w child hchild
          (fun u hu => hsub (List.mem_append_left _ (by rwa [if_pos hchild])))
          (hf _ List.mem_cons_self).2, hrest fun k hk => hf k (List.mem_cons_of_mem _ hk)]
        exact List.map_append.symm
    · next hchild =>
      have hheads : pageHeads w (child :: rest) = pageHeads w rest := by
        simp [pageHeads, hchild]
      rw [hheads] at hf ⊢
      rw [hrest hf, List.nil_append]

end

theorem netWalk_of_visits (h : Represents d vs) (hw : Whole vs) (hn : netVisits n ⊆ vs) :
    ∃ net, d.net? (idOf n) = some net ∧ d.netWalk net = idsOfVisits (netVisits n) := by
  have hc := Document.contained_of_tabled h.reachable.registered h.reachable.tabled
  obtain ⟨net, hnet, hpages⟩ := net_of_element h hw (hn List.mem_cons_self)
  have hid : net.id = idOf n :=
    h.reachable.registered.id_of_object? (Document.net?_eq_some_iff.mp hnet)
  have hadequate := hc.adequate_net hnet
  rw [hpages] at hadequate
  have hwalk := walk_nestedVisits h hw (.net (idOf n)) n.children
    (fun u hu => hn (List.mem_cons_of_mem _ hu)) hadequate
  refine ⟨net, hnet, ?_⟩
  rw [Document.netWalk, hpages, hid]
  exact congrArg (idOf n :: ·) hwalk

end Walks

section Nets

variable {d : Document} {n : Node} {v : Visit}

theorem kind_of_nested (hv : v ∈ nestedVisits (.net (idOf n)) n.children) : v.kind ≠ .net := by
  obtain ⟨x, hx, -⟩ := (nested_nestedVisits (.net (idOf n)) n.children).owned v hv
  obtain ⟨ps, hhoused⟩ := housed_of_mem (List.mem_cons_of_mem _ hv)
  rcases housed_cases hhoused with ⟨hnone, -⟩ | ⟨w, -, hk⟩
  · rw [hx] at hnone
    cases hnone
  · exact hk

theorem ids_nets (d : Document) :
    d.nets.map (·.id) = (d.plates.filter fun p => p.kind == .net).map (·.id) := by
  rw [Document.nets, Document.plates]
  induction d.toList with
  | nil => rfl
  | cons o os ih =>
    cases o with
    | net n => exact congrArg (n.id :: ·) ih
    | _ => exact ih

theorem filter_netVisits (n : Node) : (netVisits n).filter (fun v => v.kind == .net) =
    [{ owner := none, kind := .net, element := n }] := by
  rw [netVisits, List.filter_cons_of_pos (by rfl), List.filter_eq_nil_iff.mpr fun v hv => ?_]
  simp [kind_of_nested hv]

variable {root : Node} (h : Represents d (visits root))
include h

theorem Represents.ids_nets : d.nets.map (·.id) = (netElements root).map idOf := by
  rw [Pnml.ids_nets, h.plates, List.filter_map, List.map_map]
  have hfilter : (visits root).filter (fun v => v.kind == .net) =
      (netElements root).map fun n => { owner := none, kind := .net, element := n } := by
    rw [visits, List.filter_flatMap]
    simp only [filter_netVisits]
    exact List.map_eq_flatMap.symm
  have hcomp : ((fun p : Plate => p.kind == .net) ∘ Visit.plate) = fun v => v.kind == .net := rfl
  rw [hcomp, hfilter, List.map_map]
  rfl

theorem Represents.netWalk (hn : n ∈ netElements root) :
    ∃ net, d.net? (idOf n) = some net ∧ d.netWalk net = idsOfVisits (netVisits n) :=
  netWalk_of_visits h (whole_flatMap _) fun _ hv => List.mem_flatMap.mpr ⟨n, hn, hv⟩

/-- A document that was read is written in the order in which it was read. -/
theorem Represents.preorder_eq : d.preorder = d.keys := by
  let found (i : ObjectId) : List ObjectId := ((d.net? i).map d.netWalk).getD []
  have hnets : ∀ net ∈ d.nets, d.netWalk net = found net.id := by
    intro net hnet
    simp only [found, (Document.mem_nets h.reachable.registered).mp hnet, Option.map_some,
      Option.getD_some]
  have helements : ∀ n ∈ netElements root, found (idOf n) = idsOfVisits (netVisits n) := by
    intro n hn
    obtain ⟨net, hnet, hwalk⟩ := h.netWalk hn
    simp only [found, hnet, Option.map_some, Option.getD_some, hwalk]
  rw [keys_of_plates h.reachable h.plates, Document.preorder, List.flatMap_congr hnets,
    ← List.flatMap_map, h.ids_nets, List.flatMap_map, List.flatMap_congr helements, visits,
    idsOfVisits, List.map_flatMap]
  rfl

theorem Represents.netOf?_eq (hn : n ∈ netElements root) (hv : v ∈ netVisits n) :
    d.netOf? v.id = some (idOf n) := by
  obtain ⟨net, hnet, hwalk⟩ := h.netWalk hn
  have hid : net.id = idOf n :=
    h.reachable.registered.id_of_object? (Document.net?_eq_some_iff.mp hnet)
  rw [← hid]
  refine netOf?_eq_of_mem h.reachable ((Document.mem_nets h.reachable.registered).mpr ?_) ?_
  · rw [hid, hnet]
  · rw [hwalk]
    exact List.mem_map_of_mem hv

theorem Represents.backward (hresolved : NetsResolved [] (netElements root)) : d.Backward := by
  intro i r hir m k hm hk
  obtain ⟨v, hv, rfl, hr⟩ := mem_linksOf.mp ((h.linked i r).mp hir)
  obtain ⟨n, hn, hvn⟩ := List.mem_flatMap.mp hv
  obtain ⟨before, after, hsplit⟩ := List.append_of_mem hn
  obtain ⟨u, hu, rfl, -⟩ := hresolved before n after hsplit v hvn r hr
  rw [List.nil_append] at hu
  obtain ⟨n', hn', hun'⟩ := List.mem_flatMap.mp hu
  have hmem : n' ∈ netElements root := by
    rw [hsplit, List.append_cons]
    exact List.mem_append_left _ hn'
  obtain rfl : idOf n = m := Option.some.inj ((h.netOf?_eq hn hvn).symm.trans hm)
  obtain rfl : idOf n' = k := Option.some.inj ((h.netOf?_eq hmem hun').symm.trans hk)
  have hids : d.nets.map (·.id) = before.map idOf ++ idOf n :: after.map idOf := by
    rw [h.ids_nets, hsplit, List.map_append, List.map_cons]
  rw [hids]
  refine (idxOf_le_iff_of_split (hids ▸ Document.nodup_nets h.reachable.registered)).mpr ?_
  rw [← List.map_singleton, ← List.map_append]
  exact List.mem_map_of_mem hn'

end Nets

end PagedNets.Pnml
