import PagedNets.Proofs.Pnml.Progress

set_option autoImplicit false

namespace PagedNets

namespace Plate

variable {ps qs : List Plate} {i j : ObjectId}

def SameKind (ps : List Plate) (i j : ObjectId) : Prop :=
  ∃ k, (∃ p ∈ ps, p.id = i ∧ p.kind = k) ∧ k.isNode = true ∧ ∃ p ∈ ps, p.id = j ∧ p.kind = k

theorem SameKind.mono (h : SameKind ps i j) (hps : ps ⊆ qs) : SameKind qs i j := by
  obtain ⟨k, ⟨p, hp, hpi, hpk⟩, hnode, q, hq, hqj, hqk⟩ := h
  exact ⟨k, ⟨p, hps hp, hpi, hpk⟩, hnode, q, hps hq, hqj, hqk⟩

end Plate

namespace Document

variable {d e : Document} {i j : ObjectId}

theorem Registered.keys_eq_plates (h : d.Registered) : d.keys = d.plates.map (·.id) := by
  rw [h.stored, labels_eq_plates, List.map_map]
  rfl

theorem Registered.kindOf?_eq_some_iff (h : d.Registered) {k : Kind} :
    d.kindOf? i = some k ↔ ∃ p ∈ d.plates, p.id = i ∧ p.kind = k := by
  rw [kindOf?, Option.map_eq_some_iff]
  constructor
  · rintro ⟨o, ho, rfl⟩
    exact ⟨o.plate, plate_mem_of_object? ho, h.id_of_object? ho, rfl⟩
  · rintro ⟨p, hp, rfl, rfl⟩
    obtain ⟨o, ho, rfl⟩ := h.object?_of_mem_plates hp
    exact ⟨o, ho, rfl⟩

def SameKind (d : Document) (i j : ObjectId) : Prop :=
  ∃ k, d.kindOf? i = some k ∧ k.isNode = true ∧ d.kindOf? j = some k

theorem Registered.sameKind_iff (h : d.Registered) :
    d.SameKind i j ↔ Plate.SameKind d.plates i j := by
  simp only [SameKind, h.kindOf?_eq_some_iff, Plate.SameKind]

def Linked (d : Document) (links : List (ObjectId × ObjectId)) : Prop :=
  ∀ i j, d.RefersTo i j ↔ (i, j) ∈ links

theorem linked_empty : ({} : Document).Linked [] := by
  intro i j
  constructor
  · intro h
    cases h
  · intro h
    cases h

def referrals (d : Document) : List (ObjectId × ObjectId) :=
  d.keys.filterMap fun i => (d.refersTo? i).map (i, ·)

theorem linked_referrals (d : Document) : d.Linked d.referrals := by
  intro i j
  simp only [referrals, List.mem_filterMap, Option.map_eq_some_iff, Prod.mk.injEq]
  constructor
  · intro h
    exact ⟨i, mem_keys_of_refersTo h, j, h, rfl, rfl⟩
  · rintro ⟨k, -, r, hr, rfl, rfl⟩
    exact hr

theorem sources_referrals (d : Document) : (d.referrals.map (·.1)).Sublist d.keys :=
  Table.sublist_of_pairs d.refersTo? d.keys

theorem plates_setReference {new : Option ObjectId} (h : d.setReference i new = .ok e) :
    e.plates = d.plates :=
  plates_of_view (view_setReference (f := Object.plate) (fun _ o => by cases o <;> rfl)
    (fun o => by cases o <;> rfl) h)

theorem kindOf?_setReference (h : d.Registered) {new : Option ObjectId}
    (he : d.setReference i new = .ok e) (j : ObjectId) : e.kindOf? j = d.kindOf? j := by
  obtain ⟨k, _, _, _, rfl⟩ := (setReference_eq_ok_iff h).mp he
  split
  · rfl
  · exact kindOf?_link i (d.refersTo? i) new j

end Document

namespace Pnml

open Xml (Node)

/-- No chain of links comes back to where it began. -/
def Acyclic (links : List (ObjectId × ObjectId)) : Prop :=
  ∀ i, ¬ Relation.TransGen (fun a b => (a, b) ∈ links) i i

def linkStep (link : ObjectId × ObjectId) : Step := .edit (.setReference link.1 (some link.2))

section Making

variable {d e : Document} {links more : List (ObjectId × ObjectId)} {link : ObjectId × ObjectId}

theorem acyclic_of_linked (hd : d.Reachable Edit.IsPlain) (h : d.Linked links) : Acyclic links := by
  intro i hi
  have hrefers : Relation.TransGen d.RefersTo i i :=
    Relation.TransGen.mono (fun a b => (h a b).mpr) _ _ hi
  obtain ⟨j, hij, hji⟩ := Relation.TransGen.head'_iff.mp hrefers
  exact hd.aliased.grounded.not_reaches hij hji

theorem exists_take_link_iff (hd : d.Reachable Edit.IsPlain) :
    (∃ e, take d (linkStep link) = some e) ↔
      d.SameKind link.1 link.2 ∧ ¬ Relation.ReflTransGen d.RefersTo link.2 link.1 := by
  have hground := hd.aliased.grounded
  rw [linkStep, exists_take_edit]
  simp only [Document.edit, Document.setReference_eq_ok_iff hd.registered, Option.some.injEq,
    forall_eq', Document.mem_referents hground]
  constructor
  · rintro ⟨e, k, hk, hnode, ⟨hk', hfree⟩, -⟩
    exact ⟨⟨k, hk, hnode, hk'⟩, hfree⟩
  · rintro ⟨⟨k, hk, hnode, hk'⟩, hfree⟩
    exact ⟨_, k, hk, hnode, ⟨hk', hfree⟩, rfl⟩

theorem of_take_link (hd : d.Reachable Edit.IsPlain) (h : d.Linked links)
    (hfresh : link.1 ∉ links.map (·.1)) (he : take d (linkStep link) = some e) :
    e.Reachable Edit.IsPlain ∧ e.plates = d.plates ∧ (∀ i, e.kindOf? i = d.kindOf? i) ∧
      e.Linked (links ++ [link]) := by
  have hedit : d.setReference link.1 (some link.2) = .ok e := edit_of_take he
  have hrefers := Document.refersTo?_setReference hd.registered hedit
  have hplain : (Edit.setReference link.1 (some link.2)).IsPlain := trivial
  refine ⟨hd.edit hplain hedit, Document.plates_setReference hedit,
    Document.kindOf?_setReference hd.registered hedit, fun i j => ?_⟩
  rw [Document.RefersTo, hrefers, List.mem_append, List.mem_singleton, ← h i j]
  split
  · next hi =>
    subst hi
    have hnone : ¬ d.RefersTo link.1 j := by
      rw [h link.1 j]
      exact fun hm => hfresh (List.mem_map_of_mem (f := (·.1)) hm)
    simp only [hnone, false_or, Option.some.injEq]
    exact ⟨fun hj => Prod.ext rfl hj.symm, fun hj => congrArg Prod.snd hj.symm⟩
  · next hi =>
    have hne : (i, j) ≠ link := fun hl => hi (congrArg Prod.fst hl)
    simp only [hne, or_false]
    rfl

section

variable (hd : d.Reachable Edit.IsPlain) (h : d.Linked links)
  (hsources : ((links ++ more).map (·.1)).Nodup)
include hd h hsources

/-- Links of nodes that have none yet can all be made if they join nodes of one kind and form no
cycle with those that are there. -/
theorem exists_advance_links_iff : (∃ e, advance d (more.map linkStep) = some e) ↔
    (∀ l ∈ more, d.SameKind l.1 l.2) ∧ Acyclic (links ++ more) := by
  induction more generalizing d links with
  | nil =>
    rw [List.append_nil]
    simp [advance_nil, acyclic_of_linked hd h]
  | cons l more ih =>
    have hsplit : links ++ l :: more = links ++ [l] ++ more := by simp
    have hfresh : l.1 ∉ links.map (·.1) := by
      rw [List.map_append, List.map_cons] at hsources
      exact fun hm => (List.nodup_append.mp hsources).2.2 l.1 hm l.1 List.mem_cons_self rfl
    rw [hsplit] at hsources ⊢
    simp only [List.map_cons, advance_cons, Option.bind_eq_some_iff, List.forall_mem_cons]
    constructor
    · rintro ⟨e, next, hnext, he⟩
      obtain ⟨hkind, -⟩ := (exists_take_link_iff hd).mp ⟨next, hnext⟩
      obtain ⟨hreach, -, hkinds, hlinked⟩ := of_take_link hd h hfresh hnext
      obtain ⟨hrest, hacyclic⟩ := (ih hreach hlinked hsources).mp ⟨e, he⟩
      simp only [Document.SameKind, hkinds] at hrest
      exact ⟨⟨hkind, hrest⟩, hacyclic⟩
    · rintro ⟨⟨hkind, hrest⟩, hacyclic⟩
      have hfree : ¬ Relation.ReflTransGen d.RefersTo l.2 l.1 := by
        intro hback
        have hold : ∀ a b, d.RefersTo a b → (a, b) ∈ links ++ [l] ++ more :=
          fun a b hab => List.mem_append_left _ (List.mem_append_left _ ((h a b).mp hab))
        have hpath := Relation.ReflTransGen.mono hold _ _ hback
        exact hacyclic l.1 (.head' (by simp) hpath)
      obtain ⟨next, hnext⟩ := (exists_take_link_iff hd).mpr ⟨hkind, hfree⟩
      obtain ⟨hreach, -, hkinds, hlinked⟩ := of_take_link hd h hfresh hnext
      have hrest' : ∀ m ∈ more, next.SameKind m.1 m.2 := by
        simpa only [Document.SameKind, hkinds] using hrest
      obtain ⟨e, he⟩ := (ih hreach hlinked hsources).mpr ⟨hrest', hacyclic⟩
      exact ⟨e, next, hnext, he⟩

theorem of_advance_links (he : advance d (more.map linkStep) = some e) :
    e.Reachable Edit.IsPlain ∧ e.plates = d.plates ∧ e.Linked (links ++ more) := by
  induction more generalizing d links with
  | nil =>
    cases he
    exact ⟨hd, rfl, (List.append_nil links).symm ▸ h⟩
  | cons l more ih =>
    have hsplit : links ++ l :: more = links ++ [l] ++ more := by simp
    have hfresh : l.1 ∉ links.map (·.1) := by
      rw [List.map_append, List.map_cons] at hsources
      exact fun hm => (List.nodup_append.mp hsources).2.2 l.1 hm l.1 List.mem_cons_self rfl
    rw [hsplit] at hsources ⊢
    rw [List.map_cons, advance_cons] at he
    obtain ⟨next, hnext, hrest⟩ := Option.bind_eq_some_iff.mp he
    obtain ⟨hreach, hplates, -, hlinked⟩ := of_take_link hd h hfresh hnext
    obtain ⟨hereach, heplates, helinked⟩ := ih hreach hlinked hsources hrest
    exact ⟨hereach, heplates.trans hplates, helinked⟩

end

end Making

def Visit.referent? (v : Visit) : Option ObjectId :=
  if isReference v.element then (v.element.attribute? "ref").map ObjectId.mk else none

def linksOf (vs : List Visit) : List (ObjectId × ObjectId) :=
  vs.filterMap fun v => v.referent?.map (v.id, ·)

section Asked

variable {vs us : List Visit} {v : Visit} {n : Node}

theorem linksOf_append : linksOf (vs ++ us) = linksOf vs ++ linksOf us := List.filterMap_append

theorem mem_linksOf {i j : ObjectId} :
    (i, j) ∈ linksOf vs ↔ ∃ v ∈ vs, v.id = i ∧ v.referent? = some j := by
  simp only [linksOf, List.mem_filterMap, Option.map_eq_some_iff, Prod.mk.injEq]
  constructor
  · rintro ⟨v, hv, r, hr, hi, rfl⟩
    exact ⟨v, hv, hi, hr⟩
  · rintro ⟨v, hv, hi, hr⟩
    exact ⟨v, hv, j, hr, hi, rfl⟩

theorem sources_sublist : ((linksOf vs).map (·.1)).Sublist (idsOfVisits vs) := by
  induction vs with
  | nil => exact .slnil
  | cons v vs ih =>
    rw [linksOf, List.filterMap_cons]
    cases v.referent? with
    | none => exact ih.cons v.id
    | some r => exact ih.cons_cons v.id

theorem linkOf?_eq (h : ∃ s, v.element.attribute? "id" = some s) :
    linkOf? v.element = (v.referent?.map (v.id, ·)).map linkStep := by
  obtain ⟨s, hs⟩ := h
  rw [linkOf?, Visit.referent?, Visit.id, idOf, hs]
  split
  · cases v.element.attribute? "ref" <;> rfl
  · rfl

theorem isReference_of_tagged {tag : String} (hn : n.isTagged tag = true)
    (htag : tag ∈ ["net", "page", "arc"]) : isReference n = false := by
  cases n with
  | element t attributes children =>
    have ht : t = tag := by simpa [Node.isTagged] using hn
    subst ht
    simp only [List.mem_cons, List.not_mem_nil, or_false] at htag
    rcases htag with rfl | rfl | rfl <;> rfl
  | text content => cases hn
  | aside => cases hn

theorem linkOf?_of_tagged {tag : String} (hn : n.isTagged tag = true)
    (htag : tag ∈ ["net", "page", "arc"]) : linkOf? n = none := by
  rw [linkOf?, isReference_of_tagged hn htag]
  rfl

theorem nodeKind?_of_isReference (h : isReference n = true) : ∃ kind, nodeKind? n = some kind := by
  simp only [isReference, Bool.or_eq_true, decide_eq_true_eq] at h
  rcases h with h | h <;> simp [nodeKind?, h]

theorem links_nodeVisits (page : ObjectId) (n : Node) :
    (nodeVisits page n).filterMap (fun v => linkOf? v.element) = n.children.filterMap linkOf? := by
  rw [nodeVisits, List.filterMap_filterMap]
  refine congrArg (List.filterMap · n.children) (funext fun child => ?_)
  cases hr : isReference child with
  | false => cases nodeKind? child <;> simp [linkOf?, hr]
  | true =>
    obtain ⟨kind, hkind⟩ := nodeKind?_of_isReference hr
    rw [hkind]
    rfl

theorem links_arcVisits (page : ObjectId) (n : Node) :
    (arcVisits page n).filterMap (fun v => linkOf? v.element) = [] := by
  rw [List.filterMap_eq_nil_iff]
  intro v hv
  obtain ⟨child, hchild, rfl⟩ := List.mem_map.mp hv
  exact linkOf?_of_tagged (List.mem_filter.mp hchild).2 (by simp)

mutual

theorem pageLinks_eq (w : Owner) {n : Node} (hn : n.isTagged "page" = true) :
    pageLinks n = (pageVisits w n).filterMap fun v => linkOf? v.element := by
  cases n with
  | element tag attributes children =>
    have hhead : linkOf? (.element tag attributes children) = none :=
      linkOf?_of_tagged hn (by simp)
    rw [pageLinks, pageVisits, List.filterMap_append, List.cons_append, List.filterMap_cons]
    simp only [hhead]
    rw [List.filterMap_append, links_nodeVisits, links_arcVisits, List.append_nil, Node.children,
      ← nestedLinks_eq _ children]
  | text content => cases hn
  | aside => cases hn

theorem nestedLinks_eq (w : Owner) (children : List Node) :
    nestedLinks children = (nestedVisits w children).filterMap fun v => linkOf? v.element := by
  cases children with
  | nil => rfl
  | cons child rest =>
    rw [nestedLinks, nestedVisits, List.filterMap_append, ← nestedLinks_eq w rest]
    split
    · next hchild => rw [pageLinks_eq w hchild]
    · rfl

end

mutual

theorem isNode_pageVisits {w : Owner} {n : Node} (hn : n.isTagged "page" = true) :
    ∀ v ∈ pageVisits w n, isReference v.element = true → v.kind.isNode = true := by
  cases n with
  | element tag attributes children =>
    intro v hv hr
    rw [pageVisits] at hv
    simp only [List.cons_append, List.mem_cons, List.mem_append] at hv
    rcases hv with rfl | (hv | hv) | hv
    · rw [isReference_of_tagged hn (by simp)] at hr
      cases hr
    · exact (owner_nodeVisits v hv).2
    · obtain ⟨child, hchild, rfl⟩ := List.mem_map.mp hv
      rw [isReference_of_tagged (List.mem_filter.mp hchild).2 (by simp)] at hr
      cases hr
    · exact isNode_nestedVisits children v hv hr
  | text content => cases hn
  | aside => cases hn

theorem isNode_nestedVisits {w : Owner} (children : List Node) :
    ∀ v ∈ nestedVisits w children, isReference v.element = true → v.kind.isNode = true := by
  cases children with
  | nil => exact fun v hv => by cases hv
  | cons child rest =>
    intro v hv
    rw [nestedVisits, List.mem_append] at hv
    rcases hv with hv | hv
    · split at hv
      · next hchild => exact isNode_pageVisits hchild v hv
      · cases hv
    · exact isNode_nestedVisits rest v hv

end

theorem isNode_netVisits (hn : n.isTagged "net" = true) :
    ∀ v ∈ netVisits n, isReference v.element = true → v.kind.isNode = true := by
  intro v hv hr
  rcases List.mem_cons.mp hv with rfl | hv
  · rw [isReference_of_tagged hn (by simp)] at hr
    cases hr
  · exact isNode_nestedVisits n.children v hv hr

/-- The links of a net are those that its elements ask for. -/
theorem nestedLinks_eq_linksOf (hn : n.isTagged "net" = true)
    (hread : ∀ v ∈ netVisits n, IsReadable v.kind v.element) :
    nestedLinks n.children = (linksOf (netVisits n)).map linkStep := by
  have hnet : nestedLinks n.children = (netVisits n).filterMap fun v => linkOf? v.element := by
    rw [nestedLinks_eq (.net (idOf n)), netVisits, List.filterMap_cons]
    simp only [linkOf?_of_tagged hn (by simp : "net" ∈ ["net", "page", "arc"])]
  rw [hnet, linksOf, List.map_filterMap]
  exact List.filterMap_congr fun v hv => linkOf?_eq (hread v hv).id

end Asked

end Pnml

end PagedNets
