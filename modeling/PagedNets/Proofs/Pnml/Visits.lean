import PagedNets.Pnml.Script
import PagedNets.Proofs.Document.Fitting

/-!
The elements of an exchange document that are read, in the order in which they are, each with the
container that it stands in. If no identifier is used twice, what has the identifier of a container
for its owner is just what stands in that container.
-/

set_option autoImplicit false

namespace PagedNets.Pnml

open Xml (Node)

def idOf (n : Node) : ObjectId := ⟨(n.attribute? "id").getD ""⟩

def nodeKind? (n : Node) : Option Kind :=
  if n.tag = "place" || n.tag = "referencePlace" then some .place
  else if n.tag = "transition" || n.tag = "referenceTransition" then some .transition
  else none

/-- An element that is read, as an object of some kind in some container. -/
structure Visit where
  owner : Option Owner
  kind : Kind
  element : Node

namespace Visit

def id (v : Visit) : ObjectId := idOf v.element

def name (v : Visit) : Option String := (nameOf v.element).filter (!·.isEmpty)

def ends (v : Visit) : Option (ObjectId × ObjectId) :=
  if v.kind = .arc then
    some (⟨(v.element.attribute? "source").getD ""⟩, ⟨(v.element.attribute? "target").getD ""⟩)
  else none

def plate (v : Visit) : Plate :=
  { id := v.id, kind := v.kind, owner := v.owner, ends := v.ends, name := v.name }

def asOwner? (v : Visit) : Option Owner := v.plate.asOwner?

end Visit

def nodeVisits (page : ObjectId) (n : Node) : List Visit :=
  n.children.filterMap fun child => (nodeKind? child).map fun kind =>
    { owner := some (.page page), kind := kind, element := child }

def arcVisits (page : ObjectId) (n : Node) : List Visit :=
  (n.childrenTagged "arc").map fun child =>
    { owner := some (.page page), kind := .arc, element := child }

def pageHeads (owner : Owner) (children : List Node) : List Visit :=
  (children.filter (Node.isTagged "page")).map fun child =>
    { owner := some owner, kind := .page, element := child }

mutual

def pageVisits (owner : Owner) : Node → List Visit
  | .element tag attributes children =>
    let n := Node.element tag attributes children
    { owner := some owner, kind := .page, element := n }
      :: nodeVisits (idOf n) n ++ arcVisits (idOf n) n ++ nestedVisits (.page (idOf n)) children
  | _ => []

def nestedVisits (owner : Owner) : List Node → List Visit
  | [] => []
  | child :: rest =>
    (if child.isTagged "page" then pageVisits owner child else []) ++ nestedVisits owner rest

end

def netVisits (n : Node) : List Visit :=
  { owner := none, kind := .net, element := n } :: nestedVisits (.net (idOf n)) n.children

def visits (root : Node) : List Visit := (netElements root).flatMap netVisits

def Visit.members (v : Visit) : List Visit :=
  match v.kind with
  | .net => pageHeads (.net v.id) v.element.children
  | .page => nodeVisits v.id v.element ++ arcVisits v.id v.element ++
      pageHeads (.page v.id) v.element.children
  | _ => []

def idsOfVisits (vs : List Visit) : List ObjectId := vs.map Visit.id

def ownedBy (w : Owner) (vs : List Visit) : List Visit :=
  vs.filter fun v => decide (v.owner = some w)

theorem Visit.id_of_asOwner? {v : Visit} {w : Owner} (h : v.asOwner? = some w) : w.id = v.id :=
  Label.id_of_asOwner? h

section Owned

variable {w x : Owner} {vs us : List Visit}

theorem ownedBy_append : ownedBy w (vs ++ us) = ownedBy w vs ++ ownedBy w us :=
  List.filter_append ..

theorem ownedBy_eq_self (h : ∀ v ∈ vs, v.owner = some w) : ownedBy w vs = vs :=
  List.filter_eq_self.mpr fun v hv => by simp [h v hv]

theorem ownedBy_eq_nil (h : ∀ v ∈ vs, v.owner ≠ some w) : ownedBy w vs = [] :=
  List.filter_eq_nil_iff.mpr fun v hv => by simp [h v hv]

theorem owner_nodeVisits {page : ObjectId} {n : Node} :
    ∀ v ∈ nodeVisits page n, v.owner = some (.page page) ∧ v.kind.isNode = true := by
  intro v hv
  obtain ⟨child, -, hchild⟩ := List.mem_filterMap.mp hv
  obtain ⟨kind, hkind, rfl⟩ := Option.map_eq_some_iff.mp hchild
  refine ⟨rfl, ?_⟩
  unfold nodeKind? at hkind
  split at hkind
  · cases hkind
    rfl
  · split at hkind
    · cases hkind
      rfl
    · cases hkind

theorem owner_arcVisits {page : ObjectId} {n : Node} :
    ∀ v ∈ arcVisits page n, v.owner = some (.page page) ∧ v.kind = .arc := by
  intro v hv
  obtain ⟨child, -, rfl⟩ := List.mem_map.mp hv
  exact ⟨rfl, rfl⟩

theorem owner_pageHeads {children : List Node} :
    ∀ v ∈ pageHeads w children, v.owner = some w ∧ v.kind = .page := by
  intro v hv
  obtain ⟨child, -, rfl⟩ := List.mem_map.mp hv
  exact ⟨rfl, rfl⟩

/-- Visits inside a container `w`, of which those in `heads` are directly in it. -/
structure Nested (w : Owner) (heads vs : List Visit) : Prop where
  owned : ∀ v ∈ vs, ∃ x, v.owner = some x ∧ (x = w ∨ ∃ c ∈ vs, c.asOwner? = some x)
  direct : w.id ∉ idsOfVisits vs → (idsOfVisits vs).Nodup → ownedBy w vs = heads
  members : w.id ∉ idsOfVisits vs → (idsOfVisits vs).Nodup →
    ∀ v ∈ vs, ∀ x, v.asOwner? = some x → ownedBy x vs = v.members

theorem Nested.nil : Nested w [] [] :=
  ⟨fun v hv => (by cases hv), fun _ _ => rfl, fun _ _ v hv => (by cases hv)⟩

theorem Nested.ownedBy_eq_nil {heads : List Visit} (h : Nested w heads vs) (hx : x.id ≠ w.id)
    (hxs : x.id ∉ idsOfVisits vs) : ownedBy x vs = [] := by
  refine Pnml.ownedBy_eq_nil fun v hv hvx => ?_
  obtain ⟨y, hvy, hy⟩ := h.owned v hv
  rw [hvx] at hvy
  cases hvy
  rcases hy with rfl | ⟨c, hc, hcx⟩
  · exact hx rfl
  · exact hxs (c.id_of_asOwner? hcx ▸ List.mem_map_of_mem hc)

theorem Nested.append {heads more : List Visit} (h : Nested w heads vs) (hu : Nested w more us) :
    Nested w (heads ++ more) (vs ++ us) := by
  have hids : idsOfVisits (vs ++ us) = idsOfVisits vs ++ idsOfVisits us := List.map_append
  constructor
  · intro v hv
    rcases List.mem_append.mp hv with hv | hv
    · obtain ⟨x, hvx, hx⟩ := h.owned v hv
      exact ⟨x, hvx, hx.imp_right fun ⟨c, hc, hcx⟩ => ⟨c, List.mem_append_left _ hc, hcx⟩⟩
    · obtain ⟨x, hvx, hx⟩ := hu.owned v hv
      exact ⟨x, hvx, hx.imp_right fun ⟨c, hc, hcx⟩ => ⟨c, List.mem_append_right _ hc, hcx⟩⟩
  · intro hw hnodup
    rw [hids] at hw hnodup
    obtain ⟨hvs, hus, -⟩ := List.nodup_append.mp hnodup
    rw [ownedBy_append, h.direct (fun hm => hw (List.mem_append_left _ hm)) hvs,
      hu.direct (fun hm => hw (List.mem_append_right _ hm)) hus]
  · intro hw hnodup v hv x hvx
    rw [hids] at hw hnodup
    obtain ⟨hvs, hus, hdisjoint⟩ := List.nodup_append.mp hnodup
    have hwvs : w.id ∉ idsOfVisits vs := fun hm => hw (List.mem_append_left _ hm)
    have hwus : w.id ∉ idsOfVisits us := fun hm => hw (List.mem_append_right _ hm)
    have hid : x.id = v.id := v.id_of_asOwner? hvx
    rw [ownedBy_append]
    rcases List.mem_append.mp hv with hv | hv
    · have hmem : x.id ∈ idsOfVisits vs := hid ▸ List.mem_map_of_mem hv
      rw [h.members hwvs hvs v hv x hvx, hu.ownedBy_eq_nil (fun he => hwvs (he ▸ hmem))
        fun hm => hdisjoint x.id hmem x.id hm rfl, List.append_nil]
    · have hmem : x.id ∈ idsOfVisits us := hid ▸ List.mem_map_of_mem hv
      rw [hu.members hwus hus v hv x hvx, h.ownedBy_eq_nil (fun he => hwus (he ▸ hmem))
        fun hm => hdisjoint x.id hm x.id hmem rfl, List.nil_append]

section Under

variable {head : Visit} {direct heads : List Visit} (hw : head.owner = some w)
  (hdirect : ∀ v ∈ direct, v.owner = some x ∧ v.asOwner? = none)
include hw hdirect

theorem ownedBy_under (y : Owner) : ownedBy y (head :: (direct ++ vs)) =
    (if w = y then [head] else []) ++ ((if x = y then direct else []) ++ ownedBy y vs) := by
  have hhead : ownedBy y [head] = if w = y then [head] else [] := by
    by_cases hy : w = y <;> simp [ownedBy, hw, hy]
  have hrest : ownedBy y direct = if x = y then direct else [] := by
    split
    · next hy => exact ownedBy_eq_self fun v hv => hy ▸ (hdirect v hv).1
    · next hy =>
      refine Pnml.ownedBy_eq_nil fun v hv hvy => hy ?_
      rw [(hdirect v hv).1] at hvy
      exact Option.some.inj hvy
  rw [← List.singleton_append, ownedBy_append, ownedBy_append, hhead, hrest]

theorem Nested.under (hx : head.asOwner? = some x) (hmembers : head.members = direct ++ heads)
    (h : Nested x heads vs) : Nested w [head] (head :: (direct ++ vs)) := by
  have hid : x.id = head.id := head.id_of_asOwner? hx
  have hids : idsOfVisits (head :: (direct ++ vs)) =
      x.id :: (idsOfVisits direct ++ idsOfVisits vs) := by
    simp [idsOfVisits, hid]
  constructor
  · intro v hv
    rcases List.mem_cons.mp hv with rfl | hv
    · exact ⟨w, hw, .inl rfl⟩
    rcases List.mem_append.mp hv with hv | hv
    · exact ⟨x, (hdirect v hv).1, .inr ⟨head, List.mem_cons_self, hx⟩⟩
    · obtain ⟨y, hvy, rfl | ⟨c, hc, hcy⟩⟩ := h.owned v hv
      · exact ⟨y, hvy, .inr ⟨head, List.mem_cons_self, hx⟩⟩
      · exact ⟨y, hvy, .inr ⟨c, List.mem_cons_of_mem _ (List.mem_append_right _ hc), hcy⟩⟩
  · intro hout hnodup
    rw [hids, List.mem_cons, not_or] at hout
    obtain ⟨hne, hrest⟩ := hout
    have hxw : ¬ x = w := fun he => hne (he ▸ rfl)
    rw [ownedBy_under hw hdirect, if_pos rfl, if_neg hxw,
      h.ownedBy_eq_nil hne fun hm => hrest (List.mem_append_right _ hm)]
    rfl
  · intro hout hnodup v hv y hvy
    have hwy : ¬ w = y := by
      rintro rfl
      exact hout (v.id_of_asOwner? hvy ▸ List.mem_map_of_mem hv)
    rw [hids] at hnodup
    obtain ⟨hfresh, hrest⟩ := List.nodup_cons.mp hnodup
    obtain ⟨-, hvs, -⟩ := List.nodup_append.mp hrest
    have hxvs : x.id ∉ idsOfVisits vs := fun hm => hfresh (List.mem_append_right _ hm)
    rw [ownedBy_under hw hdirect, if_neg hwy, List.nil_append]
    rcases List.mem_cons.mp hv with rfl | hv
    · obtain rfl : x = y := Option.some.inj (hx.symm.trans hvy)
      rw [if_pos rfl, h.direct hxvs hvs, hmembers]
    rcases List.mem_append.mp hv with hv | hv
    · rw [(hdirect v hv).2] at hvy
      cases hvy
    · have hxy : ¬ x = y := by
        rintro rfl
        exact hxvs (v.id_of_asOwner? hvy ▸ List.mem_map_of_mem hv)
      rw [if_neg hxy, List.nil_append]
      exact h.members hxvs hvs v hv y hvy

end Under

theorem owner_direct {page : ObjectId} {n : Node} :
    ∀ v ∈ nodeVisits page n ++ arcVisits page n,
      v.owner = some (.page page) ∧ v.asOwner? = none := by
  intro v hv
  rcases List.mem_append.mp hv with hv | hv
  · obtain ⟨howner, hkind⟩ := owner_nodeVisits v hv
    refine ⟨howner, ?_⟩
    cases hk : v.kind <;> simp_all [Visit.asOwner?, Label.asOwner?, Visit.plate, Kind.isNode]
  · obtain ⟨howner, hkind⟩ := owner_arcVisits v hv
    exact ⟨howner, by simp [Visit.asOwner?, Label.asOwner?, Visit.plate, hkind]⟩

theorem Nested.page {n : Node} {vs : List Visit}
    (h : Nested (.page (idOf n)) (pageHeads (.page (idOf n)) n.children) vs) :
    Nested w [{ owner := some w, kind := .page, element := n }]
      ({ owner := some w, kind := .page, element := n } :: nodeVisits (idOf n) n ++
        arcVisits (idOf n) n ++ vs) := by
  rw [List.append_assoc, List.cons_append, ← List.append_assoc]
  exact .under rfl owner_direct rfl rfl h

mutual

theorem nested_pageVisits (w : Owner) {n : Node} (hn : n.isTagged "page" = true) :
    Nested w [{ owner := some w, kind := .page, element := n }] (pageVisits w n) := by
  cases n with
  | element tag attributes children =>
    rw [pageVisits]
    exact .page (nested_nestedVisits _ children)
  | text content => cases hn
  | aside => cases hn

theorem nested_nestedVisits (w : Owner) (children : List Node) :
    Nested w (pageHeads w children) (nestedVisits w children) := by
  cases children with
  | nil => exact .nil
  | cons child rest =>
    rw [nestedVisits]
    split
    · next hchild =>
      have hheads : pageHeads w (child :: rest) =
          [{ owner := some w, kind := .page, element := child }] ++ pageHeads w rest := by
        simp [pageHeads, hchild]
      rw [hheads]
      exact (nested_pageVisits w hchild).append (nested_nestedVisits w rest)
    · next hchild =>
      have hheads : pageHeads w (child :: rest) = pageHeads w rest := by
        simp [pageHeads, hchild]
      rw [hheads, List.nil_append]
      exact nested_nestedVisits w rest

end

structure Whole (vs : List Visit) : Prop where
  owned : ∀ v ∈ vs, ∀ x, v.owner = some x → ∃ c ∈ vs, c.asOwner? = some x
  members : (idsOfVisits vs).Nodup → ∀ v ∈ vs, ∀ x, v.asOwner? = some x → ownedBy x vs = v.members

theorem Whole.nil : Whole [] := ⟨fun v hv => (by cases hv), fun _ v hv => (by cases hv)⟩

theorem Whole.mem_ids (h : Whole vs) {v : Visit} (hv : v ∈ vs) (hvx : v.owner = some x) :
    x.id ∈ idsOfVisits vs := by
  obtain ⟨c, hc, hcx⟩ := h.owned v hv x hvx
  exact c.id_of_asOwner? hcx ▸ List.mem_map_of_mem hc

theorem Whole.append (h : Whole vs) (hu : Whole us) : Whole (vs ++ us) := by
  have hids : idsOfVisits (vs ++ us) = idsOfVisits vs ++ idsOfVisits us := List.map_append
  constructor
  · intro v hv x hvx
    rcases List.mem_append.mp hv with hv | hv
    · obtain ⟨c, hc, hcx⟩ := h.owned v hv x hvx
      exact ⟨c, List.mem_append_left _ hc, hcx⟩
    · obtain ⟨c, hc, hcx⟩ := hu.owned v hv x hvx
      exact ⟨c, List.mem_append_right _ hc, hcx⟩
  · intro hnodup v hv x hvx
    rw [hids] at hnodup
    obtain ⟨hvs, hus, hdisjoint⟩ := List.nodup_append.mp hnodup
    have hid : x.id = v.id := v.id_of_asOwner? hvx
    rw [ownedBy_append]
    rcases List.mem_append.mp hv with hv | hv
    · have hmem : x.id ∈ idsOfVisits vs := hid ▸ List.mem_map_of_mem hv
      have hnil : ownedBy x us = [] := ownedBy_eq_nil fun u hu' hux =>
        hdisjoint x.id hmem x.id (hu.mem_ids hu' hux) rfl
      rw [h.members hvs v hv x hvx, hnil, List.append_nil]
    · have hmem : x.id ∈ idsOfVisits us := hid ▸ List.mem_map_of_mem hv
      have hnil : ownedBy x vs = [] := ownedBy_eq_nil fun u hu' hux =>
        hdisjoint x.id (h.mem_ids hu' hux) x.id hmem rfl
      rw [hu.members hus v hv x hvx, hnil, List.nil_append]

theorem whole_netVisits (n : Node) : Whole (netVisits n) := by
  have h := nested_nestedVisits (.net (idOf n)) n.children
  have hids : idsOfVisits (netVisits n) =
      idOf n :: idsOfVisits (nestedVisits (.net (idOf n)) n.children) := rfl
  constructor
  · intro v hv x hvx
    rcases List.mem_cons.mp hv with rfl | hv
    · cases hvx
    · obtain ⟨y, hvy, hy⟩ := h.owned v hv
      rw [hvx] at hvy
      cases hvy
      rcases hy with rfl | ⟨c, hc, hcx⟩
      · exact ⟨_, List.mem_cons_self, rfl⟩
      · exact ⟨c, List.mem_cons_of_mem _ hc, hcx⟩
  · intro hnodup v hv x hvx
    rw [hids] at hnodup
    obtain ⟨hn, hrest⟩ := List.nodup_cons.mp hnodup
    have hskip : ownedBy x (netVisits n) =
        ownedBy x (nestedVisits (.net (idOf n)) n.children) := rfl
    rw [hskip]
    rcases List.mem_cons.mp hv with rfl | hv
    · cases hvx
      exact h.direct hn hrest
    · exact h.members hn hrest v hv x hvx

theorem whole_flatMap (nets : List Node) : Whole (nets.flatMap netVisits) := by
  induction nets with
  | nil => exact .nil
  | cons n nets ih => exact (whole_netVisits n).append ih

theorem members_eq_nil {v : Visit} (h : v.asOwner? = none) : v.members = [] := by
  unfold Visit.members
  unfold Visit.asOwner? Label.asOwner? at h
  cases hk : v.kind <;> simp_all [Visit.plate]

theorem Whole.pairwise_iff (h : Whole vs) (hnodup : (idsOfVisits vs).Nodup)
    {S : Visit → Visit → Prop} :
    (vs.Pairwise fun u v => ∀ x, u.owner = some x → v.owner = some x → S u v) ↔
      ∀ v ∈ vs, v.members.Pairwise S := by
  constructor
  · intro hpairs v hv
    cases hx : v.asOwner? with
    | none =>
      rw [members_eq_nil hx]
      exact .nil
    | some x =>
      rw [← h.members hnodup v hv x hx]
      refine (hpairs.sublist List.filter_sublist).imp_of_mem fun {a b} ha hb hab => ?_
      exact hab x (of_decide_eq_true (List.mem_filter.mp ha).2)
        (of_decide_eq_true (List.mem_filter.mp hb).2)
  · intro hS
    rw [List.pairwise_iff_forall_sublist]
    intro u v huv x hux hvx
    obtain ⟨c, hc, hcx⟩ := h.owned u (huv.subset (by simp)) x hux
    have hpair : (ownedBy x [u, v]).Sublist (ownedBy x vs) := huv.filter _
    rw [h.members hnodup c hc x hcx, ownedBy_eq_self (by simp [hux, hvx])] at hpair
    exact (List.pairwise_iff_forall_sublist.mp (hS c hc)) hpair

theorem Whole.sublist_members (h : Whole vs) (hnodup : (idsOfVisits vs).Nodup) {v : Visit}
    (hv : v ∈ vs) : v.members.Sublist vs := by
  cases hx : v.asOwner? with
  | some x =>
    rw [← h.members hnodup v hv x hx]
    exact List.filter_sublist
  | none =>
    rw [members_eq_nil hx]
    exact List.nil_sublist _

theorem pairwise_members (v : Visit) :
    v.members.Pairwise fun a b => a.kind = .arc → b.kind.isNode = false := by
  cases hk : v.kind with
  | net =>
    simp only [Visit.members, hk]
    refine List.pairwise_of_forall_mem_list fun a _ b hb _ => ?_
    rw [(owner_pageHeads b hb).2]
    rfl
  | page =>
    simp only [Visit.members, hk]
    have hlater : ∀ b ∈ arcVisits v.id v.element ++ pageHeads (.page v.id) v.element.children,
        b.kind.isNode = false := by
      intro b hb
      rcases List.mem_append.mp hb with hb | hb
      · rw [(owner_arcVisits b hb).2]
        rfl
      · rw [(owner_pageHeads b hb).2]
        rfl
    have hnode : ∀ a ∈ nodeVisits v.id v.element, a.kind ≠ .arc := by
      intro a ha harc
      have hnode := (owner_nodeVisits a ha).2
      rw [harc] at hnode
      cases hnode
    rw [List.append_assoc, List.pairwise_append]
    refine ⟨?_, ?_, fun a ha b _ harc => absurd harc (hnode a ha)⟩
    · exact List.pairwise_of_forall_mem_list fun a ha b _ harc => absurd harc (hnode a ha)
    · exact List.pairwise_of_forall_mem_list fun a _ b hb _ => hlater b hb
  | place => simp [Visit.members, hk]
  | transition => simp [Visit.members, hk]
  | arc => simp [Visit.members, hk]

theorem Whole.nodesFirst (h : Whole vs) (hnodup : (idsOfVisits vs).Nodup) :
    Plate.NodesFirst (vs.map Visit.plate) := by
  refine ⟨List.pairwise_map.mpr ((h.pairwise_iff hnodup).mpr fun v _ => pairwise_members v), ?_⟩
  intro q hq hends
  obtain ⟨v, -, rfl⟩ := List.mem_map.mp hq
  by_contra hk
  exact hends (if_neg hk)

end Owned

section Elements

variable {P : Node → Prop}

mutual

theorem forall_pageVisits (hP : ∀ n, P n → ∀ m ∈ n.children, P m) (w : Owner) {n : Node} (h : P n) :
    ∀ v ∈ pageVisits w n, P v.element := by
  cases n with
  | element tag attributes children =>
    have hchildren := hP _ h
    rw [pageVisits]
    refine List.forall_mem_append.mpr ⟨List.forall_mem_append.mpr
      ⟨List.forall_mem_cons.mpr ⟨h, ?_⟩, ?_⟩, forall_nestedVisits hP _ hchildren⟩
    · intro v hv
      obtain ⟨child, hmem, hchild⟩ := List.mem_filterMap.mp hv
      obtain ⟨kind, -, rfl⟩ := Option.map_eq_some_iff.mp hchild
      exact hchildren child hmem
    · intro v hv
      obtain ⟨child, hmem, rfl⟩ := List.mem_map.mp hv
      exact hchildren child (List.mem_filter.mp hmem).1
  | text content => exact fun v hv => by cases hv
  | aside => exact fun v hv => by cases hv

theorem forall_nestedVisits (hP : ∀ n, P n → ∀ m ∈ n.children, P m) (w : Owner)
    {children : List Node} (h : ∀ m ∈ children, P m) :
    ∀ v ∈ nestedVisits w children, P v.element := by
  cases children with
  | nil => exact fun v hv => by cases hv
  | cons child rest =>
    obtain ⟨hchild, hrest⟩ := List.forall_mem_cons.mp h
    rw [nestedVisits]
    refine List.forall_mem_append.mpr ⟨?_, forall_nestedVisits hP w hrest⟩
    split
    · exact forall_pageVisits hP w hchild
    · exact fun v hv => by cases hv

end

/-- A property that elements hand down to their children holds of all that is read. -/
theorem forall_visits (hP : ∀ n, P n → ∀ m ∈ n.children, P m) {root : Node}
    (h : P root) : ∀ v ∈ visits root, P v.element := by
  have hnets : ∀ n ∈ netElements root, P n := by
    intro n hn
    unfold netElements at hn
    split at hn
    · rw [List.mem_singleton.mp hn]
      exact h
    · exact hP root h n (List.mem_filter.mp hn).1
  intro v hv
  obtain ⟨n, hn, hv⟩ := List.mem_flatMap.mp hv
  rcases List.mem_cons.mp hv with rfl | hv
  · exact hnets n hn
  · exact forall_nestedVisits hP _ (hP n (hnets n hn)) v hv

end Elements

section Housed

open Plate (Along Housed along_append along_housed)

theorem housed_direct {ps : List Plate} {page : ObjectId} {vs : List Visit}
    (hp : ∃ p ∈ ps, p.asOwner? = some (.page page))
    (hv : ∀ v ∈ vs, v.owner = some (.page page) ∧ v.kind ≠ .net) :
    Along Housed ps (vs.map Visit.plate) := by
  refine along_housed fun q hq => ?_
  obtain ⟨v, hmem, rfl⟩ := List.mem_map.mp hq
  obtain ⟨howner, hkind⟩ := hv v hmem
  exact .inr ⟨_, howner, hp, hkind, fun c hc => by cases hc⟩

mutual

theorem housed_pageVisits {ps : List Plate} {w : Owner} (hw : ∃ p ∈ ps, p.asOwner? = some w)
    (n : Node) : Along Housed ps ((pageVisits w n).map Visit.plate) := by
  cases n with
  | element tag attributes children =>
    rw [pageVisits]
    have hmore : ∀ more : List Plate, ∃ p ∈ ps ++ [Visit.plate
        { owner := some w, kind := .page, element := .element tag attributes children }] ++ more,
        p.asOwner? = some (.page (idOf (.element tag attributes children))) := fun more =>
      ⟨_, List.mem_append_left _ (List.mem_append_right _ (List.mem_singleton_self _)), rfl⟩
    have hnodes : ∀ v ∈ nodeVisits (idOf (.element tag attributes children))
        (.element tag attributes children),
        v.owner = some (.page (idOf (.element tag attributes children))) ∧ v.kind ≠ .net := by
      intro v hv
      obtain ⟨howner, hkind⟩ := owner_nodeVisits v hv
      refine ⟨howner, fun hnet => ?_⟩
      rw [hnet] at hkind
      cases hkind
    have harcs : ∀ v ∈ arcVisits (idOf (.element tag attributes children))
        (.element tag attributes children),
        v.owner = some (.page (idOf (.element tag attributes children))) ∧ v.kind ≠ .net := by
      intro v hv
      obtain ⟨howner, hkind⟩ := owner_arcVisits v hv
      refine ⟨howner, fun hnet => ?_⟩
      rw [hnet] at hkind
      cases hkind
    rw [List.cons_append, List.cons_append, List.map_cons, List.map_append, List.map_append]
    refine ⟨.inr ⟨w, rfl, hw, ?_, fun _ _ => rfl⟩, ?_⟩
    · exact fun hk => by cases hk
    rw [along_append, along_append]
    refine ⟨⟨?_, ?_⟩, ?_⟩
    · have h := hmore []
      rw [List.append_nil] at h
      exact housed_direct h hnodes
    · exact housed_direct (hmore _) harcs
    · exact housed_nestedVisits (hmore _) children
  | text content => trivial
  | aside => trivial

theorem housed_nestedVisits {ps : List Plate} {w : Owner} (hw : ∃ p ∈ ps, p.asOwner? = some w)
    (children : List Node) : Along Housed ps ((nestedVisits w children).map Visit.plate) := by
  cases children with
  | nil => trivial
  | cons child rest =>
    rw [nestedVisits, List.map_append, along_append]
    constructor
    · split
      · exact housed_pageVisits hw child
      · trivial
    · obtain ⟨p, hp, hpw⟩ := hw
      exact housed_nestedVisits ⟨p, List.mem_append_left _ hp, hpw⟩ rest

end

theorem housed_netVisits (ps : List Plate) (n : Node) :
    Along Housed ps ((netVisits n).map Visit.plate) := by
  rw [netVisits, List.map_cons]
  exact ⟨.inl ⟨rfl, rfl⟩, housed_nestedVisits
    ⟨_, List.mem_append_right _ (List.mem_singleton_self _), rfl⟩ n.children⟩

theorem housed_of_mem {n : Node} {v : Visit} (hv : v ∈ netVisits n) :
    ∃ ps, Housed ps v.plate :=
  (housed_netVisits [] n).exists_of_mem (List.mem_map_of_mem hv)

end Housed

end PagedNets.Pnml
