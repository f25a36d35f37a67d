import PagedNets.Proofs.Pnml.Links

/-!
Linking many nodes one after the other, none of which has a referent yet.
-/

set_option autoImplicit false

namespace PagedNets

namespace Object

def unlinked (o : Object) : Object :=
  o.mapNode fun n => { n with reference := none, referencedBy := [] }

theorem eq_of_unlinked {o x : Object} (h : x.unlinked = o.unlinked)
    (hr : x.reference? = o.reference?)
    (ha : (x.links.map (·.2)).getD [] = (o.links.map (·.2)).getD []) : x = o := by
  cases o with
  | place p =>
    cases x with
    | place q =>
      obtain ⟨_, _, _, ⟨_, _, _, _⟩, _, _⟩ := p
      obtain ⟨_, _, _, ⟨_, _, _, _⟩, _, _⟩ := q
      cases hr
      cases ha
      cases h
      rfl
    | _ => cases h
  | transition t =>
    cases x with
    | transition u =>
      obtain ⟨_, _, _, ⟨_, _, _, _⟩⟩ := t
      obtain ⟨_, _, _, ⟨_, _, _, _⟩⟩ := u
      cases hr
      cases ha
      cases h
      rfl
    | _ => cases h
  | _ => cases x <;> first | exact h | cases h

end Object

namespace Document

variable {d e : Document} {i t : ObjectId} {links : List (ObjectId × ObjectId)}

theorem eq_of_objects (hd : d.keys.Nodup) (hk : e.keys = d.keys)
    (h : ∀ i, e.object? i = d.object? i) : e = d := by
  obtain ⟨t⟩ := d
  obtain ⟨u⟩ := e
  have hu : u.entries = t.entries := by
    have hkeys : u.keys = t.keys := hk
    have hnodup : t.keys.Nodup := hd
    rw [Table.entries_eq_filterMap (hkeys ▸ hnodup), Table.entries_eq_filterMap hnodup, hkeys]
    exact List.filterMap_congr fun k _ => congrArg (Option.map (k, ·)) (h k)
  exact congrArg Document.mk (congrArg Table.mk hu)

/-- Apart from its alias links a document is its objects, and its alias links are what each node
refers to. -/
theorem eq_of_refersTo? (hd : d.Reachable Edit.IsPlain) (he : e.Reachable Edit.IsPlain)
    (hv : e.view Object.unlinked = d.view Object.unlinked)
    (hr : ∀ i, e.refersTo? i = d.refersTo? i) : e = d := by
  refine eq_of_objects hd.registered.distinct (keys_of_view hv) fun i => ?_
  have haliases := aliasesOf_congr hd.aliased he.aliased hr i
  have hrefers := hr i
  cases hx : e.object? i with
  | none =>
    have hm := object?_of_view hv i
    rw [hx] at hm
    exact (Option.map_eq_none_iff.mp hm.symm).symm
  | some x =>
    obtain ⟨o, ho, hox⟩ := exists_of_view hv hx
    rw [refersTo?, refersTo?, ho, hx, Option.bind_some, Option.bind_some] at hrefers
    rw [aliasesOf_eq, aliasesOf_eq, ho, hx, Option.bind_some, Option.bind_some] at haliases
    rw [ho, Object.eq_of_unlinked hox.symm hrefers haliases]

/-- Makes links one after the other, up to the first that is refused. -/
def linkAll (d : Document) (links : List (ObjectId × ObjectId)) : Except NetError Document :=
  links.foldlM (fun d l => d.setReference l.1 (some l.2)) d

theorem linkAll_cons (l : ObjectId × ObjectId) :
    d.linkAll (l :: links) = d.setReference l.1 (some l.2) >>= fun next => next.linkAll links :=
  List.foldlM_cons

theorem linkAll_eq_ok_iff : d.linkAll links = .ok e ↔
    Pnml.advance d (links.map Pnml.linkStep) = some e := by
  induction links generalizing d with
  | nil => simp [linkAll, Pnml.advance, pure, Except.pure]
  | cons l links ih =>
    rw [linkAll_cons, List.map_cons, Pnml.advance_cons, Pnml.linkStep, Pnml.take, edit]
    cases d.setReference l.1 (some l.2) with
    | error cause => simp [bind, Except.bind, Except.toOption]
    | ok next => exact ih

theorem view_linkAll (h : d.linkAll links = .ok e) :
    e.view Object.unlinked = d.view Object.unlinked := by
  induction links generalizing d with
  | nil =>
    cases h
    rfl
  | cons l links ih =>
    rw [linkAll_cons] at h
    cases hset : d.setReference l.1 (some l.2) with
    | error cause => simp [hset, bind, Except.bind] at h
    | ok next =>
      rw [hset] at h
      rw [ih h]
      exact view_setReference (fun _ o => by cases o <;> rfl) (fun o => by cases o <;> rfl) hset

theorem referenceCycle_of_setReference (hr : d.Registered) (hk : d.SameKind i t)
    {cause : NetError} (h : d.setReference i (some t) = .error cause) :
    cause = .referenceCycle i t := by
  obtain ⟨k, hki, hnode, hkt⟩ := hk
  obtain ⟨o, ho, rfl⟩ := Option.map_eq_some_iff.mp hki
  obtain ⟨x, hx, hxk⟩ := Option.map_eq_some_iff.mp hkt
  obtain ⟨n, hn⟩ := Option.isSome_iff_exists.mp (o.isSome_node?_iff.trans hnode)
  have hid := hr.id_of_object? ho
  by_cases hm : i ∈ d.referents t
  · simp [setReference, ho, hn, hid, checkLink, checkReference, hx, hxk, hm, bind, Except.bind] at h
    exact h.symm
  · simp [setReference, ho, hn, hid, checkLink, checkReference, hx, hxk, hm, bind, Except.bind] at h

/-- Links that are still to be made: each of another node, which has no referent yet, and to a node
of its kind. -/
structure Due (d : Document) (links : List (ObjectId × ObjectId)) : Prop where
  distinct : (links.map (·.1)).Nodup
  unlinked : ∀ l ∈ links, d.refersTo? l.1 = none
  alike : ∀ l ∈ links, d.SameKind l.1 l.2

/-- Together with the links that are there these links form a cycle. -/
def Closes (d : Document) (links : List (ObjectId × ObjectId)) : Prop :=
  ∃ i, Relation.TransGen (fun a b => d.RefersTo a b ∨ (a, b) ∈ links) i i

theorem acyclic_iff_not_closes : Pnml.Acyclic (d.referrals ++ links) ↔ ¬ d.Closes links := by
  have hstep : (fun a b => (a, b) ∈ d.referrals ++ links) =
      fun a b => d.RefersTo a b ∨ (a, b) ∈ links := by
    funext a b
    rw [List.mem_append, ← linked_referrals d a b]
  rw [Pnml.Acyclic, hstep, Closes, not_exists]

theorem Due.perm {order : List (ObjectId × ObjectId)} (h : d.Due links) (hp : order.Perm links) :
    d.Due order :=
  ⟨(hp.map _).nodup_iff.mpr h.distinct, fun l hl => h.unlinked l (hp.subset hl),
    fun l hl => h.alike l (hp.subset hl)⟩

theorem Due.nodup_sources (hd : d.Reachable Edit.IsPlain) (h : d.Due links) :
    ((d.referrals ++ links).map (·.1)).Nodup := by
  rw [List.map_append]
  refine List.nodup_append.mpr ⟨hd.registered.distinct.sublist d.sources_referrals, h.distinct,
    fun i hi j hj hij => ?_⟩
  obtain ⟨⟨a, b⟩, hmade, rfl⟩ := List.mem_map.mp hi
  obtain ⟨l, hl, rfl⟩ := List.mem_map.mp hj
  have hnone := h.unlinked l hl
  rw [← hij] at hnone
  have hsome := (linked_referrals d a b).mpr hmade
  rw [RefersTo, hnone] at hsome
  cases hsome

section

variable (hd : d.Reachable Edit.IsPlain) (h : d.Due links)
include hd h

theorem exists_linkAll_iff : (∃ e, d.linkAll links = .ok e) ↔ ¬ d.Closes links := by
  simp only [linkAll_eq_ok_iff]
  rw [Pnml.exists_advance_links_iff hd (linked_referrals d) (h.nodup_sources hd),
    acyclic_iff_not_closes]
  exact ⟨fun hall => hall.2, fun hfree => ⟨h.alike, hfree⟩⟩

theorem of_linkAll (he : d.linkAll links = .ok e) :
    e.Reachable Edit.IsPlain ∧ ∀ i j, e.RefersTo i j ↔ d.RefersTo i j ∨ (i, j) ∈ links := by
  obtain ⟨hereach, -, hlinked⟩ := Pnml.of_advance_links hd (linked_referrals d)
    (h.nodup_sources hd) (linkAll_eq_ok_iff.mp he)
  refine ⟨hereach, fun i j => ?_⟩
  rw [hlinked, List.mem_append, ← linked_referrals d i j]

theorem linkAll_perm (he : d.linkAll links = .ok e) {order : List (ObjectId × ObjectId)}
    (hp : order.Perm links) : d.linkAll order = .ok e := by
  have hfree : ¬ d.Closes order := by
    have hsame : d.Closes order ↔ d.Closes links := by simp only [Closes, hp.mem_iff]
    rw [hsame]
    exact (exists_linkAll_iff hd h).mp ⟨e, he⟩
  obtain ⟨f, hf⟩ := (exists_linkAll_iff hd (h.perm hp)).mpr hfree
  obtain ⟨hereach, hrefers⟩ := of_linkAll hd h he
  obtain ⟨hfreach, hfrefers⟩ := of_linkAll hd (h.perm hp) hf
  rw [hf]
  refine congrArg Except.ok (eq_of_refersTo? hereach hfreach ?_ fun i => ?_)
  · rw [view_linkAll hf, view_linkAll he]
  · refine Option.ext fun j => ?_
    exact (hfrefers i j).trans ((or_congr_right hp.mem_iff).trans (hrefers i j).symm)

end

theorem referenceCycle_of_linkAll (hd : d.Reachable Edit.IsPlain)
    (hk : ∀ l ∈ links, d.SameKind l.1 l.2) {cause : NetError}
    (h : d.linkAll links = .error cause) : ∃ l ∈ links, cause = .referenceCycle l.1 l.2 := by
  induction links generalizing d with
  | nil => cases h
  | cons l links ih =>
    obtain ⟨hl, hrest⟩ := List.forall_mem_cons.mp hk
    rw [linkAll_cons] at h
    cases hset : d.setReference l.1 (some l.2) with
    | error cause' =>
      rw [hset] at h
      cases h
      exact ⟨l, List.mem_cons_self, referenceCycle_of_setReference hd.registered hl hset⟩
    | ok next =>
      rw [hset] at h
      have hplain : (Edit.setReference l.1 (some l.2)).IsPlain := trivial
      have hnext : next.Reachable Edit.IsPlain := hd.edit hplain hset
      have hkinds : ∀ m ∈ links, next.SameKind m.1 m.2 := by
        simpa only [SameKind, kindOf?_setReference hd.registered hset] using hrest
      obtain ⟨m, hm, hcause⟩ := ih hnext hkinds h
      exact ⟨m, List.mem_cons_of_mem _ hm, hcause⟩

/-- Links that are due are made in every order with the same outcome. -/
theorem linkAll_order (hd : d.Reachable Edit.IsPlain) (h : d.Due links) :
    (¬ d.Closes links → ∃ e, ∀ order, order.Perm links → d.linkAll order = .ok e) ∧
    (d.Closes links → ∀ order, order.Perm links →
      ∃ l ∈ links, d.linkAll order = .error (.referenceCycle l.1 l.2)) := by
  constructor
  · intro hfree
    obtain ⟨e, he⟩ := (exists_linkAll_iff hd h).mpr hfree
    exact ⟨e, fun order hp => linkAll_perm hd h he hp⟩
  · intro hcloses order hp
    have hsame : d.Closes order ↔ d.Closes links := by simp only [Closes, hp.mem_iff]
    cases hall : d.linkAll order with
    | ok e => exact absurd (hsame.mpr hcloses) ((exists_linkAll_iff hd (h.perm hp)).mp ⟨e, hall⟩)
    | error cause =>
      obtain ⟨l, hl, rfl⟩ := referenceCycle_of_linkAll hd (h.perm hp).alike hall
      exact ⟨l, hp.subset hl, rfl⟩

end Document

end PagedNets
