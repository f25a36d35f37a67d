import PagedNets.Proofs.Document.Alias

/-!
Linking a node anew. It leaves its old referent and enters the aliases of the new one; since the new
one must not lead back to it, no cycle comes about.
-/

set_option autoImplicit false

namespace PagedNets.Document

open Report (aliasesOf)

variable {d e : Document} {i j x y : ObjectId}

theorem checkLink_eq_ok_iff {k : Kind} {reference : Option ObjectId} :
    d.checkLink i k reference = .ok () ↔
      ∀ t, reference = some t → d.kindOf? t = some k ∧ i ∉ d.referents t := by
  cases reference with
  | none => simp [checkLink]
  | some t =>
    simp only [checkLink, bind_unit_eq_ok, checkReference, kindOf?]
    cases hx : d.object? t with
    | none => simp [hx]
    | some x =>
      by_cases hk : x.kind = k <;> by_cases hm : i ∈ d.referents t <;> simp [hx, hk, hm]

def leave (d : Document) (i : ObjectId) : Option ObjectId → Document
  | none => d
  | some previous => d.updateAliases previous (IdSet.erase · i)

theorem relink_eq (d : Document) (i : ObjectId) (old new : Option ObjectId) :
    d.relink i old new = match new with
      | none => d.leave i old
      | some t => (d.leave i old).updateAliases t (IdSet.insert · i) := by
  cases old <;> cases new <;> rfl

theorem kindOf?_leave (i : ObjectId) (old : Option ObjectId) (j : ObjectId) :
    (d.leave i old).kindOf? j = d.kindOf? j := by
  cases old with
  | none => rfl
  | some p => exact kindOf?_updateAliases d p _ j

theorem refersTo?_leave (i : ObjectId) (old : Option ObjectId) (j : ObjectId) :
    (d.leave i old).refersTo? j = d.refersTo? j := by
  cases old with
  | none => rfl
  | some p => exact refersTo?_updateAliases d p _ j

theorem mem_aliasesOf_leave (h : d.Aliased) :
    x ∈ aliasesOf (d.leave i (d.refersTo? i)) y ↔ x ∈ aliasesOf d y ∧ x ≠ i := by
  cases hr : d.refersTo? i with
  | none =>
    have hi : i ∉ aliasesOf d y := by
      intro hi
      have hy := (h.inverse i y).mp hi
      rw [RefersTo, hr] at hy
      cases hy
    constructor
    · intro hx
      refine ⟨hx, ?_⟩
      rintro rfl
      exact hi hx
    · exact fun hx => hx.1
  | some p =>
    unfold leave
    simp only
    rw [aliasesOf_updateAliases]
    by_cases hy : y = p
    · subst hy
      obtain ⟨k, _, hk⟩ := h.sameKind i y hr
      obtain ⟨l, hl, hnode⟩ := isNode_of_refersTo hr
      obtain ⟨k', hk', hky⟩ := h.sameKind i y hr
      have hlk : l = k' := by
        rw [hl] at hk'
        exact Option.some.inj hk'
      have hsome := isSome_node?_of_kind hky (hlk ▸ hnode)
      rw [if_pos ⟨rfl, hsome⟩, IdSet.mem_erase]
    · rw [if_neg fun hp => hy hp.1]
      constructor
      · intro hx
        refine ⟨hx, ?_⟩
        rintro rfl
        have hxy := (h.inverse x y).mp hx
        rw [RefersTo, hr] at hxy
        exact hy (Option.some.inj hxy).symm
      · exact fun hx => hx.1

theorem ascending_leave (h : d.Aliased) (i : ObjectId) (old : Option ObjectId) (y : ObjectId) :
    (aliasesOf (d.leave i old) y).Ascending := by
  cases old with
  | none => exact h.ascending y
  | some p =>
    unfold leave
    simp only
    rw [aliasesOf_updateAliases]
    split
    · exact IdSet.ascending_erase (h.ascending p) i
    · exact h.ascending y

theorem kindOf?_relink (i : ObjectId) (old new : Option ObjectId) (j : ObjectId) :
    (d.relink i old new).kindOf? j = d.kindOf? j := by
  rw [relink_eq]
  cases new with
  | none => exact kindOf?_leave i old j
  | some t => rw [kindOf?_updateAliases, kindOf?_leave]

theorem refersTo?_relink (i : ObjectId) (old new : Option ObjectId) (j : ObjectId) :
    (d.relink i old new).refersTo? j = d.refersTo? j := by
  rw [relink_eq]
  cases new with
  | none => exact refersTo?_leave i old j
  | some t => rw [refersTo?_updateAliases, refersTo?_leave]

theorem mem_aliasesOf_relink (h : d.Aliased) {new : Option ObjectId}
    (hnew : ∀ t, new = some t → ∃ k, d.kindOf? t = some k ∧ k.isNode = true) :
    x ∈ aliasesOf (d.relink i (d.refersTo? i) new) y ↔
      if x = i then new = some y else x ∈ aliasesOf d y := by
  rw [relink_eq]
  cases new with
  | none =>
    rw [mem_aliasesOf_leave h]
    by_cases hx : x = i <;> simp [hx]
  | some t =>
    obtain ⟨k, hk, hnode⟩ := hnew t rfl
    have hsome := isSome_node?_of_kind ((kindOf?_leave i (d.refersTo? i) t).trans hk) hnode
    rw [aliasesOf_updateAliases]
    by_cases hy : y = t
    · subst hy
      rw [if_pos ⟨rfl, hsome⟩, IdSet.mem_insert, mem_aliasesOf_leave h]
      by_cases hx : x = i <;> simp [hx]
    · have hty : some t ≠ some y := fun he => hy (Option.some.inj he).symm
      rw [if_neg fun ht => hy ht.1, mem_aliasesOf_leave h]
      by_cases hx : x = i <;> simp [hx, hty]

theorem ascending_relink (h : d.Aliased) (i : ObjectId) (old new : Option ObjectId)
    (y : ObjectId) : (aliasesOf (d.relink i old new) y).Ascending := by
  rw [relink_eq]
  cases new with
  | none => exact ascending_leave h i old y
  | some t =>
    rw [aliasesOf_updateAliases]
    split
    · exact IdSet.ascending_insert (ascending_leave h i old t) i
    · exact ascending_leave h i old y

def link (d : Document) (i : ObjectId) (old new : Option ObjectId) : Document :=
  (d.relink i old new).modify i (·.mapNode fun n => { n with reference := new })

theorem setReference_eq_ok_iff (h : d.Registered) {new : Option ObjectId} :
    d.setReference i new = .ok e ↔ ∃ k, d.kindOf? i = some k ∧ k.isNode = true ∧
      (∀ t, new = some t → d.kindOf? t = some k ∧ i ∉ d.referents t) ∧
      e = if d.refersTo? i = new then d else d.link i (d.refersTo? i) new := by
  unfold setReference
  cases ho : d.object? i with
  | none => simp [kindOf?, ho]
  | some o =>
    have hid : o.id = i := h.id_of_object? ho
    cases hn : o.node? with
    | none =>
      have hk : o.kind.isNode = false := by
        rw [← o.isSome_node?_iff, hn]
        rfl
      simp [kindOf?, ho, hn, hk]
    | some node =>
      have hk : o.kind.isNode = true := by
        rw [← o.isSome_node?_iff, hn]
        rfl
      have hr : d.refersTo? i = node.reference := by
        rw [refersTo?, ho, Option.bind_some, Object.reference?, hn, Option.bind_some]
      simp only [hn, bind_unit_eq_ok, checkLink_eq_ok_iff, hid, kindOf?, ho, Option.map_some,
        Option.some.injEq, exists_eq_left', hk, true_and, hr, link, Except.ok.injEq]
      exact and_congr_right fun _ => eq_comm

theorem kindOf?_link (i : ObjectId) (old new : Option ObjectId) (j : ObjectId) :
    (d.link i old new).kindOf? j = d.kindOf? j := by
  rw [← kindOf?_relink (d := d) i old new j]
  unfold kindOf? link
  rw [object?_modify]
  split
  · simp [Function.comp_def]
  · rfl

theorem refersTo?_link {k : Kind} (hk : d.kindOf? i = some k) (hnode : k.isNode = true)
    (old new : Option ObjectId) (j : ObjectId) :
    (d.link i old new).refersTo? j = if j = i then new else d.refersTo? j := by
  have hsome := isSome_node?_of_kind ((kindOf?_relink i old new i).trans hk) hnode
  rw [← refersTo?_relink (d := d) i old new j, refersTo?_eq]
  obtain ⟨n, hn⟩ := Option.isSome_iff_exists.mp hsome
  obtain ⟨o, ho, hon⟩ := node?_eq_some_iff.mp hn
  unfold refersTo? node? link
  rw [object?_modify]
  split
  · next hj =>
    subst hj
    rw [ho, Option.map_some, Option.bind_some, Object.node?_mapNode, hon]
    rfl
  · cases (d.relink i old new).object? j <;> rfl

theorem refersTo?_setReference (h : d.Registered) {new : Option ObjectId}
    (he : d.setReference i new = .ok e) (j : ObjectId) :
    e.refersTo? j = if j = i then new else d.refersTo? j := by
  obtain ⟨k, hk, hnode, _, rfl⟩ := (setReference_eq_ok_iff h).mp he
  split
  · next hsame =>
    split
    · next hj => rw [hj, hsame]
    · rfl
  · exact refersTo?_link hk hnode (d.refersTo? i) new j

theorem aliasesOf_link (i : ObjectId) (old new : Option ObjectId) (y : ObjectId) :
    aliasesOf (d.link i old new) y = aliasesOf (d.relink i old new) y := by
  rw [aliasesOf_eq, aliasesOf_eq]
  unfold link
  rw [object?_modify]
  split
  · cases (d.relink i old new).object? y with
    | none => rfl
    | some o => cases o <;> rfl
  · rfl

theorem aliased_setReference (hr : d.Registered) (h : d.Aliased) {new : Option ObjectId}
    (he : d.setReference i new = .ok e) : e.Aliased := by
  obtain ⟨k, hk, hnode, htarget, rfl⟩ := (setReference_eq_ok_iff hr).mp he
  split
  · exact h
  have hrefers := refersTo?_link hk hnode (d.refersTo? i) new
  constructor
  case inverse =>
    intro x y
    rw [aliasesOf_link, mem_aliasesOf_relink h fun t ht => ⟨k, (htarget t ht).1, hnode⟩,
      RefersTo, hrefers]
    split
    · rfl
    · exact h.inverse x y
  case ascending =>
    intro y
    rw [aliasesOf_link]
    exact ascending_relink h i _ new y
  case sameKind =>
    intro x y hxy
    rw [RefersTo, hrefers] at hxy
    rw [kindOf?_link, kindOf?_link]
    split at hxy
    · next hx => exact ⟨k, hx ▸ hk, (htarget y hxy).1⟩
    · exact h.sameKind x y hxy
  case grounded =>
    refine h.grounded.update (i := i) (fun a ha => by rw [hrefers, if_neg ha]) fun t ht => ?_
    rw [RefersTo, hrefers, if_pos rfl] at ht
    rw [← mem_referents h.grounded]
    exact (htarget t ht).2

theorem aliased_empty : ({} : Document).Aliased := by
  refine ⟨fun x y => ⟨fun hx => ?_, fun hx => ?_⟩, fun y => .nil, fun x y hx => ?_,
    ⟨fun a => ⟨a, fun b hb => ?_⟩⟩⟩
  · cases hx
  · cases hx
  · cases hx
  · cases hb

theorem aliased_edit {change : Edit} (hr : d.Registered) (h : d.Aliased)
    (he : d.edit change = .ok e) : e.Aliased := by
  rcases view_linkage_edit he with ⟨n, rfl, hn⟩ | ⟨parent, o, rfl, ho⟩ | ⟨i, r, rfl, hi⟩ | hv
  · obtain ⟨_, hfresh, rfl⟩ := addNet_eq_ok_iff.mp hn
    exact aliased_append_net h hfresh
  · obtain ⟨container, w, ha, rfl⟩ := add_eq_ok_iff.mp ho
    exact aliased_enter h ha
  · exact aliased_setReference hr h hi
  · exact h.of_view hv

theorem Reachable.aliased (h : d.Reachable Edit.IsPlain) : d.Aliased :=
  h.induction_registered aliased_empty fun hr ha _ he => aliased_edit hr ha he

end PagedNets.Document
