import PagedNets.Proofs.Document.Children
import PagedNets.Proofs.Document.Run

set_option autoImplicit false

namespace PagedNets

def Label.asOwner? (l : Label) : Option Owner :=
  match l.kind with
  | .net => some (.net l.id)
  | .page => some (.page l.id)
  | _ => none

@[simp] theorem Object.asOwner?_label (o : Object) : o.label.asOwner? = o.asOwner? := by
  cases o <;> rfl

theorem Label.id_of_asOwner? {l : Label} {w : Owner} (h : l.asOwner? = some w) : w.id = l.id := by
  unfold asOwner? at h
  split at h <;> cases h <;> rfl

namespace Object

def shape (o : Object) : Label × Tables := (o.label, o.tables)

@[simp] theorem shape_mapNode (f : NodeData → NodeData) (o : Object) :
    (o.mapNode f).shape = o.shape := by cases o <;> rfl

theorem tables_of_bare {o : Object} (h : o.IsBare) : o.tables = {} := by
  cases o with
  | net n => simp [tables, h.2]
  | page p =>
    obtain ⟨_, hn, ha, hp, hg⟩ := h
    simp [tables, hn, ha, hp, hg]
  | _ => rfl

theorem tables_of_asOwner?_eq_none {o : Object} (h : o.asOwner? = none) : o.tables = {} := by
  cases o <;> simp_all [asOwner?, tables]

end Object

namespace Document

def labels (d : Document) : List Label := d.toList.map Object.label

def children (d : Document) (w : Owner) : List Label :=
  d.labels.filter fun l => decide (l.owner = some w)

/-- The registry of a document is sound: keys are the distinct, nonempty identifiers of the objects
under them, and every object but a net has an owner that was registered before it. -/
structure Registered (d : Document) : Prop where
  stored : d.keys = d.labels.map (·.id)
  distinct : d.keys.Nodup
  nonempty : ∀ i ∈ d.keys, i.isEmpty = false
  owned : ∀ l ∈ d.labels, l.kind ≠ .net → ∃ w, l.owner = some w ∧
    ∃ c ∈ d.labels, c.asOwner? = some w ∧ d.keys.idxOf c.id < d.keys.idxOf l.id

/-- The tables of every container list exactly what it owns. -/
def Tabled (d : Document) : Prop :=
  ∀ i o w, d.object? i = some o → o.asOwner? = some w → o.tables.Lists (d.children w)

variable {d e : Document} {i : ObjectId}

theorem labels_of_view (h : e.view Object.label = d.view Object.label) : e.labels = d.labels :=
  values_of_view h

theorem view_label_of_view_shape (h : e.view Object.shape = d.view Object.shape) :
    e.view Object.label = d.view Object.label := by
  have hm : (e.view Object.shape).map (fun p => (p.1, p.2.1)) =
      (d.view Object.shape).map (fun p => (p.1, p.2.1)) := by rw [h]
  simpa [view, Function.comp_def, Object.shape] using hm

theorem mem_labels_of_object? {i : ObjectId} {o : Object} (h : d.object? i = some o) :
    o.label ∈ d.labels := by
  have hm := Table.mem_entries_of_find? h
  exact List.mem_map_of_mem (List.mem_map_of_mem (f := (·.2)) hm)

theorem mem_children {w : Owner} {l : Label} :
    l ∈ d.children w ↔ l ∈ d.labels ∧ l.owner = some w := by
  simp [children]

theorem view_shape_edit {change : Edit} (h : d.edit change = .ok e) :
    (∃ n, change = .addNet n ∧ d.addNet n = .ok e) ∨
      (∃ parent o, change = .add parent o ∧ d.add parent o = .ok e) ∨
      e.view Object.shape = d.view Object.shape := by
  rcases view_frame_edit h with hn | ho | ⟨i, name, _, hs⟩ | ⟨i, r, _, hr⟩ | hv
  · exact .inl hn
  · exact .inr (.inl ho)
  · exact .inr (.inr (view_setName (fun _ o => by cases o <;> rfl)
      (fun _ o => by cases o <;> rfl) hs))
  · exact .inr (.inr (view_setReference (fun _ => Object.shape_mapNode _)
      (Object.shape_mapNode _) hr))
  · exact .inr (.inr (view_of_frame (g := fun w => (w.label, w.tables)) (fun _ => rfl) hv))

namespace Registered

theorem of_view (h : d.Registered) (hv : e.view Object.label = d.view Object.label) :
    e.Registered := by
  have hk := keys_of_view hv
  have hl := labels_of_view hv
  constructor
  · rw [hk, hl, h.stored]
  · rw [hk]
    exact h.distinct
  · rw [hk]
    exact h.nonempty
  · rw [hk, hl]
    exact h.owned

theorem key_eq (h : d.Registered) {p : ObjectId × Object} (hp : p ∈ d.objects.entries) :
    p.1 = p.2.id := by
  have hs := h.stored
  simp only [keys, Table.keys, labels, toList, Table.values, List.map_map] at hs
  exact List.map_inj_left.mp hs p hp

theorem id_of_object? (h : d.Registered) {i : ObjectId} {o : Object}
    (ho : d.object? i = some o) : o.id = i :=
  (h.key_eq (Table.mem_entries_of_find? ho)).symm

theorem mem_toList (h : d.Registered) {o : Object} :
    o ∈ d.toList ↔ d.object? o.id = some o := by
  constructor
  · intro ho
    obtain ⟨e, he, rfl⟩ := List.mem_map.mp ho
    rw [← h.key_eq he]
    exact Table.find?_of_mem_entries h.distinct he
  · intro ho
    exact List.mem_map_of_mem (f := (·.2)) (Table.mem_entries_of_find? ho)

theorem object?_of_mem_labels (h : d.Registered) {l : Label} (hl : l ∈ d.labels) :
    ∃ o, d.object? l.id = some o ∧ o.label = l := by
  obtain ⟨o, ho, rfl⟩ := List.mem_map.mp hl
  exact ⟨o, h.mem_toList.mp ho, rfl⟩

theorem nodup_children (h : d.Registered) (w : Owner) :
    ((d.children w).map (·.id)).Nodup := by
  have hd : (d.labels.map (·.id)).Nodup := h.stored ▸ h.distinct
  exact hd.sublist (List.filter_sublist.map _)

theorem extend (h : d.Registered) {l : Label} (hk : e.keys = d.keys ++ [l.id])
    (hl : e.labels = d.labels ++ [l]) (hfresh : l.id ∉ d.keys) (hne : l.id.isEmpty = false)
    (howner : l.kind ≠ .net → ∃ w, l.owner = some w ∧ ∃ c ∈ d.labels, c.asOwner? = some w) :
    e.Registered := by
  have hmem : ∀ m ∈ d.labels, m.id ∈ d.keys := by
    intro m hm
    rw [h.stored]
    exact List.mem_map_of_mem hm
  constructor
  · rw [hk, hl, h.stored]
    simp
  · rw [hk]
    refine List.nodup_append.mpr ⟨h.distinct, by simp, fun i hi j hj he => hfresh ?_⟩
    rwa [← List.mem_singleton.mp hj, ← he]
  · intro i hi
    rw [hk] at hi
    rcases List.mem_append.mp hi with hi | hi
    · exact h.nonempty i hi
    · rw [List.mem_singleton.mp hi]
      exact hne
  · intro m hm hnet
    rw [hl] at hm
    rcases List.mem_append.mp hm with hm | hm
    · obtain ⟨w, hw, c, hc, hcw, hlt⟩ := h.owned m hm hnet
      refine ⟨w, hw, c, ?_, hcw, ?_⟩
      · rw [hl]
        exact List.mem_append_left _ hc
      · rw [hk, List.idxOf_append_of_mem (hmem c hc), List.idxOf_append_of_mem (hmem m hm)]
        exact hlt
    · rw [List.mem_singleton.mp hm] at hnet ⊢
      obtain ⟨w, hw, c, hc, hcw⟩ := howner hnet
      refine ⟨w, hw, c, ?_, hcw, ?_⟩
      · rw [hl]
        exact List.mem_append_left _ hc
      · rw [hk, List.idxOf_append_of_mem (hmem c hc), List.idxOf_append_of_notMem hfresh]
        have hlt := List.idxOf_lt_length_of_mem (hmem c hc)
        omega

theorem not_mem_keys (h : d.object? i = none) : i ∉ d.keys := by
  intro hi
  obtain ⟨o, ho⟩ := (d.mem_keys_iff i).mp hi
  rw [h] at ho
  cases ho

theorem children_eq_nil (h : d.Registered) {w : Owner} (hw : w.id ∉ d.keys) :
    d.children w = [] := by
  rw [List.eq_nil_iff_forall_not_mem]
  intro l hl
  obtain ⟨hl, how⟩ := mem_children.mp hl
  have hnet : l.kind ≠ .net := by
    obtain ⟨o, ho, rfl⟩ := h.object?_of_mem_labels hl
    cases o <;> simp_all [Object.label, Object.kind, Object.owner]
  obtain ⟨w', hw', c, hc, hcw, _⟩ := h.owned l hl hnet
  rw [how] at hw'
  cases hw'
  apply hw
  rw [Label.id_of_asOwner? hcw, h.stored]
  exact List.mem_map_of_mem hc

end Registered

theorem labels_enter (parent : ObjectId) (child : Object) :
    (d.enter parent child).labels = d.labels ++ [child.label] := by
  have hv := view_label_enter (d := d) parent child
  have hm : ((d.enter parent child).view Object.label).map (·.2) =
      (d.view Object.label ++ [(child.id, child.label)]).map (·.2) := by rw [hv]
  simpa [view, labels, toList, Table.values, Function.comp_def] using hm

theorem labels_append (o : Object) : (d.append o).labels = d.labels ++ [o.label] := by
  simp [labels, toList, Table.values, append]

theorem children_of_labels {l : Label} (h : e.labels = d.labels ++ [l]) (w : Owner) :
    e.children w = d.children w ++ if l.owner = some w then [l] else [] := by
  unfold children
  rw [h, List.filter_append]
  by_cases hw : l.owner = some w <;> simp [hw]

section Enter

variable {β : Type} {f : Object → β} (hf : ∀ g o, f (o.mapAliases g) = f o)
  {child : Object} (hfresh : d.object? child.id = none)
include hf hfresh

theorem map_object?_enter (parent i : ObjectId) : ((d.enter parent child).object? i).map f =
    (if i = child.id then some child else d.object? i).map
      fun y => f (if i = parent then child.adopt y else y) := by
  rw [object?_of_view (view_enter hf parent child), object?_modify,
    object?_append_of_fresh hfresh]
  by_cases hp : i = parent
  · simp only [if_pos hp, Option.map_map]
    rfl
  · simp only [if_neg hp]

theorem object?_enter {parent : ObjectId} {x : Object}
    (hx : (d.enter parent child).object? i = some x) :
    ∃ y, (if i = child.id then some child else d.object? i) = some y ∧
      f x = f (if i = parent then child.adopt y else y) := by
  have hm := map_object?_enter hf hfresh parent i
  rw [hx] at hm
  obtain ⟨y, hy, hs⟩ := Option.map_eq_some_iff.mp hm.symm
  exact ⟨y, hy, hs.symm⟩

end Enter

theorem registered_enter (h : d.Registered) {parent : ObjectId} {o container : Object} {w : Owner}
    (ha : d.Admissible parent o container w) : (d.enter parent (o.admitted w)).Registered := by
  obtain ⟨names, hscope, _⟩ := ha.scope
  have hnet := Object.kind_ne_net_of_scopeFor hscope
  have hk : (d.enter parent (o.admitted w)).keys = d.keys ++ [(o.admitted w).label.id] := by
    rw [keys_enter]
    rfl
  have hid : (o.admitted w).label.id = o.id := Object.id_admitted o w
  refine h.extend hk (labels_enter parent _) ?_ ?_ fun _ => ⟨w, ?_, container.label, ?_, ?_⟩
  · rw [hid]
    exact Registered.not_mem_keys ha.fresh
  · rw [hid]
    exact ha.nonempty
  · exact Object.owner_admitted w hnet
  · exact mem_labels_of_object? ha.found
  · simpa using ha.owner

/-- The containers after an object was admitted: the one that adopted it, the object itself, and
those that were there before and got nothing. -/
theorem container_cases_enter {β : Type} {f : Object → β} (hf : ∀ g o, f (o.mapAliases g) = f o)
    (h : d.Registered) {parent c : ObjectId} {o container x : Object} {w v : Owner}
    (ha : d.Admissible parent o container w)
    (hx : (d.enter parent (o.admitted w)).object? c = some x) (hv : x.asOwner? = some v) :
    (v = w ∧ f x = f ((o.admitted w).adopt container)) ∨
      v ≠ w ∧ ((d.object? v.id = none ∧ f x = f (o.admitted w)) ∨
        ∃ y, d.object? c = some y ∧ y.asOwner? = some v ∧ f x = f y) := by
  have hid : (o.admitted w).id = o.id := Object.id_admitted o w
  have hfresh : d.object? (o.admitted w).id = none := hid ▸ ha.fresh
  have hw : w.id = parent := by
    rw [Object.id_of_asOwner? ha.owner, h.id_of_object? ha.found]
  have hpair : ∀ g o, (f (Object.mapAliases g o), (Object.mapAliases g o).label) = (f o, o.label) :=
    fun g o => by rw [hf, Object.mapAliases, Object.label_mapNode]
  obtain ⟨y, hy, hs⟩ := object?_enter (f := fun o => (f o, o.label)) hpair hfresh hx
  have hfx : f x = f (if c = parent then (o.admitted w).adopt y else y) := congrArg Prod.fst hs
  have hlabel : x.label = y.label := by
    rw [show x.label = (if c = parent then (o.admitted w).adopt y else y).label from
      congrArg Prod.snd hs]
    split
    · exact Object.label_adopt _ _
    · rfl
  rw [Object.asOwner?_of_label hlabel] at hv
  by_cases hc : c = parent
  · have hparent : parent ≠ (o.admitted w).id := hid ▸ ha.parent_ne
    rw [if_pos hc] at hfx
    rw [hc, if_neg hparent, ha.found] at hy
    cases hy
    rw [ha.owner] at hv
    cases hv
    exact .inl ⟨rfl, hfx⟩
  · rw [if_neg hc] at hfx
    have hyc : y.id = c := by
      split at hy
      · next hnew =>
        cases hy
        exact hnew.symm
      · exact h.id_of_object? hy
    have hvc : v.id = c := by rw [Object.id_of_asOwner? hv, hyc]
    refine .inr ⟨?_, ?_⟩
    · rintro rfl
      exact hc (hvc.symm.trans hw)
    · split at hy
      · next hnew =>
        cases hy
        exact .inl ⟨by rw [hvc, hnew, hfresh], hfx⟩
      · exact .inr ⟨y, hy, hv, hfx⟩

theorem tabled_enter (h : d.Registered) (ht : d.Tabled) {parent : ObjectId} {o container : Object}
    {w : Owner} (hb : o.IsBare) (ha : d.Admissible parent o container w) :
    (d.enter parent (o.admitted w)).Tabled := by
  obtain ⟨names, hscope, _⟩ := ha.scope
  have hchild : (o.admitted w).label.owner = some w :=
    Object.owner_admitted w (Object.kind_ne_net_of_scopeFor hscope)
  have hfresh : d.object? (o.admitted w).id = none := Object.id_admitted o w ▸ ha.fresh
  have htables : ∀ g o, (Object.mapAliases g o).tables = o.tables := fun g o => by cases o <;> rfl
  intro c x v hx hv
  rw [children_of_labels (labels_enter parent _) v, hchild]
  rcases container_cases_enter htables h ha hx hv with
    ⟨rfl, he⟩ | ⟨hne, ⟨hnone, he⟩ | ⟨y, hy, hyv, he⟩⟩
  · rw [he, if_pos rfl]
    refine Object.lists_adopt (ht parent container v ha.found ha.owner)
      (by simpa using hscope) ?_ (h.nodup_children v) ?_
    · intro l hl hlo
      have hm : l.id ∈ d.keys := by
        rw [h.stored]
        exact List.mem_map_of_mem (mem_children.mp hl).1
      rw [hlo] at hm
      exact Registered.not_mem_keys hfresh hm
    · intro a p harc hpage
      obtain ⟨s, t, hs, ht, _⟩ := ha.joins harc hpage
      exact ⟨s, t, hs, ht⟩
  · -- The new object lists nothing, and nobody names it as owner yet.
    have hnil : d.children v = [] := h.children_eq_nil (Registered.not_mem_keys hnone)
    rw [he, if_neg fun hwv => hne (Option.some.inj hwv).symm, hnil, Object.tables_admitted,
      Object.tables_of_bare hb]
    exact Tables.lists_nil
  · rw [he, if_neg fun hwv => hne (Option.some.inj hwv).symm, List.append_nil]
    exact ht c y v hy hyv

theorem registered_append_net (h : d.Registered) {n : Net} (hne : n.id.isEmpty = false)
    (hfresh : d.object? n.id = none) : (d.append (.net n)).Registered :=
  h.extend (l := (Object.net n).label) (keys_append _) (labels_append _)
    (Registered.not_mem_keys hfresh) hne fun hk => absurd rfl hk

theorem tabled_append_net (h : d.Registered) (ht : d.Tabled) {n : Net} (hb : n.IsBare)
    (hfresh : d.object? n.id = none) : (d.append (.net n)).Tabled := by
  intro i x w hx hw
  have hchildren : (d.append (.net n)).children w = d.children w := by
    have hc := children_of_labels (labels_append (d := d) (.net n)) w
    simpa [Object.label, Object.owner] using hc
  have hobject : (if i = n.id then some (Object.net n) else d.object? i) = some x := by
    have ho := object?_append_of_fresh (o := .net n) hfresh i
    rw [hx] at ho
    exact ho.symm
  rw [hchildren]
  by_cases hi : i = n.id
  · rw [if_pos hi] at hobject
    cases hobject
    have hnil : d.children w = [] := by
      apply h.children_eq_nil
      rw [Object.id_of_asOwner? hw]
      exact Registered.not_mem_keys hfresh
    rw [hnil, Object.tables_of_bare (o := .net n) hb]
    exact Tables.lists_nil
  · rw [if_neg hi] at hobject
    exact ht i x w hobject hw

theorem Tabled.of_view (ht : d.Tabled) (hv : e.view Object.shape = d.view Object.shape) :
    e.Tabled := by
  intro i x w hx hw
  obtain ⟨o, ho, hs⟩ := exists_of_view hv hx
  have hl : o.label = x.label := congrArg Prod.fst hs
  have htables : o.tables = x.tables := congrArg Prod.snd hs
  have hchildren : e.children w = d.children w := by
    unfold children
    rw [labels_of_view (view_label_of_view_shape hv)]
  rw [hchildren, ← htables]
  exact ht i o w ho (Object.asOwner?_of_label hl ▸ hw)

theorem contained_edit {change : Edit} (h : d.Registered ∧ d.Tabled) (hc : change.IsPlain)
    (he : d.edit change = .ok e) : e.Registered ∧ e.Tabled := by
  obtain ⟨hr, ht⟩ := h
  rcases view_shape_edit he with ⟨n, rfl, hn⟩ | ⟨parent, o, rfl, ho⟩ | hv
  · obtain ⟨hne, hfresh, rfl⟩ := addNet_eq_ok_iff.mp hn
    exact ⟨registered_append_net hr hne hfresh, tabled_append_net hr ht hc hfresh⟩
  · obtain ⟨container, w, ha, rfl⟩ := add_eq_ok_iff.mp ho
    exact ⟨registered_enter hr ha, tabled_enter hr ht hc ha⟩
  · exact ⟨hr.of_view (view_label_of_view_shape hv), ht.of_view hv⟩

theorem contained_empty : ({} : Document).Registered ∧ ({} : Document).Tabled := by
  refine ⟨⟨rfl, List.nodup_nil, ?_, ?_⟩, ?_⟩
  · intro i hi
    cases hi
  · intro l hl
    cases hl
  · intro i o w ho
    cases ho

/-- Every run keeps the registry sound and the tables of containers in step with it. -/
theorem Reachable.registered_and_tabled (h : d.Reachable Edit.IsPlain) :
    d.Registered ∧ d.Tabled :=
  h.induction contained_empty contained_edit

theorem Reachable.registered (h : d.Reachable Edit.IsPlain) : d.Registered :=
  h.registered_and_tabled.1

theorem Reachable.tabled (h : d.Reachable Edit.IsPlain) : d.Tabled :=
  h.registered_and_tabled.2

theorem Reachable.induction_registered {P : Document → Prop} (h : d.Reachable Edit.IsPlain)
    (hempty : P {}) (hedit : ∀ {d e : Document} {change : Edit}, d.Registered → P d →
      change.IsPlain → d.edit change = .ok e → P e) : P d := by
  have hall : (d.Registered ∧ d.Tabled) ∧ P d := by
    refine h.induction (P := fun d => (d.Registered ∧ d.Tabled) ∧ P d)
      ⟨contained_empty, hempty⟩ fun {d e change} hd hc he => ?_
    exact ⟨contained_edit hd.1 hc he, hedit hd.1.1 hd.2 hc he⟩
  exact hall.2

end Document

end PagedNets
