import PagedNets.Proofs.Document.Nesting
import PagedNets.Proofs.Document.Referent
import PagedNets.Proofs.IdSet
import PagedNets.Report.Diagnosis

set_option autoImplicit false

namespace PagedNets

namespace Object

def linkage (o : Object) : Kind × Option (Option ObjectId × IdSet) := (o.kind, o.links)

theorem reference?_eq (o : Object) : o.reference? = o.links.bind (·.1) := by
  cases o <;> rfl

theorem isSome_node?_iff (o : Object) : o.node?.isSome = o.kind.isNode := by
  cases o <;> rfl

@[simp] theorem reference?_mapNode_aliases (o : Object) (f : IdSet → IdSet) :
    (o.mapNode fun n => { n with referencedBy := f n.referencedBy }).reference? =
      o.reference? := by
  cases o <;> rfl

@[simp] theorem kind_mapNode (o : Object) (f : NodeData → NodeData) :
    (o.mapNode f).kind = o.kind := by cases o <;> rfl

theorem node?_mapNode (o : Object) (f : NodeData → NodeData) :
    (o.mapNode f).node? = o.node?.map f := by cases o <;> rfl

end Object

namespace Document

open Report (aliasesOf)

def kindOf? (d : Document) (i : ObjectId) : Option Kind := (d.object? i).map Object.kind

structure Aliased (d : Document) : Prop where
  inverse : ∀ x y, x ∈ aliasesOf d y ↔ d.RefersTo x y
  ascending : ∀ y, (aliasesOf d y).Ascending
  sameKind : ∀ x y, d.RefersTo x y → ∃ k, d.kindOf? x = some k ∧ d.kindOf? y = some k
  grounded : d.Grounded

variable {d e : Document} {i j x y : ObjectId}

theorem aliasesOf_congr (hd : d.Aliased) (he : e.Aliased)
    (hr : ∀ i, e.refersTo? i = d.refersTo? i) (i : ObjectId) :
    aliasesOf e i = aliasesOf d i := by
  refine IdSet.ext_of_ascending (he.ascending i) (hd.ascending i) fun j => ?_
  rw [he.inverse, hd.inverse, RefersTo, RefersTo, hr]

theorem aliasesOf_eq : aliasesOf d i = ((((d.object? i).bind Object.links).map (·.2)).getD []) := by
  unfold aliasesOf node?
  cases d.object? i with
  | none => rfl
  | some o => cases o <;> rfl

theorem isNode_of_refersTo (h : d.RefersTo x y) : ∃ k, d.kindOf? x = some k ∧ k.isNode = true := by
  obtain ⟨o, ho, hr⟩ := Option.bind_eq_some_iff.mp h
  refine ⟨o.kind, by rw [kindOf?, ho]; rfl, ?_⟩
  cases o <;> first | rfl | cases hr

theorem isSome_node?_of_kind {k : Kind} (h : d.kindOf? i = some k) (hk : k.isNode = true) :
    (d.node? i).isSome = true := by
  obtain ⟨o, ho, rfl⟩ := Option.map_eq_some_iff.mp h
  rw [node?, ho]
  exact (o.isSome_node?_iff).trans hk

section View

variable (hv : e.view Object.linkage = d.view Object.linkage)
include hv

theorem kindOf?_of_view (i : ObjectId) : e.kindOf? i = d.kindOf? i := by
  have h := congrArg (Option.map Prod.fst) (object?_of_view hv i)
  simpa [kindOf?, Function.comp_def, Object.linkage] using h

theorem links_of_view (i : ObjectId) :
    (e.object? i).bind Object.links = (d.object? i).bind Object.links := by
  have h := object?_of_view hv i
  cases he : e.object? i with
  | none =>
    rw [he] at h
    rw [Option.map_eq_none_iff.mp h.symm]
  | some a =>
    rw [he] at h
    obtain ⟨b, hb, hab⟩ := Option.map_eq_some_iff.mp h.symm
    rw [hb]
    exact (congrArg Prod.snd hab).symm

theorem refersTo?_of_view (i : ObjectId) : e.refersTo? i = d.refersTo? i := by
  have h : ∀ d : Document, d.refersTo? i = ((d.object? i).bind Object.links).bind (·.1) := by
    intro d
    rw [refersTo?, Option.bind_assoc]
    cases d.object? i with
    | none => rfl
    | some o => exact o.reference?_eq
  rw [h, h, links_of_view hv]

theorem aliasesOf_of_view (i : ObjectId) : aliasesOf e i = aliasesOf d i := by
  rw [aliasesOf_eq, aliasesOf_eq, links_of_view hv]

end View

section Append

variable {o : Object} (hfresh : d.object? o.id = none)
include hfresh

theorem kindOf?_append (i : ObjectId) :
    (d.append o).kindOf? i = if i = o.id then some o.kind else d.kindOf? i := by
  unfold kindOf?
  rw [object?_append_of_fresh hfresh]
  split <;> rfl

theorem refersTo?_append (i : ObjectId) :
    (d.append o).refersTo? i = if i = o.id then o.reference? else d.refersTo? i := by
  unfold refersTo?
  rw [object?_append_of_fresh hfresh]
  split <;> rfl

theorem aliasesOf_append (i : ObjectId) :
    aliasesOf (d.append o) i =
      if i = o.id then (o.links.map (·.2)).getD [] else aliasesOf d i := by
  rw [aliasesOf_eq, object?_append_of_fresh hfresh]
  split
  · rfl
  · rw [aliasesOf_eq]

end Append

section Update

variable (d) (r : ObjectId) (f : IdSet → IdSet)

theorem kindOf?_updateAliases (i : ObjectId) :
    (d.updateAliases r f).kindOf? i = d.kindOf? i := by
  unfold kindOf? updateAliases
  rw [object?_modify]
  split
  · simp [Function.comp_def]
  · rfl

theorem refersTo?_updateAliases (i : ObjectId) :
    (d.updateAliases r f).refersTo? i = d.refersTo? i := by
  unfold refersTo? updateAliases
  rw [object?_modify]
  split
  · cases d.object? i with
    | none => rfl
    | some o => simp
  · rfl

theorem aliasesOf_updateAliases (i : ObjectId) :
    aliasesOf (d.updateAliases r f) i =
      if i = r ∧ (d.node? r).isSome = true then f (aliasesOf d r) else aliasesOf d i := by
  by_cases hi : i = r
  · subst hi
    unfold aliasesOf node? updateAliases
    rw [object?_modify, if_pos rfl]
    cases d.object? i with
    | none => simp
    | some o => cases o <;> simp [Object.mapNode, Object.node?]
  · have hsame : (d.updateAliases r f).object? i = d.object? i := by
      unfold updateAliases
      rw [object?_modify, if_neg hi]
    rw [if_neg fun h => hi h.1, aliasesOf_eq, hsame, aliasesOf_eq]

end Update

theorem view_linkage_edit {change : Edit} (h : d.edit change = .ok e) :
    (∃ n, change = .addNet n ∧ d.addNet n = .ok e) ∨
      (∃ parent o, change = .add parent o ∧ d.add parent o = .ok e) ∨
      (∃ i r, change = .setReference i r ∧ d.setReference i r = .ok e) ∨
      e.view Object.linkage = d.view Object.linkage := by
  rcases view_frame_edit h with hn | ho | ⟨i, name, _, hs⟩ | hr | hv
  · exact .inl hn
  · exact .inr (.inl ho)
  · exact .inr (.inr (.inr (view_setName (fun _ o => by cases o <;> rfl)
      (fun _ o => by cases o <;> rfl) hs)))
  · exact .inr (.inr (.inl hr))
  · exact .inr (.inr (.inr (view_of_frame (g := fun w => (w.label.kind, w.links))
      (fun _ => rfl) hv)))

theorem Aliased.of_view (h : d.Aliased) (hv : e.view Object.linkage = d.view Object.linkage) :
    e.Aliased := by
  have hr := refersTo?_of_view hv
  have hk := kindOf?_of_view hv
  have ha := aliasesOf_of_view hv
  have hrel : e.RefersTo = d.RefersTo := by
    funext a b
    rw [RefersTo, RefersTo, hr]
  constructor
  · intro x y
    rw [ha, hrel]
    exact h.inverse x y
  · intro y
    rw [ha]
    exact h.ascending y
  · intro x y hxy
    rw [hrel] at hxy
    rw [hk, hk]
    exact h.sameKind x y hxy
  · unfold Grounded
    rw [hrel]
    exact h.grounded

theorem kindOf?_of_isNone (h : d.object? i = none) : d.kindOf? i = none := by
  rw [kindOf?, h]
  rfl

theorem refersTo?_of_isNone (h : d.object? i = none) : d.refersTo? i = none := by
  rw [refersTo?, h]
  rfl

theorem aliasesOf_of_isNone (h : d.object? i = none) : aliasesOf d i = [] := by
  rw [aliasesOf_eq, h]
  rfl

/-- Nothing refers to what is not there, so a chain that reaches it starts from it. -/
theorem Aliased.not_reaches_fresh (h : d.Aliased) (hi : d.object? i = none) (hne : j ≠ i) :
    ¬ Relation.ReflTransGen d.RefersTo j i := by
  intro hj
  rcases Relation.ReflTransGen.cases_tail hj with rfl | ⟨k, _, hk⟩
  · exact hne rfl
  · obtain ⟨_, _, hkind⟩ := h.sameKind k i hk
    rw [kindOf?_of_isNone hi] at hkind
    cases hkind

/-- A new object keeps the alias links sound, if nobody is entered as an alias of it and its
referent, if any, is a node of its kind that knows of it. -/
theorem Aliased.extend (h : d.Aliased) (hi : d.object? i = none) {k : Kind}
    {r : Option ObjectId}
    (hkind : ∀ j, e.kindOf? j = if j = i then some k else d.kindOf? j)
    (hrefers : ∀ j, e.refersTo? j = if j = i then r else d.refersTo? j)
    (haliases : ∀ y, aliasesOf e y =
      if r = some y then (aliasesOf d y).insert i else aliasesOf d y)
    (hreferent : ∀ y, r = some y → d.kindOf? y = some k) : e.Aliased := by
  have hold : ∀ x, x ≠ i → ∀ y, e.RefersTo x y ↔ d.RefersTo x y := by
    intro x hx y
    rw [RefersTo, RefersTo, hrefers, if_neg hx]
  have hnew : ∀ y, e.RefersTo i y ↔ r = some y := by
    intro y
    rw [RefersTo, hrefers, if_pos rfl]
  have hnot : ∀ y, i ∉ aliasesOf d y := by
    intro y hy
    have hr := (h.inverse i y).mp hy
    rw [RefersTo, refersTo?_of_isNone hi] at hr
    cases hr
  have hother : ∀ y, d.kindOf? y ≠ none → y ≠ i := by
    rintro y hy rfl
    exact hy (kindOf?_of_isNone hi)
  constructor
  case inverse =>
    intro x y
    rw [haliases]
    by_cases hx : x = i
    · subst hx
      rw [hnew]
      by_cases hy : r = some y
      · simp [hy, IdSet.mem_insert]
      · simp [hy, hnot y]
    · rw [hold x hx, ← h.inverse x y]
      by_cases hy : r = some y
      · simp [hy, IdSet.mem_insert, hx]
      · simp [hy]
  case ascending =>
    intro y
    rw [haliases]
    split
    · exact IdSet.ascending_insert (h.ascending y) i
    · exact h.ascending y
  case sameKind =>
    intro x y hxy
    by_cases hx : x = i
    · subst hx
      have hy := hreferent y ((hnew y).mp hxy)
      have hyi : y ≠ x := hother y (by simp [hy])
      exact ⟨k, by rw [hkind, if_pos rfl], by rw [hkind, if_neg hyi, hy]⟩
    · obtain ⟨l, hxl, hyl⟩ := h.sameKind x y ((hold x hx y).mp hxy)
      have hyi : y ≠ i := hother y (by simp [hyl])
      exact ⟨l, by rw [hkind, if_neg hx, hxl], by rw [hkind, if_neg hyi, hyl]⟩
  case grounded =>
    refine h.grounded.update (i := i) (fun a ha => by rw [hrefers, if_neg ha]) fun t ht => ?_
    have hkt := hreferent t ((hnew t).mp ht)
    exact h.not_reaches_fresh hi (hother t (by simp [hkt]))

theorem view_linkage_entered (parent : ObjectId) (child : Object) :
    ((d.append child).modify parent child.adopt).view Object.linkage =
      (d.append child).view Object.linkage := by
  apply view_modify
  intro o
  have hk : (child.adopt o).kind = o.kind := Object.kind_of_label (Object.label_adopt child o)
  rw [Object.linkage, Object.linkage, hk, Object.links_adopt]

section

variable {parent : ObjectId} {child : Object} (hfresh : d.object? child.id = none)
include hfresh

theorem kindOf?_enter (j : ObjectId) : (d.enter parent child).kindOf? j =
    if j = child.id then some child.kind else d.kindOf? j := by
  have hv := view_linkage_entered (d := d) parent child
  unfold enter
  split
  · rw [kindOf?_of_view hv, kindOf?_append hfresh]
  · rw [kindOf?_updateAliases, kindOf?_of_view hv, kindOf?_append hfresh]

theorem refersTo?_enter (j : ObjectId) : (d.enter parent child).refersTo? j =
    if j = child.id then child.reference? else d.refersTo? j := by
  have hv := view_linkage_entered (d := d) parent child
  unfold enter
  split
  · rw [refersTo?_of_view hv, refersTo?_append hfresh]
  · rw [refersTo?_updateAliases, refersTo?_of_view hv, refersTo?_append hfresh]

end

theorem kindOf?_of_content {container o : Object} (h : d.checkContent container o = .ok ())
    {r : ObjectId} (hr : o.reference? = some r) : d.kindOf? r = some o.kind := by
  cases o with
  | place p =>
    obtain ⟨_, hn⟩ := checkNode_eq_ok_iff.mp (checkPlace_eq_ok_iff.mp h).1
    obtain ⟨x, hx, hk⟩ := hn r hr
    rw [kindOf?, hx, Option.map_some, hk]
    rfl
  | transition t =>
    obtain ⟨_, hn⟩ := checkNode_eq_ok_iff.mp h
    obtain ⟨x, hx, hk⟩ := hn r hr
    rw [kindOf?, hx, Option.map_some, hk]
    rfl
  | net n => cases hr
  | page p => cases hr
  | arc a => cases hr

theorem isNode_of_reference? {o : Object} {r : ObjectId} (h : o.reference? = some r) :
    o.kind.isNode = true := by
  cases o <;> first | rfl | cases h

theorem aliased_enter (h : d.Aliased) {parent : ObjectId} {o container : Object} {w : Owner}
    (ha : d.Admissible parent o container w) : (d.enter parent (o.admitted w)).Aliased := by
  have hfresh : d.object? (o.admitted w).id = none := by
    rw [Object.id_admitted]
    exact ha.fresh
  have hnobody : ((o.admitted w).links.map (·.2)).getD [] = [] := by
    rw [Object.links_admitted]
    cases o.links <;> rfl
  have hv := view_linkage_entered (d := d) parent (o.admitted w)
  have hentered : ∀ y, aliasesOf ((d.append (o.admitted w)).modify parent (o.admitted w).adopt) y =
      aliasesOf d y := by
    intro y
    rw [aliasesOf_of_view hv, aliasesOf_append hfresh, hnobody]
    split
    · next hy => rw [hy, aliasesOf_of_isNone hfresh]
    · rfl
  refine h.extend hfresh (k := o.kind) (r := o.reference?) ?_ ?_ ?_
    fun y hy => kindOf?_of_content ha.content hy
  · intro j
    rw [kindOf?_enter hfresh, Object.kind_admitted]
  · intro j
    rw [refersTo?_enter hfresh, Object.reference?_admitted]
  · intro y
    unfold enter
    split
    · next hr =>
      rw [Object.reference?_admitted] at hr
      rw [hr, hentered]
      simp
    · next r hr =>
      rw [Object.reference?_admitted] at hr
      have hkr := kindOf?_of_content ha.content hr
      have hne : r ≠ (o.admitted w).id := by
        rintro rfl
        rw [kindOf?_of_isNone hfresh] at hkr
        cases hkr
      have hnode : (((d.append (o.admitted w)).modify parent (o.admitted w).adopt).node? r).isSome
          = true := by
        refine isSome_node?_of_kind (k := o.kind) ?_ (isNode_of_reference? hr)
        rw [kindOf?_of_view hv, kindOf?_append hfresh, if_neg hne, hkr]
      rw [aliasesOf_updateAliases, hr, hentered, hentered]
      by_cases hy : y = r
      · subst hy
        rw [if_pos ⟨rfl, hnode⟩, if_pos rfl]
      · have hry : some r ≠ some y := fun he => hy (Option.some.inj he).symm
        rw [if_neg fun h => hy h.1, if_neg hry]

theorem aliased_append_net (h : d.Aliased) {n : Net} (hfresh : d.object? n.id = none) :
    (d.append (.net n)).Aliased := by
  have hf : d.object? (Object.net n).id = none := hfresh
  refine h.extend hf (k := .net) (r := none) (fun j => kindOf?_append hf j)
    (fun j => refersTo?_append hf j) ?_ (fun y hy => by cases hy)
  intro y
  rw [aliasesOf_append hf]
  split
  · next hy =>
    rw [hy, aliasesOf_of_isNone hf]
    rfl
  · simp

end Document

end PagedNets
