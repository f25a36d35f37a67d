import Mathlib.Data.List.Induction
import PagedNets.Proofs.Document.Naming
import PagedNets.Proofs.Document.Nesting

/-!
Objects that are stored in one document and given to another one, or to the same one again. A clone
of a node loses its aliases on admission, but a clone of a container keeps its tables.
-/

set_option autoImplicit false

namespace PagedNets

section Listed

variable {κ α : Type} [DecidableEq κ] {i : ObjectId}

theorem Table.mem_values_insert {t : Table κ α} {k : κ} {a b : α} (h : b ∈ (t.insert k a).values) :
    b ∈ t.values ∨ b = a := by
  obtain ⟨e, he, rfl⟩ := List.mem_map.mp h
  unfold Table.insert at he
  split at he
  · obtain ⟨f, hf, rfl⟩ := List.mem_map.mp he
    split
    · exact .inr rfl
    · exact .inl (List.mem_map_of_mem hf)
  · rcases List.mem_append.mp he with he | he
    · exact .inl (List.mem_map_of_mem he)
    · rw [List.mem_singleton.mp he]
      exact .inr rfl

theorem Table.mem_keys_insert {t : Table κ α} {k j : κ} {a : α} (h : j ∈ (t.insert k a).keys) :
    j ∈ t.keys ∨ j = k := by
  rw [Table.keys_insert] at h
  split at h
  · exact .inl h
  · simpa using h

theorem mem_values_enterName {names : Table String ObjectId} {name : Option String} {j : ObjectId}
    (h : i ∈ (enterName names name j).values) : i ∈ names.values ∨ i = j := by
  cases name with
  | none => exact .inl h
  | some n => exact Table.mem_values_insert h

theorem mem_insertKey {keys : List ObjectId} {j : ObjectId} (h : i ∈ insertKey keys j) :
    i ∈ keys ∨ i = j := by
  unfold insertKey at h
  split at h
  · exact .inl h
  · simpa using h

def Tables.listed (t : Tables) : List ObjectId :=
  t.pages ++ t.nodes.keys ++ t.arcs.keys ++ t.graph.vertices ++ t.graph.edges.map (·.arc)

namespace Object

def listed (o : Object) : List ObjectId :=
  o.tables.listed ++ (o.names?.map Table.values).getD []

@[simp] theorem listed_mapNode (f : NodeData → NodeData) (o : Object) :
    (o.mapNode f).listed = o.listed := by cases o <;> rfl

@[simp] theorem listed_setName (n : Option String) (o : Object) :
    (o.setName n).listed = o.listed := by cases o <;> rfl

@[simp] theorem listed_admitted (o : Object) (w : Owner) : (o.admitted w).listed = o.listed := by
  cases o <;> rfl

theorem listed_of_bare {o : Object} (h : o.IsBare) : o.listed = [] := by
  have hnames : (o.names?.map Table.values).getD [] = [] := by
    cases hn : o.names? with
    | none => rfl
    | some names =>
      have hempty := names?_of_bare h hn
      rw [hempty]
      rfl
  rw [listed, hnames, tables_of_bare h]
  rfl

theorem mem_listed_net {n : Net} :
    i ∈ (Object.net n).listed ↔ i ∈ n.pages ∨ i ∈ n.names.values := by
  simp [listed, tables, Tables.listed, names?, Table.empty, Table.keys]

theorem mem_listed_page {p : Page} : i ∈ (Object.page p).listed ↔
    i ∈ p.pages ∨ i ∈ p.nodes.keys ∨ i ∈ p.arcs.keys ∨ i ∈ p.graph.vertices ∨
      i ∈ p.graph.edges.map (·.arc) ∨ i ∈ p.names.values := by
  simp only [listed, tables, Tables.listed, names?, Option.map_some, Option.getD_some,
    List.mem_append, or_assoc]

variable {p : Page} {j : ObjectId} {name : Option String}

theorem listed_insertNode (h : i ∈ (Object.page (p.insertNode j name)).listed) :
    i ∈ (Object.page p).listed ∨ i = j := by
  rw [mem_listed_page] at h ⊢
  rcases h with h | h | h | h | h | h
  · exact .inl (.inl h)
  · exact (Table.mem_keys_insert h).imp_left fun h => .inr (.inl h)
  · exact .inl (.inr (.inr (.inl h)))
  · rcases List.mem_append.mp h with h | h
    · exact .inl (.inr (.inr (.inr (.inl h))))
    · exact .inr (List.mem_singleton.mp h)
  · exact .inl (.inr (.inr (.inr (.inr (.inl h)))))
  · exact (mem_values_enterName h).imp_left fun h => .inr (.inr (.inr (.inr (.inr h))))

theorem listed_insertArc {v w : Nat} (h : i ∈ (Object.page (p.insertArc j name v w)).listed) :
    i ∈ (Object.page p).listed ∨ i = j := by
  rw [mem_listed_page] at h ⊢
  rcases h with h | h | h | h | h | h
  · exact .inl (.inl h)
  · exact .inl (.inr (.inl h))
  · exact (Table.mem_keys_insert h).imp_left fun h => .inr (.inr (.inl h))
  · exact .inl (.inr (.inr (.inr (.inl h))))
  · rw [Page.insertArc, Adjacency.addEdge, List.map_append] at h
    rcases List.mem_append.mp h with h | h
    · exact .inl (.inr (.inr (.inr (.inr (.inl h)))))
    · exact .inr (List.mem_singleton.mp h)
  · exact (mem_values_enterName h).imp_left fun h => .inr (.inr (.inr (.inr (.inr h))))

theorem listed_insertPage (h : i ∈ (Object.page (p.insertPage j name)).listed) :
    i ∈ (Object.page p).listed ∨ i = j := by
  rw [mem_listed_page] at h ⊢
  rcases h with h | h | h | h | h | h
  · exact (mem_insertKey h).imp_left .inl
  · exact .inl (.inr (.inl h))
  · exact .inl (.inr (.inr (.inl h)))
  · exact .inl (.inr (.inr (.inr (.inl h))))
  · exact .inl (.inr (.inr (.inr (.inr (.inl h)))))
  · exact (mem_values_enterName h).imp_left fun h => .inr (.inr (.inr (.inr (.inr h))))

theorem listed_adopt {child o : Object} (h : i ∈ (child.adopt o).listed) :
    i ∈ o.listed ∨ i = child.id := by
  cases o with
  | net n =>
    rw [adopt, mem_listed_net] at h
    rw [mem_listed_net]
    rcases h with h | h
    · exact (mem_insertKey h).imp_left .inl
    · exact (mem_values_enterName h).imp_left .inr
  | page p =>
    cases child with
    | arc a =>
      simp only [adopt] at h
      split at h
      · exact listed_insertArc h
      · exact .inl h
    | place q => exact listed_insertNode h
    | transition q => exact listed_insertNode h
    | net q => exact listed_insertPage h
    | page q => exact listed_insertPage h
  | place p => exact .inl h
  | transition t => exact .inl h
  | arc a => exact .inl h

theorem mem_values_renameEntry {names : Table String ObjectId} {old new : Option String}
    (h : i ∈ (Document.renameEntry names old new j).values) : i ∈ names.values ∨ i = j := by
  refine (mem_values_enterName h).imp_left fun h => ?_
  cases old with
  | none => exact h
  | some o =>
    obtain ⟨e, he, rfl⟩ := List.mem_map.mp h
    exact List.mem_map_of_mem (List.mem_of_mem_filter he)

theorem listed_renameEntry {o : Object} {old new : Option String}
    (h : i ∈ (o.mapNames (Document.renameEntry · old new j)).listed) : i ∈ o.listed ∨ i = j := by
  cases o with
  | net n =>
    rw [mapNames, mem_listed_net] at h
    rw [mem_listed_net]
    rcases h with h | h
    · exact .inl (.inl h)
    · exact (mem_values_renameEntry h).imp_left .inr
  | page p =>
    rw [mapNames, mem_listed_page] at h
    rw [mem_listed_page]
    rcases h with h | h | h | h | h | h
    · exact .inl (.inl h)
    · exact .inl (.inr (.inl h))
    · exact .inl (.inr (.inr (.inl h)))
    · exact .inl (.inr (.inr (.inr (.inl h))))
    · exact .inl (.inr (.inr (.inr (.inr (.inl h)))))
    · exact (mem_values_renameEntry h).imp_left fun h => .inr (.inr (.inr (.inr (.inr h))))
  | place p => exact .inl h
  | transition t => exact .inl h
  | arc a => exact .inl h

end Object

end Listed

def Edit.admitted? : Edit → Option Object
  | .addNet n => some (.net n)
  | .add _ o => some o
  | _ => none

namespace Document

variable {d e : Document} {c i : ObjectId}

theorem registered_edit {change : Edit} (h : d.Registered) (he : d.edit change = .ok e) :
    e.Registered := by
  rcases view_shape_edit he with ⟨n, rfl, hn⟩ | ⟨parent, o, rfl, ho⟩ | hv
  · obtain ⟨hne, hfresh, rfl⟩ := addNet_eq_ok_iff.mp hn
    exact registered_append_net h hne hfresh
  · obtain ⟨container, w, ha, rfl⟩ := add_eq_ok_iff.mp ho
    exact registered_enter h ha
  · exact h.of_view (view_label_of_view_shape hv)

theorem Leads.registered {allowed : Edit → Prop} (h : Leads allowed {} d) : d.Registered := by
  induction h with
  | refl => exact contained_empty.1
  | tail _ hstep ih =>
    obtain ⟨_, -, he⟩ := hstep
    exact registered_edit ih he

theorem labels_edit {change : Edit} (he : d.edit change = .ok e) : d.labels ⊆ e.labels := by
  rcases view_shape_edit he with ⟨n, rfl, hn⟩ | ⟨parent, o, rfl, ho⟩ | hv
  · obtain ⟨_, _, rfl⟩ := addNet_eq_ok_iff.mp hn
    rw [labels_append]
    exact List.subset_append_left _ _
  · obtain ⟨container, w, _, rfl⟩ := add_eq_ok_iff.mp ho
    rw [labels_enter]
    exact List.subset_append_left _ _
  · rw [labels_of_view (view_label_of_view_shape hv)]
    exact List.Subset.refl _

theorem listed_add {parent : ObjectId} {o : Object}
    (he : d.add parent o = .ok e) {x : Object} (hx : e.object? c = some x) (hi : i ∈ x.listed) :
    (∃ y, d.object? c = some y ∧ y.asOwner? = x.asOwner? ∧ i ∈ y.listed) ∨
      (∃ l ∈ e.labels, l.id = i ∧ l.owner = x.asOwner?) ∨
      ∃ p, some o = some p ∧ p.id = c ∧ i ∈ p.listed := by
  obtain ⟨container, w, ha, rfl⟩ := add_eq_ok_iff.mp he
  obtain ⟨names, hscope, _⟩ := ha.scope
  have hfresh : d.object? (o.admitted w).id = none := Object.id_admitted o w ▸ ha.fresh
  obtain ⟨y, hy, hxy⟩ := object?_enter (f := fun o => (o.label, o.listed))
    (fun g o => by cases o <;> rfl) hfresh hx
  obtain ⟨hlabel, hlisted⟩ := Prod.mk.inj hxy
  by_cases hparent : c = parent
  · rw [if_pos hparent] at hlabel hlisted
    rw [Object.label_adopt] at hlabel
    have hold : c ≠ (o.admitted w).id := by
      rw [hparent, Object.id_admitted]
      exact ha.parent_ne
    rw [if_neg hold] at hy
    have howner := Object.asOwner?_of_label hlabel
    rw [hlisted] at hi
    rcases Object.listed_adopt hi with hi | hi
    · exact .inl ⟨y, hy, howner.symm, hi⟩
    · refine .inr (.inl ⟨(o.admitted w).label, ?_, hi.symm, ?_⟩)
      · rw [labels_enter]
        exact List.mem_append_right _ (List.mem_singleton_self _)
      · rw [hparent, ha.found] at hy
        cases hy
        rw [howner, ha.owner]
        exact Object.owner_admitted w (Object.kind_ne_net_of_scopeFor hscope)
  · rw [if_neg hparent] at hlabel hlisted
    rw [hlisted] at hi
    split at hy
    · next hnew =>
      cases hy
      rw [Object.listed_admitted] at hi
      exact .inr (.inr ⟨o, rfl, by rw [hnew, Object.id_admitted], hi⟩)
    · exact .inl ⟨y, hy, (Object.asOwner?_of_label hlabel).symm, hi⟩

theorem listed_setName (h : d.Registered) {j : ObjectId} {name : Option String}
    (he : d.setName j name = .ok e) {x : Object} (hx : e.object? c = some x) (hi : i ∈ x.listed) :
    (∃ y, d.object? c = some y ∧ y.asOwner? = x.asOwner? ∧ i ∈ y.listed) ∨
      ∃ l ∈ e.labels, l.id = i ∧ l.owner = x.asOwner? := by
  obtain ⟨y, hy, hlabel⟩ := exists_of_view
    (view_setName (fun n o => o.label_setName n) (fun g o => o.label_mapNames g) he) hx
  have howner : y.asOwner? = x.asOwner? := Object.asOwner?_of_label hlabel
  obtain ⟨o, ho, ⟨_, heq⟩ | ⟨w, hw, _, heq⟩⟩ := (setName_eq_ok_iff h).mp he
  · rw [heq, object?_modify, hy] at hx
    split at hx
    · cases hx
      rw [Object.listed_setName] at hi
      exact .inl ⟨y, hy, howner, hi⟩
    · cases hx
      exact .inl ⟨x, hy, rfl, hi⟩
  · rw [heq, object?_rename, hy] at hx
    -- Renaming changes the entry of the object in the scope of its owner.
    have hlisted : i ∈ y.listed ∨ c = w.id ∧ i = j := by
      have hentered : i ∈ (if c = w.id then
          y.mapNames (renameEntry · o.scopedName (name.filter (!·.isEmpty)) j) else y).listed := by
        cases hx
        dsimp only at hi
        split at hi
        · rwa [Object.listed_setName] at hi
        · exact hi
      split at hentered
      · next hscope => exact (Object.listed_renameEntry hentered).imp_right fun hj => ⟨hscope, hj⟩
      · exact .inl hentered
    rcases hlisted with hi | ⟨hscope, rfl⟩
    · exact .inl ⟨y, hy, howner, hi⟩
    · obtain ⟨v, z, hv, hz, hzv, _⟩ := h.owner_spec ho (Object.kind_ne_net_of_owner hw)
      rw [hw] at hv
      cases hv
      rw [← hscope, hy] at hz
      cases hz
      have hsub : d.labels ⊆ e.labels :=
        labels_edit (show d.edit (.setName i name) = .ok e from he)
      refine .inr ⟨o.label, hsub (mem_labels_of_object? ho), h.id_of_object? ho, ?_⟩
      rw [← howner, hzv]
      exact hw

/-- What is listed after an edit was listed before, or is a child of its container, or came with a
container that the edit admits. -/
theorem listed_edit {change : Edit} (h : d.Registered) (he : d.edit change = .ok e) {x : Object}
    (hx : e.object? c = some x) (hi : i ∈ x.listed) :
    (∃ y, d.object? c = some y ∧ y.asOwner? = x.asOwner? ∧ i ∈ y.listed) ∨
      (∃ l ∈ e.labels, l.id = i ∧ l.owner = x.asOwner?) ∨
      ∃ o, change.admitted? = some o ∧ o.id = c ∧ i ∈ o.listed := by
  rcases view_frame_edit he with ⟨n, rfl, hn⟩ | ⟨parent, o, rfl, ho⟩ | ⟨j, name, rfl, hs⟩ |
    ⟨j, r, rfl, hr⟩ | hv
  · obtain ⟨_, hfresh, rfl⟩ := addNet_eq_ok_iff.mp hn
    have hc := object?_append_of_fresh (o := .net n) hfresh c
    rw [hx] at hc
    split at hc
    · next hnew =>
      cases hc
      exact .inr (.inr ⟨.net n, rfl, hnew.symm, hi⟩)
    · exact .inl ⟨x, hc.symm, rfl, hi⟩
  · exact listed_add ho hx hi
  · exact (listed_setName h hs hx hi).imp_right .inl
  · have hv := view_setReference (f := fun o => (o.asOwner?, o.listed))
      (fun g o => by cases o <;> rfl) (fun o => by cases o <;> rfl) hr
    obtain ⟨y, hy, hyx⟩ := exists_of_view hv hx
    obtain ⟨howner, hlisted⟩ := Prod.mk.inj hyx
    exact .inl ⟨y, hy, howner, hlisted ▸ hi⟩
  · have hv := view_of_frame (f := fun o => (o.asOwner?, o.listed))
      (g := fun w => (w.label.asOwner?, w.tables.listed ++ (w.names?.map Table.values).getD []))
      (fun o => by simp [Object.frame, Object.listed]) hv
    obtain ⟨y, hy, hyx⟩ := exists_of_view hv hx
    obtain ⟨howner, hlisted⟩ := Prod.mk.inj hyx
    exact .inl ⟨y, hy, howner, hlisted ▸ hi⟩

end Document

/-- A step of somebody who works on several documents: an edit of one of them, or the admission of a
clone of what is stored in one, as a net or into a container. -/
inductive Deed where
  | edit (k : Nat) (change : Edit)
  | clone (source : Nat) (i : ObjectId) (k : Nat) (parent : Option ObjectId)

namespace Deed

def edit? (s : Nat → Document) : Deed → Option (Nat × Edit)
  | .edit k change => some (k, change)
  | .clone source i k none => ((s source).net? i).map fun n => (k, .addNet n)
  | .clone source i k (some parent) => ((s source).object? i).map fun o => (k, .add parent o)

def perform (s : Nat → Document) (deed : Deed) : Nat → Document :=
  match deed.edit? s with
  | none => s
  | some (k, change) =>
    match (s k).edit change with
    | .error _ => s
    | .ok e => Function.update s k e

def run (deeds : List Deed) : Nat → Document := deeds.foldl perform fun _ => {}

/-- Only clones bring contents. -/
def IsPlain : Deed → Prop
  | .edit _ change => change.IsPlain
  | .clone .. => True

/-- The container came into the document as a clone, and the original listed the identifier. -/
def Brought (deeds : List Deed) (k : Nat) (c i : ObjectId) : Prop :=
  ∃ before source parent after o, deeds = before ++ .clone source c k parent :: after ∧
    (run before source).object? c = some o ∧ i ∈ o.listed

def Accounted (deeds : List Deed) : Prop :=
  ∀ k c x, (run deeds k).object? c = some x → ∀ i ∈ x.listed,
    (∃ l ∈ (run deeds k).labels, l.id = i ∧ l.owner = x.asOwner?) ∨ Brought deeds k c i

variable {deeds : List Deed} {deed : Deed} {k : Nat} {c i : ObjectId}

theorem run_concat (deeds : List Deed) (deed : Deed) :
    run (deeds ++ [deed]) = perform (run deeds) deed := by
  simp [run]

theorem Brought.concat (h : Brought deeds k c i) (deed : Deed) :
    Brought (deeds ++ [deed]) k c i := by
  obtain ⟨before, source, parent, after, o, rfl, ho, hi⟩ := h
  exact ⟨before, source, parent, after ++ [deed], o, by simp, ho, hi⟩

theorem run_concat_cases (deeds : List Deed) (deed : Deed) (k : Nat) :
    run (deeds ++ [deed]) k = run deeds k ∨
      ∃ change, deed.edit? (run deeds) = some (k, change) ∧
        (run deeds k).edit change = .ok (run (deeds ++ [deed]) k) := by
  rw [run_concat]
  cases hedit : deed.edit? (run deeds) with
  | none => exact .inl (by simp [perform, hedit])
  | some asked =>
    obtain ⟨j, change⟩ := asked
    cases he : (run deeds j).edit change with
    | error cause => exact .inl (by simp [perform, hedit, he])
    | ok e =>
      have hperform : perform (run deeds) deed = Function.update (run deeds) j e := by
        simp [perform, hedit, he]
      rw [hperform]
      by_cases hk : k = j
      · subst hk
        exact .inr ⟨change, rfl, by rw [Function.update_self, he]⟩
      · exact .inl (Function.update_of_ne hk _ _)

theorem registered_run (deeds : List Deed) (k : Nat) : (run deeds k).Registered := by
  induction deeds using List.reverseRecOn with
  | nil => exact Document.contained_empty.1
  | append_singleton deeds deed ih =>
    rcases run_concat_cases deeds deed k with hsame | ⟨change, -, he⟩
    · rw [hsame]
      exact ih
    · exact Document.registered_edit ih he

theorem brought_of_admitted (hp : deed.IsPlain) {change : Edit} {o : Object}
    (hedit : deed.edit? (run deeds) = some (k, change)) (ho : change.admitted? = some o)
    (hc : o.id = c) (hi : i ∈ o.listed) : Brought (deeds ++ [deed]) k c i := by
  cases deed with
  | edit j change' =>
    cases hedit
    have hbare : o.IsBare := by
      cases change with
      | addNet n => cases ho; exact hp
      | add parent p => cases ho; exact hp
      | _ => cases ho
    rw [Object.listed_of_bare hbare] at hi
    cases hi
  | clone source j l parent =>
    have hstored : (run deeds source).object? j = some o ∧ l = k := by
      cases parent with
      | none =>
        obtain ⟨n, hn, heq⟩ := Option.map_eq_some_iff.mp hedit
        cases heq
        cases ho
        exact ⟨Document.net?_eq_some_iff.mp hn, rfl⟩
      | some parent =>
        obtain ⟨p, hq, heq⟩ := Option.map_eq_some_iff.mp hedit
        cases heq
        cases ho
        exact ⟨hq, rfl⟩
    obtain ⟨hstored, rfl⟩ := hstored
    have hj : o.id = j := (registered_run deeds source).id_of_object? hstored
    rw [← hj, hc] at hstored
    exact ⟨deeds, source, parent, [], o, by rw [← hj, hc], hstored, hi⟩

theorem accounted_concat (h : Accounted deeds) (hp : deed.IsPlain) :
    Accounted (deeds ++ [deed]) := by
  intro k c x hx i hi
  rcases run_concat_cases deeds deed k with hsame | ⟨change, hedit, he⟩
  · rw [hsame] at hx ⊢
    exact (h k c x hx i hi).imp_right (·.concat deed)
  · rcases Document.listed_edit (registered_run deeds k) he hx hi with
      ⟨y, hy, howner, hyi⟩ | hchild | ⟨o, ho, hc, hoi⟩
    · rw [← howner]
      refine (h k c y hy i hyi).imp ?_ (·.concat deed)
      rintro ⟨l, hl, hli, hlo⟩
      exact ⟨l, Document.labels_edit he hl, hli, hlo⟩
    · exact .inl hchild
    · exact .inr (brought_of_admitted hp hedit ho hc hoi)

/-- In every run of plain steps the registries stay sound, and containers list nothing but their
children and what they brought along as clones. -/
theorem accounted_run (deeds : List Deed) (h : ∀ deed ∈ deeds, deed.IsPlain) :
    (∀ k, (run deeds k).Registered) ∧ Accounted deeds := by
  refine ⟨registered_run deeds, ?_⟩
  induction deeds using List.reverseRecOn with
  | nil =>
    intro k c x hx
    cases hx
  | append_singleton deeds deed ih =>
    exact accounted_concat (ih fun a ha => h a (List.mem_append_left _ ha))
      (h deed (List.mem_append_right _ (List.mem_singleton_self _)))

/-- A page inside a page, the outer one with a place. Both pages are cloned into another document,
the inner one first, and the outer one into it. -/
def crossedRun : List Deed :=
  [.edit 0 (.addNet { id := ⟨"n"⟩, format := .placeTransition }),
    .edit 0 (.add ⟨"n"⟩ (.page { id := ⟨"p"⟩ })),
    .edit 0 (.add ⟨"p"⟩ (.page { id := ⟨"q"⟩ })),
    .edit 0 (.add ⟨"p"⟩ (.place { id := ⟨"a"⟩ })),
    .edit 1 (.addNet { id := ⟨"m"⟩, format := .placeTransition }),
    .clone 0 ⟨"q"⟩ 1 (some ⟨"m"⟩),
    .clone 0 ⟨"p"⟩ 1 (some ⟨"q"⟩)]

theorem isPlain_crossedRun : ∀ deed ∈ crossedRun, deed.IsPlain := by
  intro deed hd
  simp only [crossedRun, List.mem_cons, List.not_mem_nil, or_false] at hd
  rcases hd with rfl | rfl | rfl | rfl | rfl | rfl | rfl
  · exact ⟨rfl, rfl⟩
  · exact ⟨rfl, rfl, rfl, rfl, rfl⟩
  · exact ⟨rfl, rfl, rfl, rfl, rfl⟩
  · trivial
  · exact ⟨rfl, rfl⟩
  · trivial
  · trivial

theorem accounted_crossedRun : Accounted crossedRun ∧
    ((run crossedRun 1).page? ⟨"p"⟩).isSome = true :=
  ⟨(accounted_run crossedRun isPlain_crossedRun).2, by decide⟩

/-- Clones leave the tables unsound: a place is listed on a page and is in no document with it, and
each of two pages is nested in the other. -/
theorem clones_unsound : (∀ deed ∈ crossedRun, deed.IsPlain) ∧
    ((run crossedRun 1).page? ⟨"p"⟩).map (fun p => (p.nodes.keys, p.pages)) =
      some ([⟨"a"⟩], [⟨"q"⟩]) ∧
    (run crossedRun 1).contains ⟨"a"⟩ = false ∧
    ((run crossedRun 1).page? ⟨"q"⟩).map (·.pages) = some [⟨"p"⟩] := by
  refine ⟨isPlain_crossedRun, ?_, ?_, ?_⟩ <;> decide

end Deed

end PagedNets
