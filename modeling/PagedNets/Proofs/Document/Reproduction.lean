import PagedNets.Proofs.Document.FullCopy
import PagedNets.Proofs.Document.Scope

set_option autoImplicit false

namespace PagedNets

theorem Object.eq_of_fields {x y : Object}
    (hf : x.mapNames (fun _ => .empty) = y.mapNames (fun _ => .empty))
    (hn : x.names? = y.names?) : x = y := by
  cases x with
  | net m =>
    cases y with
    | net n =>
      obtain ⟨_, _, _, _, _⟩ := m
      obtain ⟨_, _, _, _, _⟩ := n
      simp_all [mapNames, names?]
    | _ => cases hf
  | page p =>
    cases y with
    | page q =>
      obtain ⟨_, _, _, _, _, _, _, _⟩ := p
      obtain ⟨_, _, _, _, _, _, _, _⟩ := q
      simp_all [mapNames, names?]
    | _ => cases hf
  | _ => cases y <;> first | exact hf | cases hf

namespace Document

/-- The document has the objects of another one in the same order, each as it is read back. -/
def Reproduces (e d : Document) : Prop := e.view id = d.view Object.reread

variable {d e : Document} {i : ObjectId}

theorem Reproduces.object? (h : e.Reproduces d) (i : ObjectId) :
    e.object? i = (d.object? i).map Object.reread := by
  rw [object?_map, ← h, ← object?_map, Option.map_id]
  rfl

theorem Reproduces.toList (h : e.Reproduces d) : e.toList = d.toList.map Object.reread := by
  have hvalues : (e.view id).map (·.2) = (d.view Object.reread).map (·.2) := by rw [h]
  simpa [view, Document.toList, Table.values, Function.comp_def] using hvalues

theorem Reproduces.keys (h : e.Reproduces d) : e.keys = d.keys := by
  have hkeys : (e.view id).map (·.1) = (d.view Object.reread).map (·.1) := by rw [h]
  simpa [view, Document.keys, Table.keys, Function.comp_def] using hkeys

theorem Registered.view_eq {β : Type} (h : d.Registered) (f : Object → β) :
    d.view f = d.keys.filterMap fun i => (d.object? i).map fun o => (i, f o) := by
  rw [view, Table.entries_eq_filterMap h.distinct, List.map_filterMap]
  refine List.filterMap_congr fun i _ => ?_
  rw [Option.map_map]
  rfl

theorem Registered.view_congr {β : Type} {f g : Object → β} (hd : d.Registered)
    (he : e.Registered) (hk : e.keys = d.keys)
    (h : ∀ i o, d.object? i = some o → ∃ x, e.object? i = some x ∧ f x = g o) :
    e.view f = d.view g := by
  rw [hd.view_eq, he.view_eq, hk]
  refine List.filterMap_congr fun i hi => ?_
  obtain ⟨o, ho⟩ := (d.mem_keys_iff i).mp hi
  obtain ⟨x, hx, hxo⟩ := h i o ho
  rw [ho, hx, Option.map_some, Option.map_some, hxo]

theorem Scoped.names_eq (hd : d.Scoped) (he : e.Scoped) (hp : e.plates = d.plates) {c : ObjectId}
    {o x : Object} (ho : d.object? c = some o) (hx : e.object? c = some x)
    (hl : x.label = o.label) : x.names? = o.names? := by
  have hw := Object.asOwner?_of_label hl
  cases how : o.asOwner? with
  | none =>
    rw [how] at hw
    rw [Object.names?_of_asOwner?_eq_none how, Object.names?_of_asOwner?_eq_none hw]
  | some w =>
    rw [how] at hw
    obtain ⟨old, hold⟩ := Object.exists_names? how
    obtain ⟨new, hnew⟩ := Object.exists_names? hw
    have hentries : new.entries = old.entries := by
      rw [he c x w new hx hw hnew, hd c o w old ho how hold, hp]
    rw [hold, hnew]
    cases old
    cases new
    cases hentries
    rfl

theorem Copies.reproduces (hd : d.Reachable Edit.IsPlain) (h : d.Copies e d.preorder)
    (horder : d.preorder = d.keys) (hlinks : ∀ i, e.refersTo? i = d.refersTo? i)
    (hds : d.Scoped) (hes : e.Scoped) : e.Reproduces d := by
  have hkeys : e.keys = d.keys := h.keys.trans horder
  have hplates : e.plates = d.plates := by
    refine plates_of_view (hd.registered.view_congr h.reachable.registered hkeys fun i o ho => ?_)
    obtain ⟨x, hx, hxo⟩ := h.exists_of_object? hd ho
    refine ⟨x, hx, ?_⟩
    rw [Object.plate, Object.plate, Object.label_of_core hxo, Object.scopedName_of_core hxo]
  refine hd.registered.view_congr h.reachable.registered hkeys fun i o ho => ?_
  obtain ⟨x, hx, hxo⟩ := h.exists_of_object? hd ho
  have hfields := h.fields hd hlinks ho hx hxo
  have hnames := hds.names_eq hes hplates ho hx (Object.label_of_core hxo)
  exact ⟨x, hx, Object.eq_of_fields hfields (hnames.trans o.names?_reread.symm)⟩

end Document

end PagedNets
