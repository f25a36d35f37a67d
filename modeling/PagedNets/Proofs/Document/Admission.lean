import PagedNets.Document.Event
import PagedNets.Proofs.Document.View

/-!
Exactly when an object is admitted, and what the document is then. All that is proved about admitted
objects starts from `add_eq_ok_iff` and from the views of `enter`.
-/

set_option autoImplicit false

namespace PagedNets

theorem bind_eq_ok {ε α β : Type} {x : Except ε α} {f : α → Except ε β} {b : β} :
    (x >>= f) = .ok b ↔ ∃ a, x = .ok a ∧ f a = .ok b := by
  cases x with
  | error e => simp [bind, Except.bind]
  | ok a => simp [bind, Except.bind]

theorem bind_unit_eq_ok {ε β : Type} {x : Except ε Unit} {f : Unit → Except ε β} {b : β} :
    (x >>= f) = .ok b ↔ x = .ok () ∧ f () = .ok b := by
  cases x <;> simp [bind, Except.bind]

theorem ite_error_bind_eq_ok {ε β : Type} {c : Bool} {e : ε} {f : Unit → Except ε β} {b : β} :
    (if c = true then (.error e >>= f) else (.ok () >>= f)) = .ok b ↔ c = false ∧ f () = .ok b := by
  cases c <;> simp [bind, Except.bind]

theorem ite_ok_bind_eq_ok {ε β : Type} {c : Bool} {e : ε} {f : Unit → Except ε β} {b : β} :
    (if c = true then (.ok () >>= f) else (.error e >>= f)) = .ok b ↔ c = true ∧ f () = .ok b := by
  cases c <;> simp [bind, Except.bind]

namespace Object

@[simp] theorem id_admitted (o : Object) (w : Owner) : (o.admitted w).id = o.id := by
  cases o <;> rfl

@[simp] theorem kind_admitted (o : Object) (w : Owner) : (o.admitted w).kind = o.kind := by
  cases o <;> rfl

@[simp] theorem scopedName_admitted (o : Object) (w : Owner) :
    (o.admitted w).scopedName = o.scopedName := by cases o <;> rfl

@[simp] theorem tables_admitted (o : Object) (w : Owner) :
    (o.admitted w).tables = o.tables := by cases o <;> rfl

@[simp] theorem names?_admitted (o : Object) (w : Owner) :
    (o.admitted w).names? = o.names? := by cases o <;> rfl

theorem owner_admitted {o : Object} (w : Owner) (h : o.kind ≠ .net) :
    (o.admitted w).owner = some w := by
  cases o <;> first | rfl | exact absurd rfl h

theorem links_admitted (o : Object) (w : Owner) :
    (o.admitted w).links = o.links.map fun l => (l.1, []) := by cases o <;> rfl

@[simp] theorem reference?_admitted (o : Object) (w : Owner) :
    (o.admitted w).reference? = o.reference? := by cases o <;> rfl

theorem scopeFor_eq_ok {container : Object} {k : Kind} {names : Table String ObjectId}
    (h : container.scopeFor k = .ok names) :
    container.names? = some names ∧
      ((∃ n, container = .net n ∧ k = .page) ∨
        ∃ p, container = .page p ∧ k ≠ .net ∧ p.owner ≠ none) := by
  cases container with
  | net n =>
    simp only [scopeFor] at h
    split at h
    · next hk => cases h; exact ⟨rfl, .inl ⟨n, rfl, hk⟩⟩
    · cases h
  | page p =>
    simp only [scopeFor] at h
    split at h
    · cases h
    next hk =>
      split at h
      · cases h
      next ho => cases h; exact ⟨rfl, .inr ⟨p, rfl, hk, by simpa using ho⟩⟩
  | place p => cases h
  | transition t => cases h
  | arc a => cases h

theorem kind_ne_net_of_scopeFor {container : Object} {k : Kind} {names : Table String ObjectId}
    (h : container.scopeFor k = .ok names) : k ≠ .net := by
  rcases (scopeFor_eq_ok h).2 with ⟨n, _, rfl⟩ | ⟨p, _, hk, _⟩
  · simp
  · exact hk

@[simp] theorem label_adopt (child o : Object) : (child.adopt o).label = o.label := by
  cases o with
  | page p =>
    cases child with
    | arc a =>
      simp only [adopt]
      split <;> rfl
    | _ => rfl
  | _ => rfl

@[simp] theorem links_adopt (child o : Object) : (child.adopt o).links = o.links := by
  cases o with
  | page p =>
    cases child with
    | arc a =>
      simp only [adopt]
      split <;> rfl
    | _ => rfl
  | _ => rfl

end Object

namespace Document

def append (d : Document) (o : Object) : Document := ⟨⟨d.objects.entries ++ [(o.id, o)]⟩⟩

/-- The document with one more object that its container and its referent know of. -/
def enter (d : Document) (parent : ObjectId) (child : Object) : Document :=
  let entered := (d.append child).modify parent child.adopt
  match child.reference? with
  | none => entered
  | some referent => entered.updateAliases referent (IdSet.insert · child.id)

/-- The conditions under which `o` enters `container`. -/
structure Admissible (d : Document) (parent : ObjectId) (o container : Object) (w : Owner) :
    Prop where
  found : d.object? parent = some container
  owner : container.asOwner? = some w
  nonempty : o.id.isEmpty = false
  fresh : d.object? o.id = none
  scope : ∃ names, container.scopeFor o.kind = .ok names ∧
    checkName container.id names o = .ok ()
  content : d.checkContent container o = .ok ()

theorem Admissible.parent_ne {d : Document} {parent : ObjectId} {o container : Object} {w : Owner}
    (h : d.Admissible parent o container w) : parent ≠ o.id := by
  rintro rfl
  have hfresh := h.fresh
  rw [h.found] at hfresh
  cases hfresh

theorem register_eq_ok_iff {d e : Document} {o : Object} :
    d.register o = .ok e ↔ d.object? o.id = none ∧ e = d.append o := by
  rw [← contains_eq_false]
  unfold register
  cases h : d.contains o.id with
  | true => simp
  | false =>
    have hi : d.objects.insert o.id o = ⟨d.objects.entries ++ [(o.id, o)]⟩ :=
      Table.insert_of_contains_eq_false h o
    simp [hi, append, eq_comm]

theorem check_eq_ok_iff {d : Document} {parent : ObjectId} {o : Object} :
    d.check parent o = .ok () ↔ ∃ container w, d.Admissible parent o container w := by
  unfold check
  simp only [ite_error_bind_eq_ok]
  constructor
  · rintro ⟨hne, h⟩
    cases hp : d.object? parent with
    | none => simp [hp] at h
    | some container =>
      simp only [hp, bind_eq_ok (α := Table String ObjectId), bind_unit_eq_ok,
        ite_error_bind_eq_ok] at h
      obtain ⟨names, hs, hfresh, hname, hcontent⟩ := h
      obtain ⟨w, hw⟩ : ∃ w, container.asOwner? = some w := by
        rcases (Object.scopeFor_eq_ok hs).2 with ⟨n, rfl, _⟩ | ⟨p, rfl, _⟩ <;> exact ⟨_, rfl⟩
      exact ⟨container, w, hp, hw, hne, (d.contains_eq_false _).mp hfresh,
        ⟨names, hs, hname⟩, hcontent⟩
  · rintro ⟨container, w, h⟩
    obtain ⟨names, hs, hname⟩ := h.scope
    refine ⟨h.nonempty, ?_⟩
    simp only [h.found, bind_eq_ok (α := Table String ObjectId), bind_unit_eq_ok,
      ite_error_bind_eq_ok]
    exact ⟨names, hs, (d.contains_eq_false _).mpr h.fresh, hname, h.content⟩

theorem commit_of_admissible {d : Document} {parent : ObjectId} {o container : Object}
    {w : Owner} (h : d.Admissible parent o container w) :
    d.commit parent o = .ok (d.enter parent (o.admitted w)) := by
  have hr : d.register (o.admitted w) = .ok (d.append (o.admitted w)) :=
    register_eq_ok_iff.mpr ⟨by simpa using h.fresh, rfl⟩
  simp only [commit, h.found, Option.bind_some, h.owner, hr]
  rfl

theorem add_eq_ok_iff {d e : Document} {parent : ObjectId} {o : Object} :
    d.add parent o = .ok e ↔
      ∃ container w, d.Admissible parent o container w ∧ e = d.enter parent (o.admitted w) := by
  simp only [add, bind_unit_eq_ok, check_eq_ok_iff]
  constructor
  · rintro ⟨⟨container, w, h⟩, hc⟩
    rw [commit_of_admissible h] at hc
    exact ⟨container, w, h, (Except.ok.inj hc).symm⟩
  · rintro ⟨container, w, h, rfl⟩
    exact ⟨⟨container, w, h⟩, commit_of_admissible h⟩

theorem addNet_eq_ok_iff {d e : Document} {n : Net} :
    d.addNet n = .ok e ↔
      n.id.isEmpty = false ∧ d.object? n.id = none ∧ e = d.append (.net n) := by
  unfold addNet
  split
  · next h => simp [h]
  · next h =>
    rw [register_eq_ok_iff]
    simp [h, Object.id]

theorem checkName_eq_ok_iff {scope : ObjectId} {names : Table String ObjectId} {o : Object} :
    checkName scope names o = .ok () ↔ ∀ n, o.scopedName = some n → names.find? n = none := by
  unfold checkName
  cases o.scopedName with
  | none => simp
  | some n =>
    cases h : names.contains n with
    | true =>
      have hf : names.find? n ≠ none := by rw [Ne, ← Table.contains_eq_false, h]; simp
      simp [h, hf]
    | false => simp [h, (names.contains_eq_false n).mp h]

theorem checkNode_eq_ok_iff {d : Document} {i : ObjectId} {k : Kind} {n : NodeData} :
    d.checkNode i k n = .ok () ↔ n.isFinite = true ∧
      ∀ r, n.reference = some r → ∃ x, d.object? r = some x ∧ x.kind = k := by
  unfold checkNode
  split
  · next hf =>
    cases n.reference with
    | none => simp [hf]
    | some r =>
      cases hr : d.object? r with
      | none => simp [checkReference, hf, hr]
      | some x => simp [checkReference, hf, hr]
  · next hf => simp [hf]

theorem checkPlace_eq_ok_iff {d : Document} {p : Place} :
    d.checkPlace p = .ok () ↔
      d.checkNode p.id .place p.node = .ok () ∧ p.markingOffset.isFinite = true := by
  unfold checkPlace
  rw [bind_unit_eq_ok]
  cases p.markingOffset.isFinite <;> simp

theorem endpoint_eq_ok_iff {d : Document} {page : Page} {arc : Arc} {i : ObjectId} {v : Nat} :
    d.endpoint page arc i = .ok v ↔ (∃ n, d.node? i = some n) ∧ page.vertex? i = some v := by
  unfold endpoint
  cases d.node? i with
  | none => simp
  | some n => cases page.vertex? i <;> simp

theorem checkArc_eq_ok_iff {d : Document} {page : Page} {arc : Arc} :
    d.checkArc page arc = .ok () ↔ arc.curve.all Point.isFinite = true ∧
      ∃ v w, d.endpoint page arc arc.source = .ok v ∧ d.endpoint page arc arc.target = .ok w ∧
        page.graph.findEdge? v w = none := by
  unfold checkArc
  simp only [ite_ok_bind_eq_ok, bind_eq_ok (α := Nat)]
  constructor
  · rintro ⟨hc, v, hv, w, hw, h⟩
    refine ⟨hc, v, w, hv, hw, ?_⟩
    cases hf : page.graph.findEdge? v w with
    | none => rfl
    | some e => simp [hf] at h
  · rintro ⟨hc, v, w, hv, hw, h⟩
    exact ⟨hc, v, hv, w, hw, by simp [h]⟩

theorem Admissible.joins {d : Document} {parent : ObjectId} {o container : Object} {w : Owner}
    (h : d.Admissible parent o container w) {a : Arc} {p : Page} (ha : o.admitted w = .arc a)
    (hp : container = .page p) :
    ∃ s t, p.vertex? a.source = some s ∧ p.vertex? a.target = some t ∧
      p.graph.findEdge? s t = none := by
  subst hp
  obtain ⟨b, hb⟩ : ∃ b, o = .arc b := by
    cases o <;> first | exact ⟨_, rfl⟩ | cases ha
  subst hb
  cases ha
  obtain ⟨_, s, t, hs, ht, hnone⟩ := checkArc_eq_ok_iff.mp h.content
  exact ⟨s, t, (endpoint_eq_ok_iff.mp hs).2, (endpoint_eq_ok_iff.mp ht).2, hnone⟩

section

variable {β : Type} {d : Document}

theorem view_append (f : Object → β) (d : Document) (o : Object) :
    (d.append o).view f = d.view f ++ [(o.id, f o)] := by
  simp [view, append]

theorem object?_append (d : Document) (o : Object) (i : ObjectId) :
    (d.append o).object? i = (d.object? i).or (if o.id = i then some o else none) := by
  simp only [object?, append]
  rw [Table.find?_append, Table.find?_cons]
  rfl

theorem object?_append_of_fresh {o : Object} (h : d.object? o.id = none) (i : ObjectId) :
    (d.append o).object? i = if i = o.id then some o else d.object? i := by
  rw [object?_append]
  by_cases hi : i = o.id
  · subst hi
    simp [h]
  · have hne : o.id ≠ i := fun e => hi e.symm
    simp [hi, hne]

theorem view_enter {f : Object → β} (hf : ∀ g o, f (o.mapAliases g) = f o)
    (parent : ObjectId) (child : Object) :
    (d.enter parent child).view f = ((d.append child).modify parent child.adopt).view f := by
  unfold enter
  split
  · rfl
  · exact view_updateAliases hf _ _ _

theorem view_label_enter (parent : ObjectId) (child : Object) :
    (d.enter parent child).view Object.label =
      d.view Object.label ++ [(child.id, child.label)] := by
  rw [view_enter (fun _ o => o.label_mapNode _),
    view_modify (fun o => Object.label_adopt child o), view_append]

@[simp] theorem keys_append (o : Object) : (d.append o).keys = d.keys ++ [o.id] := by
  simp [keys, Table.keys, append]

@[simp] theorem keys_enter (parent : ObjectId) (child : Object) :
    (d.enter parent child).keys = d.keys ++ [child.id] := by
  have h : (d.enter parent child).keys = ((d.append child).modify parent child.adopt).keys :=
    keys_of_view (view_enter (fun _ o => o.label_mapNode _) parent child)
  rw [h, keys_modify, keys_append]

end

end Document

end PagedNets
