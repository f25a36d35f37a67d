import PagedNets.Document.Event
import PagedNets.Proofs.Table

/-!
Documents seen through a function of their objects. An edit that changes no value of the function
leaves the view as it was; a property that is stated on views is kept by all edits that keep them.
-/

set_option autoImplicit false

namespace PagedNets

/-- What an object never loses once it is in a document. -/
structure Label where
  id : ObjectId
  kind : Kind
  owner : Option Owner
  ends : Option (ObjectId × ObjectId) := none
  deriving DecidableEq, Repr

/-- The tables of a container; those of any other object are empty. -/
structure Tables where
  pages : List ObjectId := []
  nodes : Table ObjectId Nat := .empty
  arcs : Table ObjectId Nat := .empty
  graph : Adjacency := {}

/-- What the relations of a document are made of. Coordinates, tokens and the other free fields are
no part of it. -/
structure Frame where
  label : Label
  tables : Tables
  links : Option (Option ObjectId × IdSet)
  scopedName : Option String
  names? : Option (Table String ObjectId)

namespace Object

def ends : Object → Option (ObjectId × ObjectId)
  | .arc a => some (a.source, a.target)
  | _ => none

def label (o : Object) : Label := { id := o.id, kind := o.kind, owner := o.owner, ends := o.ends }

def tables : Object → Tables
  | .net n => { pages := n.pages }
  | .page p => { pages := p.pages, nodes := p.nodes, arcs := p.arcs, graph := p.graph }
  | _ => {}

def links (o : Object) : Option (Option ObjectId × IdSet) :=
  o.node?.map fun n => (n.reference, n.referencedBy)

def frame (o : Object) : Frame :=
  { label := o.label, tables := o.tables, links := o.links, scopedName := o.scopedName,
    names? := o.names? }

def mapAliases (g : IdSet → IdSet) (o : Object) : Object :=
  o.mapNode fun n => { n with referencedBy := g n.referencedBy }

@[simp] theorem label_setName (o : Object) (n : Option String) :
    (o.setName n).label = o.label := by cases o <;> rfl

@[simp] theorem label_mapNames (o : Object) (f : Table String ObjectId → Table String ObjectId) :
    (o.mapNames f).label = o.label := by cases o <;> rfl

@[simp] theorem label_mapNode (o : Object) (f : NodeData → NodeData) :
    (o.mapNode f).label = o.label := by cases o <;> rfl

theorem id_of_label {o x : Object} (h : o.label = x.label) : o.id = x.id := congrArg Label.id h

theorem kind_of_label {o x : Object} (h : o.label = x.label) : o.kind = x.kind :=
  congrArg Label.kind h

theorem owner_of_label {o x : Object} (h : o.label = x.label) : o.owner = x.owner :=
  congrArg Label.owner h

theorem asOwner?_of_label {o x : Object} (h : o.label = x.label) :
    o.asOwner? = x.asOwner? := by
  have hi := id_of_label h
  have hk := kind_of_label h
  cases o <;> cases x <;> simp_all [asOwner?, kind, id]

theorem id_of_asOwner? {o : Object} {w : Owner} (h : o.asOwner? = some w) : w.id = o.id := by
  cases o <;> simp_all [asOwner?, Owner.id, id] <;> rw [← h]

end Object

namespace Document

variable {β : Type}

def keys (d : Document) : List ObjectId := d.objects.keys

def view (f : Object → β) (d : Document) : List (ObjectId × β) :=
  d.objects.entries.map fun e => (e.1, f e.2)

theorem object?_modify (d : Document) (i j : ObjectId) (f : Object → Object) :
    (d.modify i f).object? j = if j = i then (d.object? j).map f else d.object? j :=
  d.objects.find?_modify i j f

@[simp] theorem keys_modify (d : Document) (i : ObjectId) (f : Object → Object) :
    (d.modify i f).keys = d.keys := d.objects.keys_modify i f

theorem modify_modify (d : Document) (i : ObjectId) (f g : Object → Object) :
    (d.modify i f).modify i g = d.modify i (g ∘ f) := by
  simp only [modify, Table.modify, List.map_map, mk.injEq, Table.mk.injEq]
  refine List.map_congr_left fun entry _ => ?_
  rw [Function.comp]
  by_cases hi : entry.1 = i
  · simp [hi]
  · simp [hi]

theorem contains_iff (d : Document) (i : ObjectId) :
    d.contains i = true ↔ ∃ o, d.object? i = some o := d.objects.contains_iff_exists i

theorem contains_eq_false (d : Document) (i : ObjectId) :
    d.contains i = false ↔ d.object? i = none := d.objects.contains_eq_false i

theorem mem_keys_iff (d : Document) (i : ObjectId) :
    i ∈ d.keys ↔ ∃ o, d.object? i = some o := Table.mem_keys_iff

theorem mem_keys_of_object? {d : Document} {i : ObjectId} {o : Object}
    (h : d.object? i = some o) : i ∈ d.keys := (d.mem_keys_iff i).mpr ⟨o, h⟩

theorem length_keys (d : Document) : d.keys.length = d.size := by
  simp [keys, Table.keys, size, Table.size]

theorem view_modify {f : Object → β} {g : Object → Object} (h : ∀ o, f (g o) = f o)
    (d : Document) (i : ObjectId) : (d.modify i g).view f = d.view f := by
  simp only [view, modify, Table.modify, List.map_map]
  apply List.map_congr_left
  intro e _
  simp only [Function.comp]
  split
  · rw [h]
  · rfl

theorem keys_of_view {f : Object → β} {d e : Document} (h : d.view f = e.view f) :
    d.keys = e.keys := by
  have hm : (d.view f).map (·.1) = (e.view f).map (·.1) := by rw [h]
  simpa [view, keys, Table.keys, Function.comp_def] using hm

theorem values_of_view {f : Object → β} {d e : Document} (h : d.view f = e.view f) :
    d.toList.map f = e.toList.map f := by
  have hm : (d.view f).map (·.2) = (e.view f).map (·.2) := by rw [h]
  simpa [view, toList, Table.values, Function.comp_def] using hm

theorem object?_map (f : Object → β) (d : Document) (i : ObjectId) :
    (d.object? i).map f = (⟨d.view f⟩ : Table ObjectId β).find? i := by
  obtain ⟨⟨es⟩⟩ := d
  induction es with
  | nil => rfl
  | cons e es ih =>
    have hc : (⟨⟨e :: es⟩⟩ : Document).view f = (e.1, f e.2) :: (⟨⟨es⟩⟩ : Document).view f := rfl
    rw [hc, Table.find?_cons, ← ih]
    simp only [object?, Table.find?_cons]
    split <;> rfl

theorem object?_of_view {f : Object → β} {d e : Document} (h : d.view f = e.view f)
    (i : ObjectId) : (d.object? i).map f = (e.object? i).map f := by
  rw [object?_map, object?_map, h]

theorem exists_of_view {f : Object → β} {d e : Document} (h : e.view f = d.view f)
    {i : ObjectId} {x : Object} (hx : e.object? i = some x) :
    ∃ o, d.object? i = some o ∧ f o = f x := by
  have hm := object?_of_view h i
  rw [hx] at hm
  exact Option.map_eq_some_iff.mp hm.symm

section

variable {f : Object → β} {d e : Document} {i : ObjectId}

theorem view_updateAliases (hf : ∀ g o, f (o.mapAliases g) = f o) (d : Document) (r : ObjectId)
    (g : IdSet → IdSet) : (d.updateAliases r g).view f = d.view f :=
  view_modify (fun o => hf _ o) d r

theorem view_setName {name : Option String} (hs : ∀ n o, f (o.setName n) = f o)
    (hm : ∀ g o, f (o.mapNames g) = f o) (h : d.setName i name = .ok e) : e.view f = d.view f := by
  unfold setName at h
  split at h
  · cases h
  next o _ =>
    dsimp only at h
    split at h
    · cases h
      exact view_modify (hs _) d i
    next owner _ =>
      split at h
      · cases h
        rw [view_modify (hs _), view_modify (hm _)]
      · split at h
        · cases h
        · cases h
          rw [view_modify (hs _), view_modify (hm _)]

theorem view_setReference {reference : Option ObjectId} (hf : ∀ g o, f (o.mapAliases g) = f o)
    (hr : ∀ o, f (o.mapNode fun n => { n with reference := reference }) = f o)
    (h : d.setReference i reference = .ok e) : e.view f = d.view f := by
  unfold setReference at h
  split at h
  · cases h
  next o _ =>
    split at h
    · cases h
    next node _ =>
      simp only [bind, Except.bind] at h
      split at h
      · cases h
      · cases h
        split
        · rfl
        · rw [view_modify hr]
          unfold relink
          cases node.reference <;> cases reference <;> simp [view_updateAliases hf]

theorem view_setGeometry {position size : Point}
    (hf : ∀ o, f (o.mapNode fun n => { n with position := position, size := size }) = f o)
    (h : d.setGeometry i position size = .ok e) : e.view f = d.view f := by
  unfold setGeometry at h
  split at h
  · cases h
  split at h
  · cases h
  split at h
  · cases h
    exact view_modify hf d i
  · cases h

theorem view_of_frame {g : Frame → β} (hg : ∀ o, f o = g o.frame)
    (h : e.view Object.frame = d.view Object.frame) : e.view f = d.view f := by
  have hm : (e.view Object.frame).map (fun p => (p.1, g p.2)) =
      (d.view Object.frame).map (fun p => (p.1, g p.2)) := by rw [h]
  simpa [view, Function.comp_def, hg] using hm

/-- Every edit admits a net, admits an object, renames one, links one, or leaves all frames as they
are. -/
theorem view_frame_edit {change : Edit} (h : d.edit change = .ok e) :
    (∃ n, change = .addNet n ∧ d.addNet n = .ok e) ∨
      (∃ parent o, change = .add parent o ∧ d.add parent o = .ok e) ∨
      (∃ i name, change = .setName i name ∧ d.setName i name = .ok e) ∨
      (∃ i r, change = .setReference i r ∧ d.setReference i r = .ok e) ∨
      e.view Object.frame = d.view Object.frame := by
  cases change with
  | addNet n => exact .inl ⟨n, rfl, h⟩
  | add parent o => exact .inr (.inl ⟨parent, o, rfl, h⟩)
  | setName i name => exact .inr (.inr (.inl ⟨i, name, rfl, h⟩))
  | setReference i r => exact .inr (.inr (.inr (.inl ⟨i, r, rfl, h⟩)))
  | setGeometry i position size =>
    exact .inr (.inr (.inr (.inr (view_setGeometry (fun o => by cases o <;> rfl) h))))
  | setFormat i format =>
    cases h
    exact .inr (.inr (.inr (.inr (view_modify (fun o => by cases o <;> rfl) d i))))
  | setTokens i tokens =>
    cases h
    exact .inr (.inr (.inr (.inr (view_modify (fun o => by cases o <;> rfl) d i))))
  | setMarkingOffset i offset =>
    cases h
    exact .inr (.inr (.inr (.inr (view_modify (fun o => by cases o <;> rfl) d i))))
  | setArcKind i kind =>
    cases h
    exact .inr (.inr (.inr (.inr (view_modify (fun o => by cases o <;> rfl) d i))))
  | setCurve i curve =>
    cases h
    exact .inr (.inr (.inr (.inr (view_modify (fun o => by cases o <;> rfl) d i))))

end

end Document

end PagedNets
