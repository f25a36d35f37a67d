import PagedNets.Proofs.Document.Geometry
import PagedNets.Proofs.Pnml.Visits

/-!
What is asked of an element is asked of each of its attributes and texts for itself; in what order
they are looked at only decides which fault is named.
-/

set_option autoImplicit false

namespace PagedNets.Pnml

open Xml (Node)

def Gives {ε α : Type} (r : Except ε α) (P : α → Prop) : Prop := ∃ a, r = .ok a ∧ P a

section Gives

variable {ε α β : Type} {P : α → Prop} {Q : β → Prop} {a : α}

@[simp] theorem gives_ok : Gives (.ok a : Except ε α) P ↔ P a := by
  simp [Gives]

@[simp] theorem gives_error {cause : ε} : ¬ Gives (.error cause) P := by
  simp [Gives]

theorem gives_bind {r : Except ε α} {f : α → Except ε β} :
    Gives (r >>= f) Q ↔ Gives r fun a => Gives (f a) Q := by
  cases r with
  | error cause => simp [bind, Except.bind]
  | ok a => simp [bind, Except.bind]

theorem gives_map {r : Except ε α} {f : α → β} : Gives (r.map f) Q ↔ Gives r fun a => Q (f a) := by
  cases r with
  | error cause => simp [Except.map]
  | ok a => simp [Except.map]

theorem map_eq_ok {r : Except ε α} {f : α → β} {b : β} (h : r.map f = .ok b) :
    ∃ a, r = .ok a ∧ f a = b := by
  cases r with
  | error cause => cases h
  | ok a =>
    cases h
    exact ⟨a, rfl, rfl⟩

theorem gives_and {R : Prop} {r : Except ε α} :
    (Gives r fun a => P a ∧ R) ↔ Gives r P ∧ R := by
  constructor
  · rintro ⟨a, ha, hP, hR⟩
    exact ⟨⟨a, ha, hP⟩, hR⟩
  · rintro ⟨⟨a, ha, hP⟩, hR⟩
    exact ⟨a, ha, hP, hR⟩

theorem gives_both {r : Except ε α} {s : Except ε β} :
    (Gives r fun a => Gives s fun b => P a ∧ Q b) ↔ Gives r P ∧ Gives s Q := by
  constructor
  · rintro ⟨a, ha, b, hb, hP, hQ⟩
    exact ⟨⟨a, ha, hP⟩, b, hb, hQ⟩
  · rintro ⟨⟨a, ha, hP⟩, b, hb, hQ⟩
    exact ⟨a, ha, b, hb, hP, hQ⟩

end Gives

def IsCoordinate (n : Node) (axis : String) : Prop :=
  ∀ raw, n.attribute? axis = some raw →
    ∃ x, Decimal.float? (Text.trim raw) = some x ∧ x.isFinite = true

def IsPoint (n : Node) : Prop := IsCoordinate n "x" ∧ IsCoordinate n "y"

def nodePoints (n : Node) : List Node :=
  ((n.child? "graphics").bind (·.child? "position")).toList ++
    ((n.child? "graphics").bind (·.child? "dimension")).toList

def offsetPoint? (n : Node) : Option Node :=
  ((n.child? "initialMarking").bind (·.child? "graphics")).bind (·.child? "offset")

def bendPoints (n : Node) : List Node :=
  ((n.child? "graphics").map (·.childrenTagged "position")).getD []

def pointsOf (kind : Kind) (n : Node) : List Node :=
  match kind with
  | .place => nodePoints n ++ (offsetPoint? n).toList
  | .transition => nodePoints n
  | .arc => bendPoints n
  | _ => []

def markingText? (n : Node) : Option String :=
  ((n.child? "initialMarking").bind (·.child? "text")).bind (·.text?)

/-- What the element of an object must have. -/
structure IsReadable (kind : Kind) (n : Node) : Prop where
  id : ∃ s, n.attribute? "id" = some s
  format : kind = .net → ∃ raw f, n.attribute? "type" = some raw ∧ NetFormat.ofUri? raw = some f
  ends : kind = .arc → (∃ s, n.attribute? "source" = some s) ∧ ∃ t, n.attribute? "target" = some t
  referent : kind.isNode = true → isReference n = true → ∃ r, n.attribute? "ref" = some r
  marking : kind = .place → ∀ text, markingText? n = some text →
    ∃ tokens, Decimal.count? (Text.trim text) = some tokens
  points : ∀ p ∈ pointsOf kind n, IsPoint p

def withReferent (n : Node) (object : Except ReadError Object) : Except ReadError Object := do
  let o ← object
  if isReference n then
    let _ ← required n "ref"
    .ok o
  else .ok o

def objectOf (kind : Kind) (n : Node) : Except ReadError Object :=
  match kind with
  | .net => (netOf n).map .net
  | .page => (requiredId n "id").map fun id => .page { id := id, name := nameOf n }
  | .place => withReferent n ((placeOf n).map .place)
  | .transition => withReferent n ((transitionOf n).map .transition)
  | .arc => (arcOf n).map .arc

theorem nodeOf?_eq (n : Node) : nodeOf? n = (nodeKind? n).map (objectOf · n) := by
  unfold nodeOf? nodeKind?
  split
  · rfl
  · split <;> rfl

section Parts

variable {n : Node} {name : String}

theorem required_eq_ok_iff {value : String} :
    required n name = .ok value ↔ n.attribute? name = some value := by
  unfold required
  split
  · next h => simp [h]
  · next h => simp [h]

theorem requiredId_eq_ok_iff {i : ObjectId} :
    requiredId n name = .ok i ↔ n.attribute? name = some i.text := by
  rw [← required_eq_ok_iff, requiredId]
  cases required n name with
  | error fault => simp [Except.map]
  | ok value =>
    simp only [Except.map, Except.ok.injEq]
    constructor
    · rintro rfl
      rfl
    · rintro rfl
      rfl

theorem gives_required {P : String → Prop} :
    Gives (required n name) P ↔ ∃ value, n.attribute? name = some value ∧ P value := by
  simp only [Gives, required_eq_ok_iff]

theorem gives_requiredId {P : Prop} :
    (Gives (requiredId n name) fun _ => P) ↔ (∃ value, n.attribute? name = some value) ∧ P := by
  simp only [Gives, requiredId_eq_ok_iff]
  constructor
  · rintro ⟨i, hi, hP⟩
    exact ⟨⟨_, hi⟩, hP⟩
  · rintro ⟨⟨value, hvalue⟩, hP⟩
    exact ⟨⟨value⟩, hvalue, hP⟩

theorem idOf_of_requiredId {i : ObjectId} (h : requiredId n "id" = .ok i) : i = idOf n := by
  rw [idOf, requiredId_eq_ok_iff.mp h]
  rfl

theorem gives_coordinate :
    Gives (coordinate n name) (fun x => x.isFinite = true) ↔ IsCoordinate n name := by
  unfold coordinate IsCoordinate
  cases h : n.attribute? name with
  | none =>
    simp only [gives_ok, reduceCtorEq, false_implies, implies_true, iff_true]
    decide
  | some raw =>
    simp only [Option.some.injEq, forall_eq']
    cases hx : Decimal.float? (Text.trim raw) with
    | none => simp
    | some x => simp

theorem gives_pointOf : Gives (pointOf n) (fun p => p.isFinite = true) ↔ IsPoint n := by
  simp only [pointOf, gives_bind, gives_ok, Point.isFinite, Bool.and_eq_true]
  rw [gives_both, gives_coordinate, gives_coordinate, IsPoint]

theorem gives_pointOrOrigin {point? : Option Node} :
    Gives (pointOrOrigin point?) (fun p => p.isFinite = true) ↔ ∀ p ∈ point?.toList, IsPoint p := by
  cases point? with
  | none =>
    simp only [pointOrOrigin, gives_ok, Option.toList_none, List.not_mem_nil, false_implies,
      implies_true, iff_true]
    decide
  | some p => simp [pointOrOrigin, gives_pointOf]

theorem gives_nodeDataOf :
    Gives (nodeDataOf n) (fun data => data.isFinite = true) ↔ ∀ p ∈ nodePoints n, IsPoint p := by
  simp only [nodeDataOf, gives_bind, gives_ok, NodeData.isFinite, Bool.and_eq_true]
  rw [gives_both, gives_pointOrOrigin, gives_pointOrOrigin, nodePoints, List.forall_mem_append]

theorem gives_tokensOf (id : ObjectId) {marking : Node} {P : Prop} :
    (Gives (tokensOf id marking) fun _ => P) ↔
      (∀ text, (marking.child? "text").bind (·.text?) = some text →
        ∃ tokens, Decimal.count? (Text.trim text) = some tokens) ∧ P := by
  unfold tokensOf
  cases h : (marking.child? "text").bind (·.text?) with
  | none => simp
  | some text =>
    simp only [Option.some.injEq, forall_eq']
    cases hk : Decimal.count? (Text.trim text) with
    | none => simp
    | some tokens => simp

theorem gives_mapM_pointOf {points : List Node} :
    Gives (points.mapM pointOf) (fun curve => curve.all Point.isFinite = true) ↔
      ∀ p ∈ points, IsPoint p := by
  induction points with
  | nil => simp [pure, Except.pure]
  | cons p points ih =>
    simp only [List.mapM_cons, gives_bind, pure, Except.pure, gives_ok, List.all_cons,
      Bool.and_eq_true]
    rw [gives_both, gives_pointOf, ih, List.forall_mem_cons]

end Parts

section Objects

variable {n : Node}

theorem gives_netOf : Gives (netOf n) (fun _ => True) ↔ (∃ s, n.attribute? "id" = some s) ∧
    ∃ raw f, n.attribute? "type" = some raw ∧ NetFormat.ofUri? raw = some f := by
  simp only [netOf, gives_bind]
  constructor
  · rintro ⟨i, hi, raw, hraw, hf⟩
    refine ⟨⟨_, requiredId_eq_ok_iff.mp hi⟩, raw, ?_⟩
    cases h : NetFormat.ofUri? raw with
    | none => simp [h] at hf
    | some f => exact ⟨f, required_eq_ok_iff.mp hraw, rfl⟩
  · rintro ⟨⟨s, hs⟩, raw, f, hraw, hf⟩
    refine ⟨⟨s⟩, requiredId_eq_ok_iff.mpr hs, raw, required_eq_ok_iff.mpr hraw, ?_⟩
    simp [hf]

theorem gives_placeOf : Gives (placeOf n) (fun p => (Object.place p).IsFinite) ↔
    (∃ s, n.attribute? "id" = some s) ∧
      (∀ text, markingText? n = some text →
        ∃ tokens, Decimal.count? (Text.trim text) = some tokens) ∧
      ∀ p ∈ nodePoints n ++ (offsetPoint? n).toList, IsPoint p := by
  have hzero : ({} : Point).isFinite = true := by decide
  rw [List.forall_mem_append, ← gives_nodeDataOf, ← gives_pointOrOrigin]
  unfold placeOf markingText? offsetPoint?
  simp only [gives_bind]
  cases n.child? "initialMarking" with
  | none =>
    simp only [gives_ok, Object.IsFinite, hzero, and_true, gives_requiredId, Option.bind_none,
      reduceCtorEq, false_implies, implies_true, true_and, pointOrOrigin]
  | some marking =>
    simp only [gives_bind, gives_ok, Object.IsFinite, Option.bind_some]
    constructor
    · rintro ⟨i, hi, data, hdata, k, hk, offset, hoffset, hfinite, hfar⟩
      refine ⟨⟨_, requiredId_eq_ok_iff.mp hi⟩, ?_, ⟨data, hdata, hfinite⟩, offset, hoffset, hfar⟩
      exact ((gives_tokensOf i).mp ⟨k, hk, trivial⟩).1
    · rintro ⟨⟨s, hs⟩, htokens, ⟨data, hdata, hfinite⟩, offset, hoffset, hfar⟩
      obtain ⟨k, hk, -⟩ := (gives_tokensOf ⟨s⟩).mpr ⟨htokens, trivial⟩
      exact ⟨⟨s⟩, requiredId_eq_ok_iff.mpr hs, data, hdata, k, hk, offset, hoffset, hfinite, hfar⟩

theorem gives_transitionOf : Gives (transitionOf n) (fun t => (Object.transition t).IsFinite) ↔
    (∃ s, n.attribute? "id" = some s) ∧ ∀ p ∈ nodePoints n, IsPoint p := by
  simp only [transitionOf, gives_bind, gives_ok, Object.IsFinite, gives_requiredId,
    gives_nodeDataOf]

theorem gives_arcOf : Gives (arcOf n) (fun a => (Object.arc a).IsFinite) ↔
    (∃ s, n.attribute? "id" = some s) ∧
      ((∃ s, n.attribute? "source" = some s) ∧ ∃ t, n.attribute? "target" = some t) ∧
      ∀ p ∈ bendPoints n, IsPoint p := by
  simp only [arcOf, gives_bind, gives_ok, Object.IsFinite, gives_requiredId, gives_mapM_pointOf,
    and_assoc, bendPoints]
  cases n.child? "graphics" <;> rfl

theorem gives_withReferent {object : Except ReadError Object} {P : Object → Prop} :
    Gives (withReferent n object) P ↔
      Gives object P ∧ (isReference n = true → ∃ r, n.attribute? "ref" = some r) := by
  rw [withReferent, gives_bind]
  by_cases h : isReference n = true
  · simp only [h, if_true, gives_bind, gives_required, gives_ok, true_implies]
    rw [← gives_and]
    refine iff_of_eq (congrArg _ (funext fun o => propext ?_))
    exact ⟨fun ⟨r, hr, ho⟩ => ⟨ho, r, hr⟩, fun ⟨ho, r, hr⟩ => ⟨r, hr, ho⟩⟩
  · simp [h]

/-- An element describes an object with finite coordinates if each of its parts can be read. -/
theorem gives_objectOf_iff {kind : Kind} :
    Gives (objectOf kind n) Object.IsFinite ↔ IsReadable kind n := by
  cases kind with
  | net =>
    rw [objectOf, gives_map]
    simp only [Object.IsFinite, gives_netOf]
    constructor
    · rintro ⟨hid, hformat⟩
      exact ⟨hid, fun _ => hformat, by simp, by simp [Kind.isNode], by simp, by simp [pointsOf]⟩
    · exact fun h => ⟨h.id, h.format rfl⟩
  | page =>
    rw [objectOf, gives_map]
    simp only [Object.IsFinite, gives_requiredId, and_true]
    constructor
    · exact fun hid =>
        ⟨hid, by simp, by simp, by simp [Kind.isNode], by simp, by simp [pointsOf]⟩
    · exact fun h => h.id
  | place =>
    rw [objectOf, gives_withReferent, gives_map, gives_placeOf]
    constructor
    · rintro ⟨⟨hid, htext, hpoints⟩, hr⟩
      exact ⟨hid, by simp, by simp, fun _ => hr, fun _ => htext, hpoints⟩
    · exact fun h => ⟨⟨h.id, h.marking rfl, h.points⟩, h.referent rfl⟩
  | transition =>
    rw [objectOf, gives_withReferent, gives_map, gives_transitionOf]
    constructor
    · rintro ⟨⟨hid, hpoints⟩, hr⟩
      exact ⟨hid, by simp, by simp, fun _ => hr, by simp, hpoints⟩
    · exact fun h => ⟨⟨h.id, h.points⟩, h.referent rfl⟩
  | arc =>
    rw [objectOf, gives_map, gives_arcOf]
    constructor
    · rintro ⟨hid, hends, hpoints⟩
      exact ⟨hid, by simp, fun _ => hends, by simp [Kind.isNode], by simp, hpoints⟩
    · exact fun h => ⟨h.id, h.ends rfl, h.points⟩

end Objects

structure Describes (v : Visit) (o : Object) : Prop where
  id : o.id = v.id
  kind : o.kind = v.kind
  ends : o.ends = v.ends
  name : o.scopedName = v.name
  reference : o.reference? = none
  bare : o.IsBare

section Describes

variable {n : Node} {v : Visit} {o : Object}

theorem reference_of_nodeDataOf {data : NodeData} (h : nodeDataOf n = .ok data) :
    data.reference = none := by
  simp only [nodeDataOf, bind_eq_ok] at h
  obtain ⟨position, -, size, -, h⟩ := h
  cases h
  rfl

theorem spec_placeOf {p : Place} (h : placeOf n = .ok p) :
    p.id = idOf n ∧ p.name = nameOf n ∧ p.node.reference = none := by
  simp only [placeOf, bind_eq_ok] at h
  obtain ⟨i, hi, data, hdata, h⟩ := h
  have hid := idOf_of_requiredId hi
  have hreference := reference_of_nodeDataOf hdata
  split at h
  · cases h
    exact ⟨hid, rfl, hreference⟩
  · simp only [bind_eq_ok] at h
    obtain ⟨tokens, -, offset, -, h⟩ := h
    cases h
    exact ⟨hid, rfl, hreference⟩

theorem spec_transitionOf {t : Transition} (h : transitionOf n = .ok t) :
    t.id = idOf n ∧ t.name = nameOf n ∧ t.node.reference = none := by
  simp only [transitionOf, bind_eq_ok] at h
  obtain ⟨i, hi, data, hdata, h⟩ := h
  cases h
  exact ⟨idOf_of_requiredId hi, rfl, reference_of_nodeDataOf hdata⟩

theorem spec_arcOf {a : Arc} (h : arcOf n = .ok a) : a.id = idOf n ∧ a.name = nameOf n ∧
    n.attribute? "source" = some a.source.text ∧ n.attribute? "target" = some a.target.text := by
  simp only [arcOf, bind_eq_ok] at h
  obtain ⟨i, hi, s, hs, t, ht, curve, -, h⟩ := h
  cases h
  exact ⟨idOf_of_requiredId hi, rfl, requiredId_eq_ok_iff.mp hs, requiredId_eq_ok_iff.mp ht⟩

theorem spec_netOf {net : Net} (h : netOf n = .ok net) :
    net.id = idOf n ∧ net.name = nameOf n ∧ net.IsBare := by
  have hbare := isBare_of_netOf h
  simp only [netOf, bind_eq_ok] at h
  obtain ⟨i, hi, raw, -, h⟩ := h
  split at h
  · cases h
  · cases h
    exact ⟨idOf_of_requiredId hi, rfl, hbare⟩

theorem eq_ok_of_withReferent {object : Except ReadError Object}
    (h : withReferent n object = .ok o) : object = .ok o := by
  obtain ⟨x, hx, hox⟩ := ((gives_withReferent (P := (o = ·))).mp ⟨o, h, rfl⟩).1
  rw [hx, hox]

theorem describes_of_objectOf (h : objectOf v.kind v.element = .ok o) : Describes v o := by
  cases hk : v.kind with
  | net =>
    rw [hk, objectOf] at h
    obtain ⟨net, hnet, rfl⟩ := map_eq_ok h
    obtain ⟨hid, hname, hbare⟩ := spec_netOf hnet
    exact ⟨hid, hk.symm, by simp [Visit.ends, hk, Object.ends],
      by rw [Visit.name, ← hname]; rfl, rfl, hbare⟩
  | page =>
    rw [hk, objectOf] at h
    obtain ⟨i, hi, rfl⟩ := map_eq_ok h
    exact ⟨idOf_of_requiredId hi, hk.symm, by simp [Visit.ends, hk, Object.ends], rfl, rfl,
      ⟨rfl, rfl, rfl, rfl, rfl⟩⟩
  | place =>
    rw [hk, objectOf] at h
    obtain ⟨p, hp, rfl⟩ := map_eq_ok (eq_ok_of_withReferent h)
    obtain ⟨hid, hname, hreference⟩ := spec_placeOf hp
    exact ⟨hid, hk.symm, by simp [Visit.ends, hk, Object.ends],
      by rw [Visit.name, ← hname]; rfl, hreference, trivial⟩
  | transition =>
    rw [hk, objectOf] at h
    obtain ⟨t, ht, rfl⟩ := map_eq_ok (eq_ok_of_withReferent h)
    obtain ⟨hid, hname, hreference⟩ := spec_transitionOf ht
    exact ⟨hid, hk.symm, by simp [Visit.ends, hk, Object.ends],
      by rw [Visit.name, ← hname]; rfl, hreference, trivial⟩
  | arc =>
    rw [hk, objectOf] at h
    obtain ⟨a, ha, rfl⟩ := map_eq_ok h
    obtain ⟨hid, hname, hsource, htarget⟩ := spec_arcOf ha
    refine ⟨hid, hk.symm, ?_, by rw [Visit.name, ← hname]; rfl, rfl, trivial⟩
    simp [Visit.ends, hk, Object.ends, hsource, htarget]

end Describes

end PagedNets.Pnml
