import PagedNets.Proofs.Document.Adjacency
import PagedNets.Proofs.Document.Geometry
import PagedNets.Proofs.Document.Linking
import PagedNets.Proofs.Document.Naming

set_option autoImplicit false

namespace PagedNets

/-- What an object is to the others: its label and the name that it is known by. -/
structure Plate extends Label where
  name : Option String

def Object.plate (o : Object) : Plate := { toLabel := o.label, name := o.scopedName }

namespace Plate

def Stands (ps : List Plate) (w : Owner) (i : ObjectId) : Prop :=
  ∃ p ∈ ps, p.id = i ∧ p.kind.isNode = true ∧ p.owner = some w

def Housed (ps : List Plate) (q : Plate) : Prop :=
  q.kind = .net ∧ q.owner = none ∨
    ∃ w, q.owner = some w ∧ (∃ p ∈ ps, p.asOwner? = some w) ∧ q.kind ≠ .net ∧
      ∀ c, w = .net c → q.kind = .page

structure Fits (ps : List Plate) (q : Plate) : Prop where
  nonempty : q.id.isEmpty = false
  fresh : ∀ p ∈ ps, p.id ≠ q.id
  named : ∀ p ∈ ps, ∀ w, p.owner = some w → q.owner = some w →
    ∀ n, p.name = some n → q.name ≠ some n
  single : ∀ p ∈ ps, ∀ w, p.owner = some w → q.owner = some w →
    ∀ x, p.ends = some x → q.ends ≠ some x
  joined : ∀ w, q.owner = some w → ∀ x, q.ends = some x → Stands ps w x.1 ∧ Stands ps w x.2

theorem fits_iff {ps : List Plate} {q : Plate} {w : Owner} (hw : q.owner = some w) :
    Fits ps q ↔ q.id.isEmpty = false ∧ (∀ p ∈ ps, p.id ≠ q.id) ∧
      (∀ p ∈ ps, p.owner = some w → ∀ n, p.name = some n → q.name ≠ some n) ∧
      ∀ x, q.ends = some x → Stands ps w x.1 ∧ Stands ps w x.2 ∧
        ∀ p ∈ ps, p.owner = some w → p.ends ≠ some x := by
  constructor
  · intro h
    refine ⟨h.nonempty, h.fresh, fun p hp hpw => h.named p hp w hpw hw, fun x hx => ?_⟩
    obtain ⟨hs, ht⟩ := h.joined w hw x hx
    exact ⟨hs, ht, fun p hp hpw hpx => h.single p hp w hpw hw x hpx hx⟩
  · rintro ⟨hne, hfresh, hname, hjoin⟩
    refine ⟨hne, hfresh, fun p hp v hpv hv => ?_, fun p hp v hpv hv x hpx hx => ?_,
      fun v hv x hx => ?_⟩
    · rw [hw] at hv
      cases hv
      exact hname p hp hpv
    · rw [hw] at hv
      cases hv
      exact (hjoin x hx).2.2 p hp hpv hpx
    · rw [hw] at hv
      cases hv
      exact ⟨(hjoin x hx).1, (hjoin x hx).2.1⟩

/-- A relation holds of each of the plates and those in front of it. -/
def Along (R : List Plate → Plate → Prop) : List Plate → List Plate → Prop
  | _, [] => True
  | ps, q :: qs => R ps q ∧ Along R (ps ++ [q]) qs

section Along

variable {R T : List Plate → Plate → Prop} {ps qs rs : List Plate}

theorem along_append : Along R ps (qs ++ rs) ↔ Along R ps qs ∧ Along R (ps ++ qs) rs := by
  induction qs generalizing ps with
  | nil => simp [Along]
  | cons q qs ih => simp [Along, ih, and_assoc]

theorem along_and : Along (fun ps q => R ps q ∧ T ps q) ps qs ↔ Along R ps qs ∧ Along T ps qs := by
  induction qs generalizing ps with
  | nil => simp [Along]
  | cons q qs ih =>
    simp only [Along, ih]
    tauto

theorem Along.mono (h : Along R ps qs) (hRT : ∀ ps q, R ps q → T ps q) : Along T ps qs := by
  induction qs generalizing ps with
  | nil => trivial
  | cons q qs ih => exact ⟨hRT ps q h.1, ih h.2⟩

theorem Along.exists_of_mem (h : Along R ps qs) {q : Plate} (hq : q ∈ qs) : ∃ rs, R rs q := by
  induction qs generalizing ps with
  | nil => cases hq
  | cons p qs ih =>
    rcases List.mem_cons.mp hq with rfl | hq
    · exact ⟨ps, h.1⟩
    · exact ih h.2 hq

theorem along_const {P : Plate → Prop} : Along (fun _ q => P q) ps qs ↔ ∀ q ∈ qs, P q := by
  induction qs generalizing ps with
  | nil => simp [Along]
  | cons q qs ih => simp [Along, ih]

theorem along_forall {S : Plate → Plate → Prop} : Along (fun ps q => ∀ p ∈ ps, S p q) ps qs ↔
    (∀ p ∈ ps, ∀ q ∈ qs, S p q) ∧ qs.Pairwise S := by
  induction qs generalizing ps with
  | nil => simp [Along]
  | cons q qs ih =>
    rw [Along, ih, List.pairwise_cons]
    constructor
    · rintro ⟨hq, hqs, hpairs⟩
      refine ⟨fun p hp => List.forall_mem_cons.mpr ⟨hq p hp, ?_⟩, ?_, hpairs⟩
      · exact hqs p (List.mem_append_left _ hp)
      · exact hqs q (List.mem_append_right _ (List.mem_singleton_self q))
    · rintro ⟨hall, hq, hpairs⟩
      refine ⟨fun p hp => hall p hp q List.mem_cons_self, fun p hp => ?_, hpairs⟩
      rcases List.mem_append.mp hp with hp | hp
      · exact fun r hr => hall p hp r (List.mem_cons_of_mem _ hr)
      · rw [List.mem_singleton.mp hp]
        exact hq

end Along

/-- An arc is not in front of a node of its page, and only arcs have ends. -/
def NodesFirst (qs : List Plate) : Prop :=
  (qs.Pairwise fun p q => ∀ w, p.owner = some w → q.owner = some w →
    p.kind = .arc → q.kind.isNode = false) ∧ ∀ q ∈ qs, q.ends ≠ none → q.kind = .arc

structure Coherent (qs : List Plate) : Prop where
  nonempty : ∀ q ∈ qs, q.id.isEmpty = false
  distinct : (qs.map (·.id)).Nodup
  named : qs.Pairwise fun p q => ∀ w, p.owner = some w → q.owner = some w →
    ∀ n, p.name = some n → q.name ≠ some n
  single : qs.Pairwise fun p q => ∀ w, p.owner = some w → q.owner = some w →
    ∀ x, p.ends = some x → q.ends ≠ some x
  joined : ∀ q ∈ qs, ∀ w, q.owner = some w → ∀ x, q.ends = some x →
    Stands qs w x.1 ∧ Stands qs w x.2

theorem Stands.mono {ps qs : List Plate} {w : Owner} {i : ObjectId} (h : Stands ps w i)
    (hpq : ps ⊆ qs) : Stands qs w i := by
  obtain ⟨p, hp, hall⟩ := h
  exact ⟨p, hpq hp, hall⟩

theorem Stands.before {ps qs : List Plate} {q : Plate} {w : Owner} {i : ObjectId}
    (h : Stands (ps ++ q :: qs) w i) (hq : q.kind = .arc) (hw : q.owner = some w)
    (hfirst : NodesFirst (q :: qs)) : Stands ps w i := by
  obtain ⟨p, hp, hid, hk, hpw⟩ := h
  rcases List.mem_append.mp hp with hp | hp
  · exact ⟨p, hp, hid, hk, hpw⟩
  rcases List.mem_cons.mp hp with rfl | hp
  · rw [hq] at hk
    cases hk
  · rw [(List.pairwise_cons.mp hfirst.1).1 p hp w hw hpw hq] at hk
    cases hk

theorem along_joined_iff {ps qs : List Plate} (hfirst : NodesFirst qs) :
    Along (fun ps q => ∀ w, q.owner = some w → ∀ x, q.ends = some x →
      Stands ps w x.1 ∧ Stands ps w x.2) ps qs ↔
    ∀ q ∈ qs, ∀ w, q.owner = some w → ∀ x, q.ends = some x →
      Stands (ps ++ qs) w x.1 ∧ Stands (ps ++ qs) w x.2 := by
  induction qs generalizing ps with
  | nil => simp [Along]
  | cons q qs ih =>
    have hrest : NodesFirst qs :=
      ⟨(List.pairwise_cons.mp hfirst.1).2, fun p hp => hfirst.2 p (List.mem_cons_of_mem _ hp)⟩
    have hsplit : ps ++ q :: qs = ps ++ [q] ++ qs := by simp
    simp only [Along, ih hrest, List.mem_cons, forall_eq_or_imp, hsplit]
    refine and_congr_left fun _ => ?_
    rw [← hsplit]
    refine forall_congr' fun w => forall_congr' fun hw => forall_congr' fun x =>
      forall_congr' fun hx => ?_
    have harc : q.kind = .arc := hfirst.2 q List.mem_cons_self (by rw [hx]; simp)
    constructor
    · rintro ⟨hs, ht⟩
      exact ⟨hs.mono (List.subset_append_left _ _), ht.mono (List.subset_append_left _ _)⟩
    · rintro ⟨hs, ht⟩
      exact ⟨hs.before harc hw hfirst, ht.before harc hw hfirst⟩

/-- One after the other they fit in if they get along at all. -/
theorem along_fits_iff {qs : List Plate} (h : (qs.map (·.id)).Nodup → NodesFirst qs) :
    Along Fits [] qs ↔ Coherent qs := by
  constructor
  · intro hfits
    have hnonempty := along_const.mp (hfits.mono fun _ _ => Fits.nonempty)
    have hfresh := along_forall.mp (hfits.mono fun _ _ => Fits.fresh)
    have hnamed := along_forall.mp (hfits.mono fun _ _ => Fits.named)
    have hsingle := along_forall.mp (hfits.mono fun _ _ => Fits.single)
    have hdistinct : (qs.map (·.id)).Nodup := List.pairwise_map.mpr hfresh.2
    have hjoined := (along_joined_iff (h hdistinct)).mp (hfits.mono fun _ _ => Fits.joined)
    exact ⟨hnonempty, hdistinct, hnamed.2, hsingle.2, hjoined⟩
  · intro hc
    have hnonempty : Along (fun _ q => q.id.isEmpty = false) [] qs := along_const.mpr hc.nonempty
    have hfresh : Along (fun ps q => ∀ p ∈ ps, p.id ≠ q.id) [] qs :=
      along_forall.mpr ⟨by simp, List.pairwise_map.mp hc.distinct⟩
    have hnamed := along_forall.mpr ⟨fun p (hp : p ∈ []) => absurd hp List.not_mem_nil, hc.named⟩
    have hsingle := along_forall.mpr ⟨fun p (hp : p ∈ []) => absurd hp List.not_mem_nil, hc.single⟩
    have hjoined : Along (fun ps q => ∀ w, q.owner = some w → ∀ x, q.ends = some x →
        Stands ps w x.1 ∧ Stands ps w x.2) [] qs :=
      (along_joined_iff (h hc.distinct)).mpr hc.joined
    have hall := along_and.mpr ⟨hnonempty, along_and.mpr ⟨hfresh, along_and.mpr ⟨hnamed,
      along_and.mpr ⟨hsingle, hjoined⟩⟩⟩⟩
    exact hall.mono fun ps q ⟨hn, hf, hname, hone, hends⟩ => ⟨hn, hf, hname, hone, hends⟩

theorem Housed.mono {ps qs : List Plate} {q : Plate} (h : Housed ps q) (hpq : ps ⊆ qs) :
    Housed qs q := by
  refine h.imp_right fun ⟨w, hw, ⟨p, hp, hpw⟩, hkind⟩ => ?_
  exact ⟨w, hw, ⟨p, hpq hp, hpw⟩, hkind⟩

theorem along_housed {ps qs : List Plate} (h : ∀ q ∈ qs, Housed ps q) : Along Housed ps qs := by
  induction qs generalizing ps with
  | nil => trivial
  | cons q qs ih =>
    refine ⟨h q List.mem_cons_self, ih fun r hr => ?_⟩
    exact (h r (List.mem_cons_of_mem _ hr)).mono (List.subset_append_left _ _)

end Plate

namespace Document

open Plate (Fits Housed Stands)

def plates (d : Document) : List Plate := d.toList.map Object.plate

variable {d e : Document} {i : ObjectId} {w : Owner}

theorem plates_of_view (h : e.view Object.plate = d.view Object.plate) : e.plates = d.plates :=
  values_of_view h

theorem plates_append (o : Object) : (d.append o).plates = d.plates ++ [o.plate] := by
  simp [plates, toList, Table.values, append]

theorem plates_enter (parent : ObjectId) (child : Object) :
    (d.enter parent child).plates = d.plates ++ [child.plate] := by
  rw [← plates_append]
  apply plates_of_view
  rw [view_enter fun g o => by cases o <;> rfl, view_modify]
  intro o
  rw [Object.plate, Object.plate, Object.label_adopt, Object.scopedName_adopt]

theorem labels_eq_plates (d : Document) : d.labels = d.plates.map Plate.toLabel := by
  simp [labels, plates, Function.comp_def, Object.plate]

theorem plate_mem_of_object? {o : Object} (h : d.object? i = some o) : o.plate ∈ d.plates := by
  have hm := Table.mem_entries_of_find? h
  exact List.mem_map_of_mem (List.mem_map_of_mem (f := (·.2)) hm)

namespace Registered

variable (h : d.Registered)
include h

theorem object?_of_mem_plates {p : Plate} (hp : p ∈ d.plates) :
    ∃ o, d.object? p.id = some o ∧ o.plate = p := by
  obtain ⟨o, ho, rfl⟩ := List.mem_map.mp hp
  exact ⟨o, h.mem_toList.mp ho, rfl⟩

theorem object?_eq_none_iff : d.object? i = none ↔ ∀ p ∈ d.plates, p.id ≠ i := by
  constructor
  · rintro hnone p hp rfl
    obtain ⟨o, ho, _⟩ := h.object?_of_mem_plates hp
    rw [hnone] at ho
    cases ho
  · intro hall
    cases ho : d.object? i with
    | none => rfl
    | some o => exact absurd (h.id_of_object? ho) (hall _ (plate_mem_of_object? ho))

theorem exists_calls_iff {n : String} :
    (∃ j, d.Calls w n j) ↔ ∃ p ∈ d.plates, p.owner = some w ∧ p.name = some n := by
  constructor
  · rintro ⟨j, o, ho, how, hon⟩
    exact ⟨o.plate, plate_mem_of_object? ho, how, hon⟩
  · rintro ⟨p, hp, hpw, hpn⟩
    obtain ⟨o, ho, rfl⟩ := h.object?_of_mem_plates hp
    exact ⟨_, o, ho, hpw, hpn⟩

theorem stands_iff : Stands d.plates w i ↔
    ∃ o, d.object? i = some o ∧ o.kind.isNode = true ∧ o.owner = some w := by
  constructor
  · rintro ⟨p, hp, rfl, hk, hpw⟩
    obtain ⟨o, ho, rfl⟩ := h.object?_of_mem_plates hp
    exact ⟨o, ho, hk, hpw⟩
  · rintro ⟨o, ho, hk, how⟩
    exact ⟨o.plate, plate_mem_of_object? ho, h.id_of_object? ho, hk, how⟩

theorem addNet_iff {n : Net} : (∃ e, d.addNet n = .ok e) ↔ Fits d.plates (Object.net n).plate := by
  simp only [addNet_eq_ok_iff, h.object?_eq_none_iff]
  constructor
  · rintro ⟨_, hne, hfresh, _⟩
    exact ⟨hne, hfresh, fun _ _ w _ hw => (by cases hw), fun _ _ w _ hw => (by cases hw),
      fun w hw => (by cases hw)⟩
  · exact fun hf => ⟨_, hf.nonempty, hf.fresh, rfl⟩

end Registered

section

variable (hd : d.Reachable Edit.IsPlain)
include hd

theorem Reachable.checkName_iff {c : Object} (hc : d.object? w.id = some c)
    (hcw : c.asOwner? = some w) {names : Table String ObjectId} (hnames : c.names? = some names)
    (scope : ObjectId) (o : Object) : checkName scope names o = .ok () ↔
      ∀ p ∈ d.plates, p.owner = some w → ∀ n, p.name = some n → o.scopedName ≠ some n := by
  have hfree : ∀ n, names.find? n = none ↔
      ¬ ∃ p ∈ d.plates, p.owner = some w ∧ p.name = some n := by
    intro n
    rw [← hd.registered.exists_calls_iff, Option.eq_none_iff_forall_ne_some, not_exists]
    refine forall_congr' fun j => ?_
    rw [Ne, hd.named w.id c w names hc hcw hnames]
  rw [checkName_eq_ok_iff]
  simp only [hfree]
  constructor
  · exact fun hall p hp hpw n hpn hon => hall n hon ⟨p, hp, hpw, hpn⟩
  · rintro hall n hon ⟨p, hp, hpw, hpn⟩
    exact hall p hp hpw n hpn hon

theorem Reachable.vertex_iff {p : Page} (hp : d.page? w.id = some p) (hw : w = .page w.id) :
    (∃ v, (∃ n, d.node? i = some n) ∧ p.vertex? i = some v) ↔ Stands d.plates w i := by
  have hc := contained_of_tabled hd.registered hd.tabled
  have hv : (∃ v, p.vertex? i = some v) ↔
      ∃ o, d.object? i = some o ∧ o.kind.isNode = true ∧ o.owner = some (.page w.id) := by
    rw [← (hc.nodes w.id p hp).2 i, Table.mem_keys_iff]
    rfl
  rw [hd.registered.stands_iff, hw]
  constructor
  · rintro ⟨v, -, hpv⟩
    exact hv.mp ⟨v, hpv⟩
  · rintro ⟨o, ho, hk, how⟩
    obtain ⟨v, hpv⟩ := hv.mpr ⟨o, ho, hk, how⟩
    refine ⟨v, ?_, hpv⟩
    rw [node?, ho]
    exact Option.isSome_iff_exists.mp ((o.isSome_node?_iff).trans hk)

theorem Reachable.checkArc_iff {p : Page} (hp : d.page? w.id = some p) (hw : w = .page w.id)
    {a : Arc} : d.checkArc p a = .ok () ↔ a.curve.all Point.isFinite = true ∧
      Stands d.plates w a.source ∧ Stands d.plates w a.target ∧
      ∀ q ∈ d.plates, q.owner = some w → q.ends ≠ some (a.source, a.target) := by
  have hsingle : p.arcBetween? a.source a.target = none ↔
      ∀ q ∈ d.plates, q.owner = some w → q.ends ≠ some (a.source, a.target) := by
    rw [Option.eq_none_iff_forall_ne_some]
    simp only [Ne, hd.arcBetween?_iff hp]
    constructor
    · intro hnone q hq hqw hends
      obtain ⟨o, ho, rfl⟩ := hd.registered.object?_of_mem_plates hq
      cases o with
      | arc b =>
        obtain ⟨hs, ht⟩ := Prod.mk.inj (Option.some.inj hends)
        exact hnone b.id ⟨b, arc?_eq_some_iff.mpr ho, hw ▸ hqw, hs, ht⟩
      | _ => cases hends
    · rintro hall i ⟨b, hb, hbw, hs, ht⟩
      refine hall _ (plate_mem_of_object? (arc?_eq_some_iff.mp hb)) (hw ▸ hbw) ?_
      exact congrArg some (Prod.ext hs ht)
  rw [checkArc_eq_ok_iff, ← hd.vertex_iff hp hw, ← hd.vertex_iff hp hw, ← hsingle]
  refine and_congr_right fun _ => ?_
  constructor
  · rintro ⟨v, t, hs, ht, hfind⟩
    obtain ⟨hsn, hsv⟩ := endpoint_eq_ok_iff.mp hs
    obtain ⟨htn, htv⟩ := endpoint_eq_ok_iff.mp ht
    refine ⟨⟨v, hsn, hsv⟩, ⟨t, htn, htv⟩, ?_⟩
    simp only [Page.arcBetween?, bind, hsv, htv, Option.bind_some, hfind, Option.map_none]
  · rintro ⟨⟨v, hsn, hsv⟩, ⟨t, htn, htv⟩, hbetween⟩
    simp only [Page.arcBetween?, bind, hsv, htv, Option.bind_some, Option.map_eq_none_iff]
      at hbetween
    exact ⟨v, t, endpoint_eq_ok_iff.mpr ⟨hsn, hsv⟩, endpoint_eq_ok_iff.mpr ⟨htn, htv⟩, hbetween⟩

/-- The rules for an object of its own kind, where its reference is still to be made. -/
theorem Reachable.checkContent_iff {c o : Object} (hc : d.object? w.id = some c)
    (hcw : c.asOwner? = some w) (hkind : ∀ n, w = .net n → o.kind = .page)
    (hr : o.reference? = none) : d.checkContent c o = .ok () ↔ o.IsFinite ∧
      ∀ x, o.ends = some x → Stands d.plates w x.1 ∧ Stands d.plates w x.2 ∧
        ∀ q ∈ d.plates, q.owner = some w → q.ends ≠ some x := by
  cases o with
  | net n => simp [checkContent, Object.IsFinite, Object.ends]
  | page p => simp [checkContent, Object.IsFinite, Object.ends]
  | place p =>
    have hnone : p.node.reference = none := hr
    simp [checkContent, Object.IsFinite, Object.ends, checkPlace_eq_ok_iff, checkNode_eq_ok_iff,
      hnone]
  | transition t =>
    have hnone : t.node.reference = none := hr
    simp [checkContent, Object.IsFinite, Object.ends, checkNode_eq_ok_iff, hnone]
  | arc a =>
    rcases (hd.registered.asOwner?_eq_some_iff hc).mp hcw with ⟨_, hw⟩ | ⟨hk, hw⟩
    · cases hkind _ hw
    · obtain ⟨p, rfl⟩ := Object.eq_page_of_kind hk
      have harc := hd.checkArc_iff (page?_eq_some_iff.mpr hc) hw (a := a)
      simp only [checkContent, harc, Object.IsFinite, Object.ends, Option.some.injEq, forall_eq']

end

theorem exists_add_iff {o c : Object} (hc : d.object? w.id = some c) (hcw : c.asOwner? = some w)
    {names : Table String ObjectId} (hscope : c.scopeFor o.kind = .ok names) :
    (∃ e, d.add w.id o = .ok e) ↔ o.id.isEmpty = false ∧ d.object? o.id = none ∧
      checkName c.id names o = .ok () ∧ d.checkContent c o = .ok () := by
  simp only [add_eq_ok_iff]
  constructor
  · rintro ⟨e, c', w', ha, -⟩
    obtain ⟨names', hscope', hname⟩ := ha.scope
    have hfound := ha.found
    rw [hc] at hfound
    cases hfound
    rw [hscope] at hscope'
    cases hscope'
    exact ⟨ha.nonempty, ha.fresh, hname, ha.content⟩
  · rintro ⟨hne, hfresh, hname, hcontent⟩
    exact ⟨_, c, w, ⟨hc, hcw, hne, hfresh, ⟨names, hscope, hname⟩, hcontent⟩, rfl⟩

section

variable (hd : d.Reachable Edit.IsPlain)
include hd

theorem Reachable.container_of_housed {q : Plate} (hq : Housed d.plates q)
    (hw : q.owner = some w) : ∃ c names, d.object? w.id = some c ∧
      c.asOwner? = some w ∧ c.scopeFor q.kind = .ok names ∧ c.names? = some names ∧
      ∀ n, w = .net n → q.kind = .page := by
  obtain ⟨p, hp, hpw, hkind, hpage⟩ : ∃ p ∈ d.plates, p.asOwner? = some w ∧ q.kind ≠ .net ∧
      ∀ n, w = .net n → q.kind = .page := by
    rcases hq with ⟨_, hnone⟩ | ⟨v, hv, ⟨p, hp, hpv⟩, hkind, hpage⟩
    · rw [hw] at hnone
      cases hnone
    · rw [hw] at hv
      cases hv
      exact ⟨p, hp, hpv, hkind, hpage⟩
  obtain ⟨c, hc, rfl⟩ := hd.registered.object?_of_mem_plates hp
  have hcw : c.asOwner? = some w := (Object.asOwner?_label c).symm.trans hpw
  have hid : w.id = c.id := Object.id_of_asOwner? hcw
  have hfound : d.object? w.id = some c := hid ▸ hc
  refine ⟨c, ?_⟩
  cases c with
  | net n =>
    cases hcw
    exact ⟨n.names, hfound, rfl, by rw [hpage _ rfl]; rfl, rfl, hpage⟩
  | page p =>
    obtain ⟨v, _, hv, _⟩ := hd.registered.owner_spec hfound (by simp [Object.kind])
    have hpv : p.owner = some v := hv
    exact ⟨p.names, hfound, hcw, by simp [Object.scopeFor, hkind, hpv], rfl, hpage⟩
  | place p => cases hcw
  | transition t => cases hcw
  | arc a => cases hcw

/-- An object that has a container is admitted if its coordinates are finite and it fits in. -/
theorem Reachable.add_iff {o : Object} (ho : Housed d.plates (o.admitted w).plate)
    (hkind : o.kind ≠ .net) (hr : o.reference? = none) :
    (∃ e, d.add w.id o = .ok e) ↔ o.IsFinite ∧ Fits d.plates (o.admitted w).plate := by
  have hid : (o.admitted w).plate.id = o.id := Object.id_admitted o w
  have how : (o.admitted w).plate.owner = some w := Object.owner_admitted w hkind
  have hok : (o.admitted w).plate.kind = o.kind := Object.kind_admitted o w
  have hends : (o.admitted w).plate.ends = o.ends := by cases o <;> rfl
  have hname : (o.admitted w).plate.name = o.scopedName := Object.scopedName_admitted o w
  obtain ⟨c, names, hc, hcw, hscope, hnames, hpage⟩ := hd.container_of_housed ho how
  rw [hok] at hscope
  rw [exists_add_iff hc hcw hscope, hd.checkName_iff hc hcw hnames, Plate.fits_iff how, hid, hends,
    hname, hd.registered.object?_eq_none_iff,
    hd.checkContent_iff hc hcw (fun n hn => hok.symm.trans (hpage n hn)) hr]
  constructor
  · rintro ⟨hne, hfresh, hfree, hfinite, hjoins⟩
    exact ⟨hfinite, hne, hfresh, hfree, hjoins⟩
  · rintro ⟨hfinite, hne, hfresh, hfree, hjoins⟩
    exact ⟨hne, hfresh, hfree, hfinite, hjoins⟩

end

end Document

end PagedNets
