import PagedNets.Proofs.Pnml.Links

set_option autoImplicit false

namespace PagedNets.Pnml

open Plate (Along Fits along_append)
open Xml (Node)

/-- The document holds the objects of these visits with their links, and nothing else. -/
structure Represents (d : Document) (vs : List Visit) : Prop where
  reachable : d.Reachable Edit.IsPlain
  plates : d.plates = vs.map Visit.plate
  linked : d.Linked (linksOf vs)

def Resolved (us vs : List Visit) : Prop :=
  ∀ v ∈ vs, ∀ r, v.referent? = some r → ∃ u ∈ us, u.id = r ∧ u.kind = v.kind

variable {d e : Document} {us vs : List Visit} {n : Node}

theorem represents_empty : Represents {} [] :=
  ⟨⟨[], fun a ha => (by cases ha), rfl⟩, rfl, Document.linked_empty⟩

theorem keys_of_plates (hd : d.Reachable Edit.IsPlain) (h : d.plates = vs.map Visit.plate) :
    d.keys = idsOfVisits vs := by
  rw [hd.registered.keys_eq_plates, h, List.map_map]
  rfl

theorem kindOf?_of_plates (hd : d.Reachable Edit.IsPlain) (h : d.plates = vs.map Visit.plate)
    {i : ObjectId} {k : Kind} : d.kindOf? i = some k ↔ ∃ v ∈ vs, v.id = i ∧ v.kind = k := by
  rw [hd.registered.kindOf?_eq_some_iff, h]
  simp only [List.mem_map, exists_exists_and_eq_and]
  rfl

/-- The links of a net join nodes of one kind if its aliases are resolved. -/
theorem sameKind_iff_resolved (hd : d.Reachable Edit.IsPlain) (h : d.plates = us.map Visit.plate)
    (hvs : vs ⊆ us) (hnode : ∀ v ∈ vs, isReference v.element = true → v.kind.isNode = true) :
    (∀ l ∈ linksOf vs, d.SameKind l.1 l.2) ↔ Resolved us vs := by
  have hkind := @kindOf?_of_plates d us hd h
  constructor
  · intro hall v hv r hr
    obtain ⟨k, hk, -, hkr⟩ := hall (v.id, r) (mem_linksOf.mpr ⟨v, hv, rfl, hr⟩)
    have hself : d.kindOf? v.id = some v.kind := hkind.mpr ⟨v, hvs hv, rfl, rfl⟩
    have heq : k = v.kind := Option.some.inj (hk.symm.trans hself)
    exact hkind.mp (heq ▸ hkr)
  · rintro hall ⟨i, r⟩ hl
    obtain ⟨v, hv, rfl, hr⟩ := mem_linksOf.mp hl
    have href : isReference v.element = true := by
      unfold Visit.referent? at hr
      split at hr
      · assumption
      · cases hr
    exact ⟨v.kind, hkind.mpr ⟨v, hvs hv, rfl, rfl⟩, hnode v hv href,
      hkind.mpr (hall v hv r hr)⟩

section

variable {links : List (ObjectId × ObjectId)} (hd : d.Reachable Edit.IsPlain)
  (hlinked : d.Linked links) (hsources : (links.map (·.1)).Sublist d.keys)
include hd hlinked hsources

theorem of_advance_visits {mid : Document}
    (hmid : advance d ((netVisits n).map Visit.step) = some mid) :
    mid.Reachable Edit.IsPlain ∧ mid.plates = d.plates ++ (netVisits n).map Visit.plate ∧
      mid.Linked links ∧ ((links ++ linksOf (netVisits n)).map (·.1)).Nodup := by
  obtain ⟨hreach, hplates, hrefers⟩ := of_advance hd (housed_netVisits _ n) hmid
  refine ⟨hreach, hplates, fun i j => ?_, ?_⟩
  · rw [← hlinked i j, Document.RefersTo, Document.RefersTo, hrefers]
  · have hkeys : mid.keys = d.keys ++ idsOfVisits (netVisits n) := by
      rw [hreach.registered.keys_eq_plates, hplates, List.map_append,
        ← hd.registered.keys_eq_plates, List.map_map]
      rfl
    have hnodup := hreach.registered.distinct
    rw [hkeys] at hnodup
    rw [List.map_append]
    exact hnodup.sublist (hsources.append sources_sublist)

variable (hn : n.isTagged "net" = true)
include hn

theorem exists_advance_net_iff : (∃ e, advance d (netSteps n) = some e) ↔
    (∀ v ∈ netVisits n, IsReadable v.kind v.element) ∧
      Along Fits d.plates ((netVisits n).map Visit.plate) ∧
      (∀ l ∈ linksOf (netVisits n),
        Plate.SameKind (d.plates ++ (netVisits n).map Visit.plate) l.1 l.2) ∧
      Acyclic (links ++ linksOf (netVisits n)) := by
  have hvisits := exists_advance_iff hd (housed_netVisits d.plates n)
  have hlinks : ∀ mid, advance d ((netVisits n).map Visit.step) = some mid →
      ((∃ e, advance mid (nestedLinks n.children) = some e) ↔
        (∀ l ∈ linksOf (netVisits n),
          Plate.SameKind (d.plates ++ (netVisits n).map Visit.plate) l.1 l.2) ∧
        Acyclic (links ++ linksOf (netVisits n))) := by
    intro mid hmid
    obtain ⟨hreach, hplates, hmidlinked, hnodup⟩ := of_advance_visits hd hlinked hsources hmid
    rw [nestedLinks_eq_linksOf hn (hvisits.mp ⟨mid, hmid⟩).1,
      exists_advance_links_iff hreach hmidlinked hnodup, ← hplates]
    simp only [hreach.registered.sameKind_iff]
  rw [← and_assoc, ← hvisits, advance_netSteps]
  simp only [Option.bind_eq_some_iff]
  constructor
  · rintro ⟨e, mid, hmid, he⟩
    exact ⟨⟨mid, hmid⟩, (hlinks mid hmid).mp ⟨e, he⟩⟩
  · rintro ⟨⟨mid, hmid⟩, hrest⟩
    obtain ⟨e, he⟩ := (hlinks mid hmid).mpr hrest
    exact ⟨e, mid, hmid, he⟩

theorem of_advance_net (he : advance d (netSteps n) = some e) :
    e.Reachable Edit.IsPlain ∧ e.plates = d.plates ++ (netVisits n).map Visit.plate ∧
      e.Linked (links ++ linksOf (netVisits n)) := by
  have hread := (exists_advance_net_iff hd hlinked hsources hn).mp ⟨e, he⟩
  rw [advance_netSteps] at he
  obtain ⟨mid, hmid, hlinks⟩ := Option.bind_eq_some_iff.mp he
  obtain ⟨hreach, hplates, hmidlinked, hnodup⟩ := of_advance_visits hd hlinked hsources hmid
  rw [nestedLinks_eq_linksOf hn hread.1] at hlinks
  obtain ⟨hereach, heplates, helinked⟩ := of_advance_links hreach hmidlinked hnodup hlinks
  exact ⟨hereach, heplates.trans hplates, helinked⟩

end

section

variable (h : Represents d us)
include h

theorem Represents.sources : ((linksOf us).map (·.1)).Sublist d.keys :=
  keys_of_plates h.reachable h.plates ▸ sources_sublist

variable (hn : n.isTagged "net" = true)
include hn

theorem Represents.exists_advance_iff : (∃ e, advance d (netSteps n) = some e) ↔
    (∀ v ∈ netVisits n, IsReadable v.kind v.element) ∧
      Along Fits (us.map Visit.plate) ((netVisits n).map Visit.plate) ∧
      Resolved (us ++ netVisits n) (netVisits n) ∧ Acyclic (linksOf (us ++ netVisits n)) := by
  rw [exists_advance_net_iff h.reachable h.linked h.sources hn, ← h.plates, linksOf_append]
  refine and_congr_right fun hread => and_congr_right fun hfits => and_congr_left fun _ => ?_
  -- The objects that were admitted are those of a document, so each key has one kind.
  obtain ⟨mid, hmid⟩ :=
    (Pnml.exists_advance_iff h.reachable (housed_netVisits _ n)).mpr ⟨hread, hfits⟩
  obtain ⟨hreach, hplates, -, -⟩ := of_advance_visits h.reachable h.linked h.sources hmid
  have hall : mid.plates = (us ++ netVisits n).map Visit.plate := by
    rw [hplates, h.plates, List.map_append]
  rw [← sameKind_iff_resolved hreach hall (List.subset_append_right _ _) (isNode_netVisits hn),
    ← hplates]
  simp only [hreach.registered.sameKind_iff]

theorem Represents.read_net (he : advance d (netSteps n) = some e) :
    Represents e (us ++ netVisits n) := by
  obtain ⟨hreach, hplates, hlinked⟩ := of_advance_net h.reachable h.linked h.sources hn he
  refine ⟨hreach, ?_, linksOf_append ▸ hlinked⟩
  rw [hplates, h.plates, List.map_append]

end

theorem forall_split_cons {α : Type} {P : List α → α → Prop} {a : α} {l : List α} :
    (∀ before b after, a :: l = before ++ b :: after → P before b) ↔
      P [] a ∧ ∀ before b after, l = before ++ b :: after → P (a :: before) b := by
  constructor
  · intro h
    refine ⟨h [] a l rfl, fun before b after hl => h (a :: before) b after ?_⟩
    rw [hl, List.cons_append]
  · rintro ⟨hhead, htail⟩ before b after hl
    cases before with
    | nil =>
      cases hl
      exact hhead
    | cons c before =>
      rw [List.cons_append] at hl
      obtain ⟨rfl, hrest⟩ := List.cons.inj hl
      exact htail before b after hrest

/-- The aliases of each net are resolved in it and in the nets in front of it. -/
def NetsResolved (us : List Visit) (nets : List Node) : Prop :=
  ∀ before n after, nets = before ++ n :: after →
    Resolved (us ++ (before ++ [n]).flatMap netVisits) (netVisits n)

theorem netsResolved_cons {nets : List Node} : NetsResolved us (n :: nets) ↔
    Resolved (us ++ netVisits n) (netVisits n) ∧ NetsResolved (us ++ netVisits n) nets := by
  rw [NetsResolved, forall_split_cons]
  simp [NetsResolved]

theorem acyclic_append {links more : List (ObjectId × ObjectId)} (h : Acyclic (links ++ more)) :
    Acyclic links := fun i hi =>
  h i (Relation.TransGen.mono (fun _ _ => List.mem_append_left _) _ _ hi)

section

variable {nets : List Node} (h : Represents d us) (hnets : ∀ n ∈ nets, n.isTagged "net" = true)
include h hnets

theorem Represents.exists_advance_nets_iff :
    (∃ e, advance d (nets.flatMap netSteps) = some e) ↔
      (∀ v ∈ nets.flatMap netVisits, IsReadable v.kind v.element) ∧
        Along Fits (us.map Visit.plate) ((nets.flatMap netVisits).map Visit.plate) ∧
        NetsResolved us nets ∧ Acyclic (linksOf (us ++ nets.flatMap netVisits)) := by
  induction nets generalizing d us with
  | nil =>
    have hacyclic : Acyclic (linksOf us) := acyclic_of_linked h.reachable h.linked
    simp [advance_nil, Along, NetsResolved, hacyclic]
  | cons n nets ih =>
    obtain ⟨hn, hrest⟩ := List.forall_mem_cons.mp hnets
    have hone := h.exists_advance_iff hn
    rw [List.flatMap_cons, List.flatMap_cons, exists_advance_append, List.forall_mem_append,
      List.map_append, along_append, ← List.map_append, ← List.append_assoc, netsResolved_cons]
    constructor
    · rintro ⟨next, hnext, he⟩
      obtain ⟨hread, hfits, hresolved, -⟩ := hone.mp ⟨next, hnext⟩
      obtain ⟨hreads, hall, hresolves, hacyclic⟩ := (ih (h.read_net hn hnext) hrest).mp he
      exact ⟨⟨hread, hreads⟩, ⟨hfits, hall⟩, ⟨hresolved, hresolves⟩, hacyclic⟩
    · rintro ⟨⟨hread, hreads⟩, ⟨hfits, hall⟩, ⟨hresolved, hresolves⟩, hacyclic⟩
      have hfirst : Acyclic (linksOf (us ++ netVisits n)) := by
        rw [linksOf_append] at hacyclic
        exact acyclic_append hacyclic
      obtain ⟨next, hnext⟩ := hone.mpr ⟨hread, hfits, hresolved, hfirst⟩
      exact ⟨next, hnext, (ih (h.read_net hn hnext) hrest).mpr ⟨hreads, hall, hresolves, hacyclic⟩⟩

theorem Represents.read_nets (he : advance d (nets.flatMap netSteps) = some e) :
    Represents e (us ++ nets.flatMap netVisits) := by
  induction nets generalizing d us with
  | nil =>
    cases he
    rw [List.flatMap_nil, List.append_nil]
    exact h
  | cons n nets ih =>
    obtain ⟨hn, hrest⟩ := List.forall_mem_cons.mp hnets
    rw [List.flatMap_cons, advance_append] at he
    obtain ⟨next, hnext, he⟩ := Option.bind_eq_some_iff.mp he
    rw [List.flatMap_cons, ← List.append_assoc]
    exact ih (h.read_net hn hnext) hrest he

end

theorem isTagged_netElements {root : Node} : ∀ n ∈ netElements root, n.isTagged "net" = true := by
  intro n hn
  unfold netElements at hn
  split at hn
  · next hroot =>
    rw [List.mem_singleton.mp hn]
    exact hroot
  · exact (List.mem_filter.mp hn).2

theorem script_eq {root : Node} (h : netElements root ≠ []) :
    script root = (netElements root).flatMap netSteps := by
  unfold script
  split
  · next hnil => exact absurd hnil h
  · rfl

/-- Exactly which documents are read, in terms of what is visited. -/
theorem exists_result_script_iff (root : Node) :
    (∃ nets, (perform {} (script root)).result = .ok nets) ↔ netElements root ≠ [] ∧
      (∀ v ∈ visits root, IsReadable v.kind v.element) ∧
      Along Fits [] ((visits root).map Visit.plate) ∧
      NetsResolved [] (netElements root) ∧ Acyclic (linksOf (visits root)) := by
  by_cases hnil : netElements root = []
  · have hscript : script root = [.fail .noNet] := by
      unfold script
      rw [hnil]
    rw [exists_result_iff, hscript, advance_fail]
    simp [hnil]
  · rw [exists_result_iff, script_eq hnil,
      represents_empty.exists_advance_nets_iff isTagged_netElements]
    simp only [ne_eq, hnil, not_false_eq_true, true_and, List.map_nil, List.nil_append]
    rfl

theorem finishedNets_links (links : List (ObjectId × ObjectId)) :
    finishedNets (links.map linkStep) = [] := by
  rw [finishedNets, List.filterMap_map, List.filterMap_eq_nil_iff]
  exact fun _ _ => rfl

theorem finishedNets_netSteps {n : Node} (hn : n.isTagged "net" = true)
    (hread : ∀ v ∈ netVisits n, IsReadable v.kind v.element) :
    finishedNets (netSteps n) = [idOf n] := by
  obtain ⟨o, ho, -⟩ := gives_objectOf_iff.mpr (hread _ List.mem_cons_self)
  obtain ⟨net, hnet, -⟩ := map_eq_ok ho
  have hlinks : finishedNets (nestedLinks n.children) = [] := by
    rw [nestedLinks_eq_linksOf hn hread, finishedNets_links]
  have hid : net.id = idOf n := (spec_netOf hnet).1
  simp only [netSteps, hnet]
  rw [finishedNets_append, finishedNets_append, ← List.singleton_append, finishedNets_append,
    finishedNets_nestedSteps, hlinks, hid]
  rfl

theorem eq_of_result_script {root : Node} {nets : List ObjectId}
    (h : (perform {} (script root)).result = .ok nets) : nets = (netElements root).map idOf := by
  obtain ⟨hne, hread, -⟩ := (exists_result_script_iff root).mp ⟨nets, h⟩
  obtain ⟨e, he⟩ := advance_of_result h
  have hnets : nets = finishedNets (script root) :=
    Except.ok.inj (h.symm.trans (performs_of_advance he).perform_eq.2)
  rw [hnets, script_eq hne, finishedNets, List.filterMap_flatMap, List.map_eq_flatMap]
  refine List.flatMap_congr fun n hn => ?_
  exact finishedNets_netSteps (isTagged_netElements n hn) fun v hv =>
    hread v (List.mem_flatMap.mpr ⟨n, hn, hv⟩)

/-- What was read without a fault holds what is visited, and nothing else. -/
theorem represents_of_result {root : Node} {nets : List ObjectId}
    (h : (perform {} (script root)).result = .ok nets) :
    Represents (perform {} (script root)).document (visits root) := by
  obtain ⟨hne, -⟩ := (exists_result_script_iff root).mp ⟨nets, h⟩
  obtain ⟨e, he⟩ := advance_of_result h
  rw [(performs_of_advance he).perform_eq.1]
  rw [script_eq hne] at he
  exact represents_empty.read_nets isTagged_netElements he

end PagedNets.Pnml
