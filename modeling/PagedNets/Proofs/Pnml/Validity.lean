import PagedNets.Proofs.Pnml.Acceptance

/-!
Valid documents. The rules speak of single elements and of what stands in one container, never of
the order in which elements are read; only an alias must not name a node of a later net. A
well-formed text is read into an empty document without a fault just if all rules are kept.
-/

set_option autoImplicit false

namespace PagedNets.Pnml

open Plate (Along Coherent Fits Stands)
open Xml (Node)

structure IsValid (root : Node) : Prop where
  nets : root.isTagged "net" = true ∨ ∃ n ∈ root.children, n.isTagged "net" = true
  ids : ∀ v ∈ visits root, ∃ s, v.element.attribute? "id" = some s ∧ s ≠ ""
  distinct : (idsOfVisits (visits root)).Nodup
  formats : ∀ v ∈ visits root, v.kind = .net → ∃ raw, v.element.attribute? "type" = some raw ∧
    ∃ f : NetFormat, Text.foldCase (Text.trim raw) = Text.foldCase f.uri
  markings : ∀ v ∈ visits root, v.kind = .place → ∀ text, markingText? v.element = some text →
    ∃ tokens, Decimal.count? (Text.trim text) = some tokens
  points : ∀ v ∈ visits root, ∀ p ∈ pointsOf v.kind v.element, IsPoint p
  names : ∀ v ∈ visits root, (v.members.filterMap Visit.name).Nodup
  arcs : ∀ v ∈ visits root, v.kind = .page → ∀ a ∈ v.element.childrenTagged "arc",
    ∃ s t, a.attribute? "source" = some s ∧ a.attribute? "target" = some t ∧
      ⟨s⟩ ∈ idsOfVisits (nodeVisits v.id v.element) ∧ ⟨t⟩ ∈ idsOfVisits (nodeVisits v.id v.element)
  joins : ∀ v ∈ visits root, v.kind = .page → ((v.element.childrenTagged "arc").map fun a =>
    (a.attribute? "source", a.attribute? "target")).Nodup
  references : ∀ before n after, netElements root = before ++ n :: after →
    ∀ v ∈ netVisits n, isReference v.element = true → ∃ r, v.element.attribute? "ref" = some r ∧
      ∃ u ∈ (before ++ [n]).flatMap netVisits, u.id = ⟨r⟩ ∧ u.kind = v.kind
  acyclic : Acyclic (linksOf (visits root))

section Owned

variable {vs : List Visit} {v u : Visit}

theorem kind_of_owner_none {nets : List Node} (hv : v ∈ nets.flatMap netVisits)
    (h : v.owner = none) : v.kind = .net := by
  obtain ⟨n, -, hv⟩ := List.mem_flatMap.mp hv
  obtain ⟨ps, hhoused⟩ := housed_of_mem hv
  rcases housed_cases hhoused with ⟨-, hk⟩ | ⟨w, hw, -⟩
  · exact hk
  · rw [h] at hw
    cases hw

theorem arc_of_members (hu : u ∈ v.members) (hk : u.kind = .arc) :
    v.kind = .page ∧ u ∈ arcVisits v.id v.element := by
  cases hkind : v.kind with
  | net =>
    simp only [Visit.members, hkind] at hu
    rw [(owner_pageHeads u hu).2] at hk
    cases hk
  | page =>
    simp only [Visit.members, hkind, List.mem_append] at hu
    refine ⟨rfl, ?_⟩
    rcases hu with (hu | hu) | hu
    · have hnode := (owner_nodeVisits u hu).2
      rw [hk] at hnode
      cases hnode
    · exact hu
    · rw [(owner_pageHeads u hu).2] at hk
      cases hk
  | place => simp [Visit.members, hkind] at hu
  | transition => simp [Visit.members, hkind] at hu
  | arc => simp [Visit.members, hkind] at hu

theorem asOwner?_of_page (hk : v.kind = .page) : v.asOwner? = some (.page v.id) := by
  simp [Visit.asOwner?, Label.asOwner?, Visit.plate, hk]

theorem id_of_attribute {s : String} (h : v.element.attribute? "id" = some s) : v.id = ⟨s⟩ := by
  rw [Visit.id, idOf, h]
  rfl

variable (hw : Whole vs) (hnodup : (idsOfVisits vs).Nodup)
include hw hnodup

theorem Whole.mem_members_iff {w : Owner} (hv : v ∈ vs) (hvw : v.asOwner? = some w) :
    u ∈ v.members ↔ u ∈ vs ∧ u.owner = some w := by
  rw [← hw.members hnodup v hv w hvw, ownedBy, List.mem_filter, decide_eq_true_eq]

theorem Whole.stands_iff (hv : v ∈ vs) (hk : v.kind = .page) {i : ObjectId} :
    Stands (vs.map Visit.plate) (.page v.id) i ↔ i ∈ idsOfVisits (nodeVisits v.id v.element) := by
  have hvw := asOwner?_of_page hk
  have hmembers : v.members = nodeVisits v.id v.element ++ arcVisits v.id v.element ++
      pageHeads (.page v.id) v.element.children := by
    simp only [Visit.members, hk]
  constructor
  · rintro ⟨p, hp, rfl, hnode, howner⟩
    obtain ⟨u, hu, rfl⟩ := List.mem_map.mp hp
    have hmem := (hw.mem_members_iff hnodup hv hvw).mpr ⟨hu, howner⟩
    simp only [hmembers, List.mem_append] at hmem
    rcases hmem with (hmem | hmem) | hmem
    · exact List.mem_map_of_mem hmem
    · have harc : u.plate.kind = .arc := (owner_arcVisits u hmem).2
      rw [harc] at hnode
      cases hnode
    · have hpage : u.plate.kind = .page := (owner_pageHeads u hmem).2
      rw [hpage] at hnode
      cases hnode
  · intro hi
    obtain ⟨u, hu, rfl⟩ := List.mem_map.mp hi
    obtain ⟨howner, hnode⟩ := owner_nodeVisits u hu
    have hmem : u ∈ v.members := by
      rw [hmembers]
      exact List.mem_append_left _ (List.mem_append_left _ hu)
    exact ⟨u.plate, List.mem_map_of_mem ((hw.sublist_members hnodup hv).subset hmem), rfl, hnode,
      howner⟩

theorem Whole.arc_mem (hv : v ∈ vs) (hk : v.kind = .page) (hu : u ∈ arcVisits v.id v.element) :
    u ∈ vs := by
  refine (hw.sublist_members hnodup hv).subset ?_
  simp only [Visit.members, hk]
  exact List.mem_append_left _ (List.mem_append_right _ hu)

theorem Whole.page_of_arc {w : Owner} (hu : u ∈ vs) (hk : u.kind = .arc)
    (howner : u.owner = some w) :
    ∃ v ∈ vs, v.kind = .page ∧ w = .page v.id ∧ u ∈ arcVisits v.id v.element := by
  obtain ⟨v, hv, hvw⟩ := hw.owned u hu w howner
  obtain ⟨hpage, harc⟩ := arc_of_members ((hw.mem_members_iff hnodup hv hvw).mpr ⟨hu, howner⟩) hk
  refine ⟨v, hv, hpage, ?_, harc⟩
  rw [asOwner?_of_page hpage] at hvw
  exact (Option.some.inj hvw).symm

end Owned

theorem ofUri?_iff {raw : String} : (∃ f, NetFormat.ofUri? raw = some f) ↔
    ∃ f : NetFormat, Text.foldCase (Text.trim raw) = Text.foldCase f.uri := by
  have hall : ∀ f : NetFormat, f ∈ NetFormat.all := fun f => by cases f <;> decide
  rw [← Option.isSome_iff_exists, NetFormat.ofUri?, List.find?_isSome]
  constructor
  · rintro ⟨f, -, hf⟩
    exact ⟨f, (of_decide_eq_true hf).symm⟩
  · rintro ⟨f, hf⟩
    exact ⟨f, hall f, decide_eq_true hf.symm⟩

theorem referent?_eq_some_iff {v : Visit} {r : ObjectId} : v.referent? = some r ↔
    isReference v.element = true ∧ v.element.attribute? "ref" = some r.text := by
  unfold Visit.referent?
  split
  · next h =>
    simp only [h, true_and, Option.map_eq_some_iff]
    constructor
    · rintro ⟨s, hs, rfl⟩
      exact hs
    · exact fun hs => ⟨r.text, hs, rfl⟩
  · next h => simp [h]

theorem netElements_ne_nil_iff {root : Node} : netElements root ≠ [] ↔
    root.isTagged "net" = true ∨ ∃ n ∈ root.children, n.isTagged "net" = true := by
  unfold netElements
  split
  · next h => simp [h]
  · next h => simp [h, Node.childrenTagged]

section Coherent

variable {root : Node}

theorem whole_visits (root : Node) : Whole (visits root) := whole_flatMap _

theorem ids_plates (vs : List Visit) : (vs.map Visit.plate).map (·.id) = idsOfVisits vs := by
  rw [List.map_map]
  rfl

/-- Between the objects that stand in one container there is no conflict. -/
theorem pairwise_plates_iff (hnodup : (idsOfVisits (visits root)).Nodup)
    {S : Plate → Plate → Prop} :
    (((visits root).map Visit.plate).Pairwise fun p q =>
      ∀ w, p.owner = some w → q.owner = some w → S p q) ↔
      ∀ v ∈ visits root, v.members.Pairwise fun a b => S a.plate b.plate := by
  rw [List.pairwise_map]
  exact (whole_visits root).pairwise_iff hnodup

theorem names_nodup_iff {vs : List Visit} : (vs.filterMap Visit.name).Nodup ↔
    vs.Pairwise fun a b => ∀ n, a.plate.name = some n → b.plate.name ≠ some n := by
  rw [List.Nodup, List.pairwise_filterMap]
  constructor
  · exact fun h => h.imp fun {a b} hab n ha hb => hab n ha n hb rfl
  · refine fun h => h.imp fun {a b} hab n ha m hb hnm => ?_
    subst hnm
    exact hab n ha hb

theorem pairwise_ends_members {v : Visit} (hk : v.kind = .page) :
    (v.members.Pairwise fun a b => ∀ x, a.plate.ends = some x → b.plate.ends ≠ some x) ↔
      (arcVisits v.id v.element).Pairwise fun a b => a.plate.ends ≠ b.plate.ends := by
  have hnone : ∀ u : Visit, u.kind ≠ .arc → u.plate.ends = none := fun u hu => if_neg hu
  have hnodes : ∀ u ∈ nodeVisits v.id v.element, u.plate.ends = none := by
    intro u hu
    refine hnone u fun harc => ?_
    have hnode := (owner_nodeVisits u hu).2
    rw [harc] at hnode
    cases hnode
  have hpages : ∀ u ∈ pageHeads (.page v.id) v.element.children, u.plate.ends = none := by
    intro u hu
    refine hnone u fun harc => ?_
    rw [(owner_pageHeads u hu).2] at harc
    cases harc
  have harcs : ∀ u ∈ arcVisits v.id v.element, ∃ x, u.plate.ends = some x :=
    fun u hu => ⟨_, if_pos (owner_arcVisits u hu).2⟩
  simp only [Visit.members, hk, List.pairwise_append]
  constructor
  · rintro ⟨⟨-, hpairs, -⟩, -, -⟩
    refine hpairs.imp_of_mem fun {a b} ha _ hab heq => ?_
    obtain ⟨x, hx⟩ := harcs a ha
    exact hab x hx (heq ▸ hx)
  · intro hpairs
    refine ⟨⟨?_, ?_, ?_⟩, ?_, ?_⟩
    · refine List.pairwise_of_forall_mem_list fun a ha b _ x hx => ?_
      rw [hnodes a ha] at hx
      cases hx
    · exact hpairs.imp fun {a b} hab x ha hb => hab (ha.trans hb.symm)
    · intro a ha b _ x hx
      rw [hnodes a ha] at hx
      cases hx
    · refine List.pairwise_of_forall_mem_list fun a ha b _ x hx => ?_
      rw [hpages a ha] at hx
      cases hx
    · intro a _ b hb x _ hx
      rw [hpages b hb] at hx
      cases hx

theorem along_fits_visits (root : Node) :
    Along Fits [] ((visits root).map Visit.plate) ↔ Coherent ((visits root).map Visit.plate) := by
  refine Plate.along_fits_iff fun hnodup => ?_
  rw [ids_plates] at hnodup
  exact (whole_visits root).nodesFirst hnodup

theorem IsValid.isReadable (h : IsValid root) :
    ∀ v ∈ visits root, IsReadable v.kind v.element := by
  intro v hv
  refine ⟨?_, fun hk => ?_, fun hk => ?_, fun _ href => ?_, h.markings v hv, h.points v hv⟩
  · obtain ⟨s, hs, -⟩ := h.ids v hv
    exact ⟨s, hs⟩
  · obtain ⟨raw, hraw, hf⟩ := h.formats v hv hk
    obtain ⟨f, hf⟩ := ofUri?_iff.mpr hf
    exact ⟨raw, f, hraw, hf⟩
  · cases howner : v.owner with
    | none =>
      rw [kind_of_owner_none hv howner] at hk
      cases hk
    | some w =>
      obtain ⟨u, hu, hpage, -, harc⟩ := (whole_visits root).page_of_arc h.distinct hv hk howner
      obtain ⟨a, ha, rfl⟩ := List.mem_map.mp harc
      obtain ⟨s, t, hs, ht, -⟩ := h.arcs u hu hpage a ha
      exact ⟨⟨s, hs⟩, t, ht⟩
  · obtain ⟨n, hn, hmem⟩ := List.mem_flatMap.mp hv
    obtain ⟨before, after, hsplit⟩ := List.append_of_mem hn
    obtain ⟨r, hr, -⟩ := h.references before n after hsplit v hmem href
    exact ⟨r, hr⟩

theorem IsValid.coherent (h : IsValid root) : Coherent ((visits root).map Visit.plate) := by
  have hwhole := whole_visits root
  constructor
  · intro q hq
    obtain ⟨v, hv, rfl⟩ := List.mem_map.mp hq
    obtain ⟨s, hs, hne⟩ := h.ids v hv
    have hid : v.plate.id = ⟨s⟩ := id_of_attribute hs
    rw [hid, ObjectId.isEmpty, String.isEmpty_eq_false_iff]
    exact hne
  · rw [ids_plates]
    exact h.distinct
  · exact (pairwise_plates_iff h.distinct).mpr fun v hv => names_nodup_iff.mp (h.names v hv)
  · refine (pairwise_plates_iff h.distinct).mpr fun v hv => ?_
    by_cases hk : v.kind = .page
    · rw [pairwise_ends_members hk, arcVisits, List.pairwise_map]
      refine (List.pairwise_map.mp (h.joins v hv hk)).imp_of_mem fun {a b} ha hb hab heq => ?_
      obtain ⟨s, t, hs, ht, -⟩ := h.arcs v hv hk a ha
      obtain ⟨s', t', hs', ht', -⟩ := h.arcs v hv hk b hb
      refine hab ?_
      simpa [Visit.plate, Visit.ends, hs, ht, hs', ht'] using heq
    · refine List.pairwise_of_forall_mem_list fun a ha b _ x hx => ?_
      have hnone : a.plate.ends = none := if_neg fun harc => hk (arc_of_members ha harc).1
      rw [hnone] at hx
      cases hx
  · intro q hq w hqw x hx
    obtain ⟨u, hu, rfl⟩ := List.mem_map.mp hq
    have hk : u.kind = .arc := by
      by_contra hk
      have hnone : u.plate.ends = none := if_neg hk
      rw [hnone] at hx
      cases hx
    obtain ⟨v, hv, hpage, rfl, harc⟩ := hwhole.page_of_arc h.distinct hu hk hqw
    obtain ⟨a, ha, rfl⟩ := List.mem_map.mp harc
    obtain ⟨s, t, hs, ht, hsmem, htmem⟩ := h.arcs v hv hpage a ha
    have hends : x = (⟨s⟩, ⟨t⟩) := by
      simpa [Visit.plate, Visit.ends, hs, ht, eq_comm] using hx
    rw [hends, hwhole.stands_iff h.distinct hv hpage, hwhole.stands_iff h.distinct hv hpage]
    exact ⟨hsmem, htmem⟩

theorem isValid_of_coherent (hnets : netElements root ≠ [])
    (hread : ∀ v ∈ visits root, IsReadable v.kind v.element)
    (hc : Coherent ((visits root).map Visit.plate))
    (href : NetsResolved [] (netElements root)) (hacyclic : Acyclic (linksOf (visits root))) :
    IsValid root := by
  have hwhole := whole_visits root
  have hnodup : (idsOfVisits (visits root)).Nodup := ids_plates (visits root) ▸ hc.distinct
  refine ⟨netElements_ne_nil_iff.mp hnets, fun v hv => ?_, hnodup, fun v hv hk => ?_,
    fun v hv => (hread v hv).marking, fun v hv => (hread v hv).points,
    fun v hv => ?_, fun v hv hk a ha => ?_, fun v hv hk => ?_,
    fun before n after hsplit v hv hr => ?_, hacyclic⟩
  · obtain ⟨s, hs⟩ := (hread v hv).id
    refine ⟨s, hs, ?_⟩
    have hne := hc.nonempty v.plate (List.mem_map_of_mem hv)
    have hid : v.plate.id = ⟨s⟩ := id_of_attribute hs
    rw [hid, ObjectId.isEmpty, String.isEmpty_eq_false_iff] at hne
    exact hne
  · obtain ⟨raw, f, hraw, hf⟩ := (hread v hv).format hk
    exact ⟨raw, hraw, ofUri?_iff.mp ⟨f, hf⟩⟩
  · exact names_nodup_iff.mpr ((pairwise_plates_iff hnodup).mp hc.named v hv)
  · have hmem : ({ owner := some (.page v.id), kind := .arc, element := a } : Visit) ∈
        arcVisits v.id v.element := List.mem_map_of_mem ha
    have hall := hwhole.arc_mem hnodup hv hk hmem
    obtain ⟨⟨s, hs⟩, t, ht⟩ := (hread _ hall).ends rfl
    have hs' : a.attribute? "source" = some s := hs
    have ht' : a.attribute? "target" = some t := ht
    have hjoined := hc.joined _ (List.mem_map_of_mem hall) (.page v.id) rfl (⟨s⟩, ⟨t⟩)
      (by simp [Visit.plate, Visit.ends, hs', ht'])
    rw [hwhole.stands_iff hnodup hv hk, hwhole.stands_iff hnodup hv hk] at hjoined
    exact ⟨s, t, hs, ht, hjoined.1, hjoined.2⟩
  · have hpairs := (pairwise_ends_members hk).mp ((pairwise_plates_iff hnodup).mp hc.single v hv)
    rw [arcVisits, List.pairwise_map] at hpairs
    refine List.pairwise_map.mpr (hpairs.imp fun {a b} hab heq => hab ?_)
    obtain ⟨hs, ht⟩ := Prod.mk.inj heq
    simp [Visit.plate, Visit.ends, hs, ht]
  · have hn : n ∈ netElements root := by simp [hsplit]
    have hmem : v ∈ visits root := List.mem_flatMap.mpr ⟨n, hn, hv⟩
    have hnode := isNode_netVisits (isTagged_netElements n hn) v hv hr
    obtain ⟨r, hattribute⟩ := (hread v hmem).referent hnode hr
    have hreferent : v.referent? = some ⟨r⟩ := referent?_eq_some_iff.mpr ⟨hr, hattribute⟩
    exact ⟨r, hattribute, href before n after hsplit v hv ⟨r⟩ hreferent⟩

theorem isValid_iff (root : Node) : IsValid root ↔ netElements root ≠ [] ∧
    (∀ v ∈ visits root, IsReadable v.kind v.element) ∧
    Along Fits [] ((visits root).map Visit.plate) ∧
    NetsResolved [] (netElements root) ∧ Acyclic (linksOf (visits root)) := by
  rw [along_fits_visits]
  constructor
  · intro h
    refine ⟨netElements_ne_nil_iff.mpr h.nets, h.isReadable, h.coherent, ?_, h.acyclic⟩
    intro before n after hsplit v hv r hr
    obtain ⟨href, hattribute⟩ := referent?_eq_some_iff.mp hr
    obtain ⟨r', hr', hresolved⟩ := h.references before n after hsplit v hv href
    rw [hattribute] at hr'
    cases hr'
    exact hresolved
  · rintro ⟨hnets, hread, hc, href, hacyclic⟩
    exact isValid_of_coherent hnets hread hc href hacyclic

end Coherent

theorem exists_root_of_result {text : String}
    (h : (read {} text).result ≠ .error .malformed) : ∃ root, Xml.parse? text = some root := by
  cases hroot : Xml.parse? text with
  | none => exact absurd (by rw [read, hroot]) h
  | some root => exact ⟨root, rfl⟩

/-- A well-formed text is read into an empty document just if it is valid. -/
theorem read_iff_isValid {text : String} {root : Node} (h : Xml.parse? text = some root) :
    (∃ nets, (read {} text).result = .ok nets) ↔ IsValid root := by
  rw [isValid_iff, ← exists_result_script_iff, read, h]

def scatteredText : String :=
  "<pnml><net id='n' type=' http://www.pnml.org/version-2009/grammar/ptnet'><page id='p'>" ++
    "<arc id='ab' source='a' target='b'/><referencePlace id='r' ref='a'/><place id='a'>" ++
    "<initialMarking><text> 3 </text></initialMarking></place><transition id='b'/>" ++
    "</page></net></pnml>"

/-- Two nets, with an alias in the first one of a place in the second one. -/
def forwardText : String :=
  "<pnml><net id='n' type='http://www.pnml.org/version-2009/grammar/ptnet'><page id='p'>" ++
    "<referencePlace id='r' ref='a'/></page></net>" ++
    "<net id='m' type='http://www.pnml.org/version-2009/grammar/ptnet'><page id='q'>" ++
    "<place id='a'/></page></net></pnml>"

theorem read_scatteredText :
    (∃ root, Xml.parse? scatteredText = some root ∧ IsValid root) ∧
      ∃ root, Xml.parse? forwardText = some root ∧ ¬ IsValid root := by
  have hread : (read {} scatteredText).result = .ok [⟨"n"⟩] := by decide +kernel
  have hrefused : (read {} forwardText).result =
      .error (.refused (.unresolvedReference ⟨"r"⟩ ⟨"a"⟩)) := by decide +kernel
  obtain ⟨root, hroot⟩ := exists_root_of_result (by rw [hread]; simp)
  obtain ⟨other, hother⟩ := exists_root_of_result (by rw [hrefused]; simp)
  refine ⟨⟨root, hroot, (read_iff_isValid hroot).mp ⟨_, hread⟩⟩, other, hother, fun hvalid => ?_⟩
  obtain ⟨nets, hnets⟩ := (read_iff_isValid hother).mpr hvalid
  rw [hrefused] at hnets
  cases hnets

end PagedNets.Pnml
