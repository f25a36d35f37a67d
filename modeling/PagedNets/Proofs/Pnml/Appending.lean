import PagedNets.Proofs.Document.Atomicity
import PagedNets.Proofs.Pnml.Stopping

set_option autoImplicit false

namespace PagedNets

def Object.unaliased (o : Object) : Object := o.mapAliases fun _ => []

/-- An object as it comes in: a net as it is, any other object with its owner. -/
def Object.placed (o : Object) : Option Owner → Object
  | none => o
  | some w => o.admitted w

theorem Object.unaliased_mapAliases (g : IdSet → IdSet) (o : Object) :
    (o.mapAliases g).unaliased = o.unaliased := by cases o <;> rfl

namespace Document

variable {d e : Document} {i j : ObjectId}

theorem object?_setReference (hr : d.Registered) {new : Option ObjectId}
    (h : d.setReference i new = .ok e) (j : ObjectId) :
    (e.object? j).map Object.core = (d.object? j).map Object.core ∧
      (j ≠ i → (e.object? j).map Object.unaliased = (d.object? j).map Object.unaliased) := by
  refine ⟨object?_of_view (view_setReference Object.core_mapAliases
    (fun o => by cases o <;> rfl) h) j, fun hj => ?_⟩
  obtain ⟨-, -, -, -, rfl⟩ := (setReference_eq_ok_iff hr).mp h
  split
  · rfl
  · rw [link, object?_modify, if_neg hj]
    refine object?_of_view ?_ j
    unfold relink
    cases d.refersTo? i <;> cases new <;>
      simp [view_updateAliases Object.unaliased_mapAliases]

end Document

namespace Pnml

open Plate (Along Housed along_append)
open Report (aliasesOf)
open Xml (Node)

/-- The document `e` is `d` with the objects of these visits behind it and these links of theirs
made. -/
structure Appended (d : Document) (vs : List Visit) (links : List (ObjectId × ObjectId))
    (e : Document) : Prop where
  reachable : e.Reachable Edit.IsPlain
  keys : e.keys = d.keys ++ idsOfVisits vs
  plates : e.plates = d.plates ++ vs.map Visit.plate
  old : ∀ i o, d.object? i = some o → ∃ x, e.object? i = some x ∧ x.unaliased = o.unaliased
  new : ∀ v ∈ vs, ∃ o x, objectOf v.kind v.element = .ok o ∧ e.object? v.id = some x ∧
    x.core = (o.placed v.owner).core
  linked : ∀ i j, e.RefersTo i j ↔ d.RefersTo i j ∨ (i, j) ∈ links
  aliased : ∀ i j, i ∈ aliasesOf e j ↔ i ∈ aliasesOf d j ∨ (i, j) ∈ links
  sources : (links.map (·.1)).Sublist (idsOfVisits vs)

/-- Where reading ends: the elements that came in, the links that were made, and the answer. -/
inductive Ends (e : Document) : Option Node → List Visit → List (ObjectId × ObjectId) →
    Except ReadError (List ObjectId) → Prop
  | malformed : Ends e none [] [] (.error .malformed)
  | noNet {root : Node} (empty : netElements root = []) : Ends e (some root) [] [] (.error .noNet)
  | whole {root : Node} (nonempty : netElements root ≠ []) :
    Ends e (some root) (visits root) (linksOf (visits root)) (.ok ((netElements root).map idOf))
  | element {root n : Node} {before after : List Node} {v : Visit} {vs ws : List Visit}
    {cause : ReadError} (nets : netElements root = before ++ n :: after)
    (here : netVisits n = vs ++ v :: ws) (refused : refusal e v.step = some cause) :
    Ends e (some root) (before.flatMap netVisits ++ vs) (linksOf (before.flatMap netVisits))
      (.error cause)
  | link {root n : Node} {before after : List Node} {l : ObjectId × ObjectId}
    {ls ms : List (ObjectId × ObjectId)} {cause : ReadError}
    (nets : netElements root = before ++ n :: after)
    (here : linksOf (netVisits n) = ls ++ l :: ms) (refused : refusal e (linkStep l) = some cause) :
    Ends e (some root) ((before ++ [n]).flatMap netVisits)
      (linksOf (before.flatMap netVisits) ++ ls) (.error cause)

section Steps

variable {d e f : Document} {v : Visit} {us vs : List Visit}
  {links more : List (ObjectId × ObjectId)} {link : ObjectId × ObjectId}

/-- What a visit changes: its object comes in, and of the others at most its container grows. -/
theorem changes_of_take (hd : d.Reachable Edit.IsPlain) (hv : Housed d.plates v.plate)
    (h : take d v.step = some e) : ∃ o, objectOf v.kind v.element = .ok o ∧
      e.object? v.id = some (o.placed v.owner) ∧
      ∀ i, i ≠ v.id → (e.object? i).map Object.core = (d.object? i).map Object.core ∧
        ((∀ w, v.owner = some w → i ≠ w.id) → e.object? i = d.object? i) := by
  obtain ⟨o, ho, hentry⟩ := entry_of_take hd hv h
  have hdescribes := describes_of_objectOf ho
  refine ⟨o, ho, ?_⟩
  rw [← hdescribes.id]
  rcases hentry with ⟨n, rfl, howner, hadd⟩ | ⟨w, c, howner, hadmissible, rfl⟩
  · obtain ⟨-, hfresh, rfl⟩ := Document.addNet_eq_ok_iff.mp hadd
    have hobject := Document.object?_append_of_fresh (o := .net n) hfresh
    rw [howner]
    refine ⟨by rw [hobject, if_pos rfl]; rfl, fun i hi => ?_⟩
    rw [hobject, if_neg hi]
    exact ⟨rfl, fun _ => rfl⟩
  · have hobject := hadmissible.object?_enter
    rw [howner]
    refine ⟨by rw [hobject, if_pos rfl]; rfl, fun i hi => ?_⟩
    rw [hobject, if_neg hi, hdescribes.reference]
    simp only [reduceCtorEq, if_false]
    split
    · next hparent =>
      refine ⟨?_, fun hne => absurd hparent (hne w rfl)⟩
      rw [hparent, hadmissible.found, Option.map_some, Option.map_some, Object.core_adopt]
    · exact ⟨rfl, fun _ => rfl⟩

theorem appended_nil (hd : d.Reachable Edit.IsPlain) : Appended d [] [] d where
  reachable := hd
  keys := (List.append_nil _).symm
  plates := (List.append_nil _).symm
  old := fun i o ho => ⟨o, ho, rfl⟩
  new := fun v hv => by cases hv
  linked := by simp
  aliased := by simp
  sources := .slnil

theorem aliased_of_linked (hd : d.Reachable Edit.IsPlain) (he : e.Reachable Edit.IsPlain)
    (h : ∀ i j, e.RefersTo i j ↔ d.RefersTo i j ∨ (i, j) ∈ links) (i j : ObjectId) :
    i ∈ aliasesOf e j ↔ i ∈ aliasesOf d j ∨ (i, j) ∈ links := by
  rw [he.aliased.inverse, hd.aliased.inverse, h]

theorem Appended.fresh (h : Appended d us links e) {i : ObjectId} (hi : i ∈ d.keys) :
    i ∉ idsOfVisits us := by
  have hnodup := h.reachable.registered.distinct
  rw [h.keys] at hnodup
  exact fun hm => (List.nodup_append.mp hnodup).2.2 i hi i hm rfl

theorem Appended.nodup_new (h : Appended d us links e) : (idsOfVisits us).Nodup := by
  have hnodup := h.reachable.registered.distinct
  rw [h.keys] at hnodup
  exact (List.nodup_append.mp hnodup).2.1

theorem container_mem (hv : Housed (us.map Visit.plate) v.plate) {w : Owner}
    (hw : v.owner = some w) : w.id ∈ idsOfVisits us := by
  rcases hv with ⟨-, hnone⟩ | ⟨w', howner, ⟨p, hp, hpw⟩, -⟩
  · rw [Visit.plate, hw] at hnone
    cases hnone
  · rw [Visit.plate, hw] at howner
    cases howner
    obtain ⟨u, hu, rfl⟩ := List.mem_map.mp hp
    rw [show w.id = u.id from Visit.id_of_asOwner? hpw]
    exact List.mem_map_of_mem hu

theorem Appended.visitOne (h : Appended d us links e) (hd : d.Reachable Edit.IsPlain)
    (hv : Housed (us.map Visit.plate) v.plate) (ht : take e v.step = some f) :
    Appended d (us ++ [v]) links f := by
  have hhoused : Housed e.plates v.plate :=
    hv.mono (h.plates ▸ List.subset_append_right _ _)
  obtain ⟨hreach, hplates, hrefers⟩ := of_take h.reachable hhoused ht
  obtain ⟨o, ho, hentered, hothers⟩ := changes_of_take h.reachable hhoused ht
  have hkeys : f.keys = e.keys ++ [v.id] := by
    rw [hreach.registered.keys_eq_plates, hplates, List.map_append,
      ← h.reachable.registered.keys_eq_plates]
    rfl
  have hdistinct := hreach.registered.distinct
  rw [hkeys] at hdistinct
  have hnew : ∀ i ∈ e.keys, i ≠ v.id := fun i hi he =>
    (List.nodup_append.mp hdistinct).2.2 i hi v.id (List.mem_singleton_self _) he
  have hlinked : ∀ i j, f.RefersTo i j ↔ d.RefersTo i j ∨ (i, j) ∈ links := by
    intro i j
    rw [← h.linked i j, Document.RefersTo, hrefers]
    rfl
  constructor
  case reachable => exact hreach
  case keys =>
    rw [hkeys, h.keys, List.append_assoc]
    simp [idsOfVisits]
  case plates =>
    rw [hplates, h.plates, List.append_assoc]
    simp
  case old =>
    intro i x hx
    obtain ⟨y, hy, hsame⟩ := h.old i x hx
    have hcontainer : ∀ w, v.owner = some w → i ≠ w.id := by
      rintro w hw rfl
      exact h.fresh (Document.mem_keys_of_object? hx) (container_mem hv hw)
    refine ⟨y, ?_, hsame⟩
    rw [(hothers i (hnew i (Document.mem_keys_of_object? hy))).2 hcontainer, hy]
  case new =>
    intro u hu
    rcases List.mem_append.mp hu with hu | hu
    · obtain ⟨o', x, ho', hx, hcore⟩ := h.new u hu
      have hsame := (hothers u.id (hnew u.id (Document.mem_keys_of_object? hx))).1
      rw [hx, Option.map_some] at hsame
      obtain ⟨y, hy, hycore⟩ := Option.map_eq_some_iff.mp hsame
      exact ⟨o', y, ho', hy, hycore.trans hcore⟩
    · rw [List.mem_singleton.mp hu]
      exact ⟨o, _, ho, hentered, rfl⟩
  case linked => exact hlinked
  case aliased => exact aliased_of_linked hd hreach hlinked
  case sources =>
    rw [idsOfVisits, List.map_append]
    exact h.sources.trans (List.sublist_append_left _ _)

theorem Appended.visitAll (h : Appended d us links e) (hd : d.Reachable Edit.IsPlain)
    (hvs : Along Housed (us.map Visit.plate) (vs.map Visit.plate))
    (ha : advance e (vs.map Visit.step) = some f) : Appended d (us ++ vs) links f := by
  induction vs generalizing e us with
  | nil =>
    cases ha
    rwa [List.append_nil]
  | cons v vs ih =>
    obtain ⟨hv, hrest⟩ := hvs
    rw [List.map_cons, advance_cons] at ha
    obtain ⟨next, hnext, ha⟩ := Option.bind_eq_some_iff.mp ha
    have hstep := h.visitOne hd hv hnext
    have hsplit : us ++ v :: vs = us ++ [v] ++ vs := by simp
    rw [hsplit]
    refine ih hstep ?_ ha
    rw [List.map_append]
    exact hrest

theorem Appended.linkOne (h : Appended d us links e) (hd : d.Reachable Edit.IsPlain)
    (hl : ((links ++ [link]).map (·.1)).Sublist (idsOfVisits us))
    (ht : take e (linkStep link) = some f) : Appended d us (links ++ [link]) f := by
  have hr := h.reachable.registered
  have hedit : e.setReference link.1 (some link.2) = .ok f := edit_of_take ht
  have hmem : link.1 ∈ idsOfVisits us := hl.subset (by simp)
  have hobject := Document.object?_setReference hr hedit
  have hfresh : link.1 ∉ (d.referrals ++ links).map (·.1) := by
    rw [List.map_append, List.mem_append]
    rintro (hm | hm)
    · exact h.fresh (d.sources_referrals.subset hm) hmem
    · have hsources := h.nodup_new.sublist hl
      rw [List.map_append] at hsources
      exact (List.nodup_append.mp hsources).2.2 _ hm _ (List.mem_singleton_self _) rfl
  have hbefore : e.Linked (d.referrals ++ links) := by
    intro i j
    rw [h.linked, d.linked_referrals i j, List.mem_append]
  obtain ⟨hreach, hplates, -, hafter⟩ := of_take_link h.reachable hbefore hfresh ht
  have hlinked : ∀ i j, f.RefersTo i j ↔ d.RefersTo i j ∨ (i, j) ∈ links ++ [link] := by
    intro i j
    rw [hafter i j, List.append_assoc, List.mem_append, ← d.linked_referrals i j]
  constructor
  case reachable => exact hreach
  case keys =>
    rw [hreach.registered.keys_eq_plates, hplates, ← hr.keys_eq_plates, h.keys]
  case plates => rw [hplates, h.plates]
  case old =>
    intro i o ho
    obtain ⟨x, hx, hsame⟩ := h.old i o ho
    have hne : i ≠ link.1 := by
      rintro rfl
      exact h.fresh (Document.mem_keys_of_object? ho) hmem
    have hkept := (hobject i).2 hne
    rw [hx, Option.map_some] at hkept
    obtain ⟨y, hy, hysame⟩ := Option.map_eq_some_iff.mp hkept
    exact ⟨y, hy, hysame.trans hsame⟩
  case new =>
    intro v hv
    obtain ⟨o, x, ho, hx, hcore⟩ := h.new v hv
    have hkept := (hobject v.id).1
    rw [hx, Option.map_some] at hkept
    obtain ⟨y, hy, hycore⟩ := Option.map_eq_some_iff.mp hkept
    exact ⟨o, y, ho, hy, hycore.trans hcore⟩
  case linked => exact hlinked
  case aliased => exact aliased_of_linked hd hreach hlinked
  case sources => exact hl

theorem Appended.linkAll (h : Appended d us links e) (hd : d.Reachable Edit.IsPlain)
    (hl : ((links ++ more).map (·.1)).Sublist (idsOfVisits us))
    (ha : advance e (more.map linkStep) = some f) : Appended d us (links ++ more) f := by
  induction more generalizing e links with
  | nil =>
    cases ha
    rwa [List.append_nil]
  | cons l more ih =>
    have hsplit : links ++ l :: more = links ++ [l] ++ more := by simp
    rw [hsplit] at hl ⊢
    rw [List.map_cons, advance_cons] at ha
    obtain ⟨next, hnext, ha⟩ := Option.bind_eq_some_iff.mp ha
    have hfirst : ((links ++ [l]).map (·.1)).Sublist (idsOfVisits us) := by
      refine List.Sublist.trans ?_ hl
      exact (List.sublist_append_left _ _).map _
    exact ih (h.linkOne hd hfirst hnext) hl ha

end Steps

section Nets

variable {d e : Document} {root n : Node} {before after : List Node}

/-- The objects of a net all come in, or reading ends at one of its elements. -/
theorem Appended.elements_cases
    (h : Appended d (before.flatMap netVisits) (linksOf (before.flatMap netVisits)) e)
    (hd : d.Reachable Edit.IsPlain) (hnets : netElements root = before ++ n :: after) :
    (∃ f, advance e ((netVisits n).map Visit.step) = some f ∧
        Appended d ((before ++ [n]).flatMap netVisits) (linksOf (before.flatMap netVisits)) f) ∨
      ∃ f vs links cause, Stops e (netSteps n) f cause ∧ Appended d vs links f ∧
        Ends f (some root) vs links (.error cause) := by
  have hhoused := housed_netVisits ((before.flatMap netVisits).map Visit.plate) n
  rcases advance_cases e ((netVisits n).map Visit.step) with
    ⟨f, hf⟩ | ⟨first, step, last, f, cause, hsplit, hfirst, hcause, hs⟩
  · have hwhole : (before ++ [n]).flatMap netVisits = before.flatMap netVisits ++ netVisits n := by
      simp
    exact .inl ⟨f, hf, hwhole ▸ h.visitAll hd hhoused hf⟩
  · obtain ⟨vs, ws, hlist, rfl, hrest⟩ := List.map_eq_append_iff.mp hsplit
    obtain ⟨v, ws, rfl, rfl, -⟩ := List.map_eq_cons_iff.mp hrest
    rw [hlist, List.map_append, along_append] at hhoused
    exact .inr ⟨f, _, _, cause, stops_netSteps (hs.append _), h.visitAll hd hhoused.1 hfirst,
      .element hnets hlist hcause⟩

theorem Appended.links_cases
    (h : Appended d ((before ++ [n]).flatMap netVisits) (linksOf (before.flatMap netVisits)) e)
    (hd : d.Reachable Edit.IsPlain) (hnets : netElements root = before ++ n :: after) :
    (∃ f, advance e ((linksOf (netVisits n)).map linkStep) = some f ∧
        Appended d ((before ++ [n]).flatMap netVisits)
          (linksOf ((before ++ [n]).flatMap netVisits)) f) ∨
      ∃ f links cause, Stops e ((linksOf (netVisits n)).map linkStep) f cause ∧
        Appended d ((before ++ [n]).flatMap netVisits) links f ∧
        Ends f (some root) ((before ++ [n]).flatMap netVisits) links (.error cause) := by
  have hlinks : linksOf ((before ++ [n]).flatMap netVisits) =
      linksOf (before.flatMap netVisits) ++ linksOf (netVisits n) := by
    rw [List.flatMap_append, linksOf_append, List.flatMap_singleton]
  have hsources : ((linksOf ((before ++ [n]).flatMap netVisits)).map (·.1)).Sublist
      (idsOfVisits ((before ++ [n]).flatMap netVisits)) := sources_sublist
  rw [hlinks] at hsources ⊢
  rcases advance_cases e ((linksOf (netVisits n)).map linkStep) with
    ⟨f, hf⟩ | ⟨first, step, last, f, cause, hsplit, hfirst, hcause, hs⟩
  · exact .inl ⟨f, hf, h.linkAll hd hsources hf⟩
  · obtain ⟨ls, ms, hlist, rfl, hrest⟩ := List.map_eq_append_iff.mp hsplit
    obtain ⟨l, ms, rfl, rfl, -⟩ := List.map_eq_cons_iff.mp hrest
    rw [hlist, ← List.append_assoc, List.map_append] at hsources
    exact .inr ⟨f, _, cause, hs,
      h.linkAll hd ((List.sublist_append_left _ _).trans hsources) hfirst,
      .link hnets hlist hcause⟩

theorem Appended.net_cases
    (h : Appended d (before.flatMap netVisits) (linksOf (before.flatMap netVisits)) e)
    (hd : d.Reachable Edit.IsPlain) (hnets : netElements root = before ++ n :: after) :
    (∃ f, Performs e (netSteps n) [idOf n] f ∧ Appended d ((before ++ [n]).flatMap netVisits)
        (linksOf ((before ++ [n]).flatMap netVisits)) f) ∨
      ∃ f vs links cause, Stops e (netSteps n) f cause ∧ Appended d vs links f ∧
        Ends f (some root) vs links (.error cause) := by
  rcases h.elements_cases hd hnets with ⟨mid, hmid, hcame⟩ | hend
  · have hn := isTagged_netElements n (by simp [hnets] : n ∈ netElements root)
    have hread := ((exists_advance_iff h.reachable (housed_netVisits e.plates n)).mp ⟨mid, hmid⟩).1
    have hasked := nestedLinks_eq_linksOf hn hread
    have hperforms := performs_of_advance hmid
    rw [finishedNets_visits] at hperforms
    rcases hcame.links_cases hd hnets with ⟨f, hf, hall⟩ | ⟨f, links, cause, hs, hf, hend⟩
    · have hlinks := performs_of_advance hf
      rw [finishedNets_links, ← hasked] at hlinks
      exact .inl ⟨f, performs_netSteps hperforms hlinks, hall⟩
    · exact .inr ⟨f, _, links, cause, stops_netSteps (hasked ▸ hs.behind hperforms), hf, hend⟩
  · exact .inr hend

theorem Appended.nets_cases
    (h : Appended d (before.flatMap netVisits) (linksOf (before.flatMap netVisits)) e)
    (hd : d.Reachable Edit.IsPlain) (hnets : netElements root = before ++ after) :
    (∃ f, Performs e (after.flatMap netSteps) (after.map idOf) f ∧
        Appended d (visits root) (linksOf (visits root)) f) ∨
      ∃ f vs links cause, Stops e (after.flatMap netSteps) f cause ∧ Appended d vs links f ∧
        Ends f (some root) vs links (.error cause) := by
  induction after generalizing e before with
  | nil =>
    rw [List.append_nil] at hnets
    rw [visits, hnets]
    exact .inl ⟨e, .nil, h⟩
  | cons n after ih =>
    rcases h.net_cases hd hnets with ⟨next, hfirst, hnext⟩ | ⟨f, vs, links, cause, hs, hf, hend⟩
    · rcases ih hnext (by simp [hnets]) with ⟨f, hrest, hf⟩ | ⟨f, vs, links, cause, hs, hf, hend⟩
      · exact .inl ⟨f, hfirst.append hrest, hf⟩
      · exact .inr ⟨f, vs, links, cause, hs.behind hfirst, hf, hend⟩
    · exact .inr ⟨f, vs, links, cause, hs.append _, hf, hend⟩

theorem Ends.ofPart {vs : List Visit} {links : List (ObjectId × ObjectId)} {cause : ReadError}
    (h : Ends e (some root) vs links (.error cause)) (hne : netElements root ≠ []) :
    cause.OfPart := by
  cases h with
  | noNet hnil => exact absurd hnil hne
  | element hnets hhere hrefused => exact ofPart_of_refusal hrefused
  | link hnets hhere hrefused =>
    simp only [linkStep, refusal] at hrefused
    split at hrefused
    · cases hrefused
    · cases hrefused
      trivial

end Nets

structure ReadsInto (d : Document) (text : String) (reading : Reading) : Prop where
  untouched : reading.result = .error .malformed ∨ reading.result = .error .noNet →
    reading.document = d
  appended : ∃ vs links, Appended d vs links reading.document ∧
    Ends reading.document (Xml.parse? text) vs links reading.result

/-- Reading only appends: what was there stays first and unchanged but for new aliases, what comes
behind is what was read before the end, and a net is linked only once all of it has come in. -/
theorem read_appends {d : Document} (hd : d.Reachable Edit.IsPlain) (text : String) :
    ReadsInto d text (read d text) := by
  cases hroot : Xml.parse? text with
  | none =>
    have hread : read d text = { document := d, result := .error .malformed } := by
      simp only [read, hroot]
    rw [hread]
    exact ⟨fun _ => rfl, [], [], appended_nil hd, hroot ▸ .malformed⟩
  | some root =>
    have hread : read d text = perform d (script root) := by simp only [read, hroot]
    rw [hread]
    by_cases hnil : netElements root = []
    · have hscript : script root = [.fail .noNet] := by
        unfold script
        rw [hnil]
      rw [hscript]
      exact ⟨fun _ => rfl, [], [], appended_nil hd, hroot ▸ .noNet hnil⟩
    · rw [script_eq hnil]
      have hstart : Appended d (([] : List Node).flatMap netVisits)
          (linksOf (([] : List Node).flatMap netVisits)) d := appended_nil hd
      rcases hstart.nets_cases hd (List.nil_append _).symm with
        ⟨f, hperforms, hf⟩ | ⟨f, vs, links, cause, hs, hf, hend⟩
      · obtain ⟨hdocument, hresult⟩ := hperforms.perform_eq
        constructor
        case untouched =>
          rw [hresult]
          rintro (h | h) <;> cases h
        case appended =>
          rw [hdocument, hresult, hroot]
          exact ⟨_, _, hf, .whole hnil⟩
      · obtain ⟨hdocument, hresult⟩ := hs.perform_eq
        constructor
        case untouched =>
          have hpart := hend.ofPart hnil
          rw [hresult]
          rintro (h | h) <;> cases h <;> cases hpart
        case appended =>
          rw [hdocument, hresult, hroot]
          exact ⟨vs, links, hf, hend⟩

def placeRun : List Action :=
  [.edit (.addNet { id := ⟨"o"⟩, format := .placeTransition }),
    .edit (.add ⟨"o"⟩ (.page { id := ⟨"s"⟩ })),
    .edit (.add ⟨"s"⟩ (.place { id := ⟨"b"⟩ }))]

theorem uses_placeRun : ∀ a ∈ placeRun, a.Uses Edit.IsPlain := by
  intro a ha
  simp only [placeRun, List.mem_cons, List.not_mem_nil, or_false] at ha
  rcases ha with rfl | rfl | rfl
  · exact ⟨rfl, rfl⟩
  · exact ⟨rfl, rfl, rfl, rfl, rfl⟩
  · trivial

/-- An alias of a place that must be there already, and one of a place that is nowhere. -/
def danglingText : String :=
  "<net id='n' type='http://www.pnml.org/version-2009/grammar/ptnet'><page id='p'>" ++
    "<referencePlace id='a' ref='b'/><referencePlace id='c' ref='d'/></page></net>"

theorem read_appends_danglingText :
    (Document.run placeRun).Reachable Edit.IsPlain ∧
      ReadsInto (Document.run placeRun) danglingText (read (Document.run placeRun) danglingText) ∧
      (read (Document.run placeRun) danglingText).result =
        .error (.refused (.unresolvedReference ⟨"c"⟩ ⟨"d"⟩)) ∧
      (read (Document.run placeRun) danglingText).document.keys =
        [⟨"o"⟩, ⟨"s"⟩, ⟨"b"⟩, ⟨"n"⟩, ⟨"p"⟩, ⟨"a"⟩, ⟨"c"⟩] ∧
      aliasesOf (read (Document.run placeRun) danglingText).document ⟨"b"⟩ = [⟨"a"⟩] := by
  have hd : (Document.run placeRun).Reachable Edit.IsPlain := ⟨placeRun, uses_placeRun, rfl⟩
  exact ⟨hd, read_appends hd danglingText, by decide +kernel⟩

end Pnml

end PagedNets
