import PagedNets.Proofs.Document.Clone
import PagedNets.Proofs.Document.Verdict
import PagedNets.Proofs.Pnml.CoordinateLines
import PagedNets.Proofs.Pnml.Stopping
import PagedNets.Proofs.Pnml.WellFormed

set_option autoImplicit false

namespace PagedNets

open Document (run)

/-- Whatever this is refused for, it is not for a coordinate. -/
def Sane {α : Type} (r : Except NetError α) : Prop := ∀ i, r ≠ .error (.nonFiniteGeometry i)

section Refusals

variable {α β : Type}

theorem sane_ok (a : α) : Sane (.ok a : Except NetError α) := fun _ h => by cases h

theorem Sane.bind {r : Except NetError α} {f : α → Except NetError β} (hr : Sane r)
    (hf : ∀ a, Sane (f a)) : Sane (r >>= f) := by
  intro i h
  cases r with
  | error cause =>
    cases h
    exact hr i rfl
  | ok a => exact hf a i h

theorem sane_scopeFor (c : Object) (k : Kind) : Sane (c.scopeFor k) := by
  intro i h
  unfold Object.scopeFor at h
  repeat' split at h
  all_goals cases h

namespace Document

variable {d : Document}

theorem sane_checkName (scope : ObjectId) (names : Table String ObjectId) (o : Object) :
    Sane (checkName scope names o) := by
  intro i h
  unfold checkName at h
  repeat' split at h
  all_goals cases h

theorem sane_checkReference (node : ObjectId) (k : Kind) (r : ObjectId) :
    Sane (d.checkReference node k r) := by
  intro i h
  unfold checkReference at h
  repeat' split at h
  all_goals cases h

theorem sane_endpoint (p : Page) (a : Arc) (i : ObjectId) : Sane (d.endpoint p a i) := by
  intro j h
  unfold endpoint at h
  repeat' split at h
  all_goals cases h

theorem sane_register (o : Object) : Sane (d.register o) := by
  intro i h
  unfold register at h
  split at h <;> cases h

theorem sane_checkNode {n : NodeData} (hf : n.isFinite = true) (i : ObjectId) (k : Kind) :
    Sane (d.checkNode i k n) := by
  rw [checkNode, if_pos hf]
  split
  · exact sane_ok ()
  · exact sane_checkReference i k _

theorem sane_checkContent {o : Object} (hf : o.IsFinite) (c : Object) :
    Sane (d.checkContent c o) := by
  cases o with
  | place p =>
    refine (sane_checkNode hf.1 p.id .place).bind fun _ => ?_
    rw [if_pos hf.2]
    exact sane_ok ()
  | transition t => exact sane_checkNode hf t.id .transition
  | arc a =>
    cases c with
    | page p =>
      rw [checkContent, checkArc, if_pos (show a.curve.all Point.isFinite = true from hf)]
      refine (sane_ok ()).bind fun _ => (sane_endpoint p a a.source).bind fun _ =>
        (sane_endpoint p a a.target).bind fun _ => ?_
      intro i h
      split at h <;> cases h
    | _ => exact sane_ok ()
  | net n => exact sane_ok ()
  | page p => exact sane_ok ()

theorem sane_check {o : Object} (hf : o.IsFinite) (parent : ObjectId) :
    Sane (d.check parent o) := by
  have hguard : ∀ (c : Bool) (e : NetError), (∀ i, e ≠ .nonFiniteGeometry i) →
      Sane (if c then .error e else .ok () : Except NetError Unit) := by
    intro c e he i h
    cases c with
    | true => exact he i (Except.error.inj h)
    | false => cases h
  rw [check_eq]
  refine (hguard o.id.isEmpty .emptyId fun i h => by cases h).bind fun _ => ?_
  split
  · intro i h
    cases h
  · next c _ =>
    refine (sane_scopeFor c o.kind).bind fun names => ?_
    refine (hguard (d.contains o.id) (.duplicateId o.id) fun i h => by cases h).bind fun _ => ?_
    exact (sane_checkName _ _ _).bind fun _ => sane_checkContent hf c

theorem sane_add {o : Object} (hf : o.IsFinite) (parent : ObjectId) : Sane (d.add parent o) := by
  refine (sane_check hf parent).bind fun _ => ?_
  unfold commit
  split
  · intro i h
    cases h
  · exact (sane_register _).bind fun _ => sane_ok _

theorem sane_addNet (n : Net) : Sane (d.addNet n) := by
  unfold addNet
  split
  · intro i h
    cases h
  · exact sane_register _

theorem sane_setReference (i : ObjectId) (r : Option ObjectId) : Sane (d.setReference i r) := by
  unfold setReference
  split
  · intro j h
    cases h
  · split
    · intro j h
      cases h
    · refine Sane.bind ?_ fun _ => sane_ok _
      cases r with
      | none => exact sane_ok ()
      | some target =>
        refine (sane_checkReference _ _ _).bind fun _ => ?_
        intro j h
        split at h <;> cases h

end Document

end Refusals

namespace Pnml

open Text (linesAt)
open Xml (Markup Node)

/-- The fault is a number in the text: one that is not finite, or none at all. -/
def ReadError.IsNumeric : ReadError → Prop
  | .invalidNumber .. => True
  | .refused (.nonFiniteGeometry _) => True
  | _ => False

def Step.IsSafe (s : Step) : Prop := ∀ d cause, refusal d s = some cause → ¬ cause.IsNumeric

section Steps

variable {s : Step} {steps : List Step}

theorem isSafe_edit {change : Edit} (h : ∀ d : Document, Sane (d.edit change)) :
    Step.IsSafe (.edit change) := by
  intro d cause hcause hnumeric
  simp only [refusal] at hcause
  split at hcause
  · cases hcause
  · next fault hfault =>
    cases hcause
    cases fault <;> first | exact hnumeric | exact h d _ hfault

theorem isSafe_addNet (n : Net) : Step.IsSafe (.edit (.addNet n)) :=
  isSafe_edit fun _ => Document.sane_addNet n

theorem isSafe_add {o : Object} (hf : o.IsFinite) (parent : ObjectId) :
    Step.IsSafe (.edit (.add parent o)) :=
  isSafe_edit fun _ => Document.sane_add hf parent

theorem isSafe_finished (n : ObjectId) (format : NetFormat) : Step.IsSafe (.finished n format) :=
  fun _ _ h => by cases h

theorem isSafe_of_linkOf? {n : Node} (h : linkOf? n = some s) : s.IsSafe := by
  unfold linkOf? at h
  split at h
  · split at h
    · cases h
      exact isSafe_edit fun _ => Document.sane_setReference _ _
    · cases h
  · cases h

theorem isSafe_of_mem_nestedLinks {ns : List Node} (h : s ∈ nestedLinks ns) : s.IsSafe := by
  rw [nestedLinks_eq (.net ⟨""⟩), List.mem_filterMap] at h
  obtain ⟨v, -, hv⟩ := h
  exact isSafe_of_linkOf? hv

theorem not_isNumeric_of_result (h : ∀ s ∈ steps, s.IsSafe) {d : Document} {cause : ReadError}
    (hr : (perform d steps).result = .error cause) : ¬ cause.IsNumeric := by
  rcases advance_cases d steps with
    ⟨e, he⟩ | ⟨first, step, last, e, fault, rfl, -, hrefused, hstops⟩
  · rw [(performs_of_advance he).perform_eq.2] at hr
    cases hr
  · rw [hstops.perform_eq.2] at hr
    cases hr
    exact h step (by simp) e cause hrefused

end Steps

section Written

variable {d : Document} {m : Markup}

theorem isFinite_fresh {o : Object} (h : o.IsFinite) : o.fresh.IsFinite := by
  cases o with
  | place p =>
    refine ⟨h.1, ?_⟩
    dsimp only [Object.fresh]
    split
    · decide
    · exact h.2
  | transition t => exact h
  | arc a => exact h
  | net n => trivial
  | page p => trivial

def Harmless (m : Markup) : Prop :=
  m.IsSound → ∀ parent depth, ∀ s ∈ pageSteps parent (m.node depth), s.IsSafe

variable (hf : d.Finite)
include hf

theorem isSafe_of_mem_nodeSteps {p : Page} {nested : List PageTree}
    (hs : Markup.AreSound (pageParts d p nested)) {depth : Nat} {s : Step}
    (h : s ∈ nodeSteps p.id ((pageBlock d p nested).node depth)) : s.IsSafe := by
  have htext : ∀ n : Node, n.isElement = false →
      (nodeOf? n).map (admission p.id) = none := by
    intro n hn
    cases n with
    | element tag attributes children => cases hn
    | text content => rfl
    | aside => rfl
  rw [nodeSteps, filterMap_elements htext, pageBlock, elements_block hs,
    filterMap_pageParts fun n hn => by rw [hn.1]; rfl] at h
  obtain ⟨n, hn, hstep⟩ := List.mem_filterMap.mp h
  obtain ⟨m, hm, rfl⟩ := List.mem_map.mp hn
  have hsound := (areSound_pageParts hs).1 m hm
  obtain ⟨i, -, hi⟩ := List.mem_filterMap.mp hm
  obtain ⟨o, ho, hm⟩ := Option.bind_eq_some_iff.mp hi
  have hfinite := hf i o ho
  rw [(node_nodeElement? hm hsound hfinite (depth + 1)).1] at hstep
  cases hstep
  exact isSafe_add (isFinite_fresh hfinite) p.id

theorem harmless_pageBlock {p : Page} {nested : List PageTree}
    (hnested : ∀ m ∈ pagesMarkup d nested, Harmless m) : Harmless (pageBlock d p nested) := by
  intro hsound parent depth s h
  have hs : Markup.AreSound (pageParts d p nested) := by
    rw [pageBlock, Markup.IsSound] at hsound
    exact hsound.2
  rw [pageSteps_pageBlock hs, List.mem_cons, List.mem_append, List.mem_append] at h
  rcases h with rfl | (h | h) | h
  · exact isSafe_add (isFinite_fresh (o := .page p) trivial) parent
  · exact isSafe_of_mem_nodeSteps hf hs h
  · obtain ⟨n, hn, rfl⟩ := List.mem_map.mp h
    obtain ⟨m, hm, rfl⟩ := List.mem_map.mp hn
    have harc := (areSound_pageParts hs).2.1 m hm
    obtain ⟨i, -, hi⟩ := List.mem_filterMap.mp hm
    obtain ⟨a, ha, rfl⟩ := Option.map_eq_some_iff.mp hi
    have hfinite := hf i _ (Document.arc?_eq_some_iff.mp ha)
    rw [arcOf_arcMarkup harc hfinite]
    exact isSafe_add (o := (Object.arc a).fresh) (isFinite_fresh hfinite) p.id
  · obtain ⟨n, hn, h⟩ := List.mem_flatMap.mp h
    obtain ⟨m, hm, rfl⟩ := List.mem_map.mp hn
    exact hnested m hm ((areSound_pageParts hs).2.2 m hm) p.id (depth + 1) s h

theorem isSafe_of_mem_script (hs : (markup d).IsSound) :
    ∀ s ∈ script ((markup d).node 0), s.IsSafe := by
  have hnet : ∀ n ∈ d.nets, ∀ s ∈ netSteps ((netMarkup d n).node 1), s.IsSafe := by
    intro n hn s h
    have hsound := isSound_netMarkup hs hn
    simp only [netSteps, netOf_netMarkup hsound 1] at h
    rw [nestedSteps_children, pages_netMarkup hsound] at h
    simp only [List.cons_append, List.mem_cons, List.mem_append, List.not_mem_nil, or_false] at h
    rcases h with rfl | (h | h) | rfl
    · exact isSafe_addNet _
    · obtain ⟨x, hx, h⟩ := List.mem_flatMap.mp h
      obtain ⟨m, hm, rfl⟩ := List.mem_map.mp hx
      have hpages := forall_pagesMarkup (fun p nested => harmless_pageBlock hf) _ m hm
      exact hpages (Markup.areSound_iff.mp (areSound_forest hsound) m hm) n.id 2 s h
    · exact isSafe_of_mem_nestedLinks h
    · exact isSafe_finished _ _
  intro s h
  rw [script, netElements_markup hs] at h
  split at h
  · rw [List.mem_singleton.mp h]
    intro e cause hcause
    cases hcause
    exact id
  · rw [List.flatMap_map] at h
    obtain ⟨n, hn, h⟩ := List.mem_flatMap.mp h
    exact hnet n hn s h

end Written

section Legible

variable {d : Document} {m : Markup}

def Legible (m : Markup) : Prop := ∀ s ∈ m.strings, IsLegal s

theorem Legible.parts {tag : String} {attributes : List (String × String)} {parts : List Markup}
    (h : Legible (.block tag attributes parts)) : ∀ m ∈ parts, Legible m := by
  intro m hm s hs
  refine h s ?_
  rw [Markup.strings]
  exact List.mem_append_right _ (strings_subset hm hs)

theorem Legible.attributes {tag : String} {attributes : List (String × String)}
    {parts : List Markup} (h : Legible (.block tag attributes parts)) :
    ∀ a ∈ attributes, IsLegal a.2 := by
  intro a ha
  refine h _ ?_
  rw [Markup.strings]
  exact List.mem_append_left _ (List.mem_map_of_mem ha)

theorem isSound_of_mem_nameMarkup {name : Option String} (hm : m ∈ nameMarkup name)
    (h : Legible m) : m.IsSound := by
  refine isSound_nameMarkup (fun s hs => ?_) hm
  rcases mem_strings_nameMarkup hs with rfl | hs
  · exact Xml.legal_nil
  · rw [Markup.allStrings_eq_flatMap] at hs
    obtain ⟨m', hm', hs⟩ := List.mem_flatMap.mp hs
    have hone : m' = m := by
      rcases nameMarkup_cases name with ⟨-, hnone⟩ | ⟨text, -, -, hsome⟩
      · rw [hnone] at hm
        cases hm
      · rw [hsome, List.mem_singleton] at hm hm'
        rw [hm, hm']
    exact h s (hone ▸ hs)

theorem isSound_of_nodeElement? {o : Object} (hf : o.IsFinite) (hm : nodeElement? o = some m)
    (h : Legible m) : m.IsSound := by
  obtain ⟨hid, hname⟩ := shows_nodeElement? hm
  refine isSound_nodeElement? hm (h _ hid) (fun s hs => ?_) (fun r hr => h _ ?_) hf
  · rcases hname s hs with rfl | hs
    · exact Xml.legal_nil
    · exact h s hs
  · cases o with
    | place p =>
      cases hm
      have hr : p.node.reference = some r := hr
      simp [placeMarkup, nodeMarkup_eq, hr, Markup.strings, Xml.attributeStrings]
    | transition t =>
      cases hm
      have hr : t.node.reference = some r := hr
      simp [transitionMarkup, nodeMarkup_eq, hr, Markup.strings, Xml.attributeStrings]
    | _ => cases hm

theorem isSound_of_legible_arcMarkup {a : Arc} (hf : (Object.arc a).IsFinite)
    (h : Legible (arcMarkup a)) : (arcMarkup a).IsSound := by
  obtain ⟨hid, hname⟩ := shows_arcMarkup a
  refine isSound_arcMarkup (h _ hid) (fun s hs => ?_) (h _ ?_) (h _ ?_) hf
  · rcases hname s hs with rfl | hs
    · exact Xml.legal_nil
    · exact h s hs
  all_goals simp [arcMarkup, Markup.strings, Xml.attributeStrings]

variable (hf : d.Finite)
include hf

theorem isSound_of_legible_pageBlock {p : Page} {nested : List PageTree}
    (hnested : ∀ m ∈ pagesMarkup d nested, Legible m → m.IsSound)
    (h : Legible (pageBlock d p nested)) : (pageBlock d p nested).IsSound := by
  refine isSound_block (isTag_of_names ["id"] rfl ⟨by decide, by decide, by decide⟩
    h.attributes) fun m hm => ?_
  have hlegible := h.parts m hm
  simp only [pageParts, List.mem_append] at hm
  rcases hm with ((hm | hm) | hm) | hm
  · exact isSound_of_mem_nameMarkup hm hlegible
  · obtain ⟨i, -, hi⟩ := List.mem_filterMap.mp hm
    obtain ⟨o, ho, hm⟩ := Option.bind_eq_some_iff.mp hi
    exact isSound_of_nodeElement? (hf i o ho) hm hlegible
  · obtain ⟨i, -, hi⟩ := List.mem_filterMap.mp hm
    obtain ⟨a, ha, rfl⟩ := Option.map_eq_some_iff.mp hi
    exact isSound_of_legible_arcMarkup (hf i _ (Document.arc?_eq_some_iff.mp ha)) hlegible
  · exact hnested m hm hlegible

theorem isSound_of_legible_markup (h : Legible (markup d)) : (markup d).IsSound := by
  refine isSound_block ⟨by decide, ?_, h.attributes, by simp, ?_⟩ fun m hm => ?_
  · exact fun a ha => by rw [List.mem_singleton.mp ha]; decide
  · exact fun a ha _ => by rw [List.mem_singleton.mp ha]; decide
  · have hlegible := h.parts m hm
    obtain ⟨n, -, rfl⟩ := List.mem_map.mp hm
    refine isSound_block (isTag_of_names ["id", "type"] rfl ⟨by decide, by decide, by decide⟩
      hlegible.attributes) fun m hm => ?_
    have hpart := hlegible.parts m hm
    rcases List.mem_append.mp hm with hm | hm
    · exact isSound_of_mem_nameMarkup hm hpart
    · exact forall_pagesMarkup (fun p nested hnested => isSound_of_legible_pageBlock hf hnested) _
        m hm hpart

theorem not_isNumeric_read_write {e : Document} {cause : ReadError}
    (h : (read e (write d)).result = .error cause) : ¬ cause.IsNumeric := by
  cases hroot : Xml.parse? (write d) with
  | none =>
    rw [read, hroot] at h
    cases h
    exact id
  | some root =>
    have hlegal := Xml.legal_of_parse? (s := write d) (by rw [hroot]; rfl)
    have hs := isSound_of_legible_markup hf (Markup.legal_strings_document hlegal)
    have hparse : Xml.parse? (write d) = some ((markup d).node 0) := Xml.parse?_renderDocument hs
    rw [read, hparse] at h
    exact not_isNumeric_of_result (isSafe_of_mem_script hf hs) h

end Legible

/-- All coordinates are finite, in the document, in its text and when that is read again. -/
structure StaysFinite (d : Document) : Prop where
  stored : ∀ o ∈ d.toList, o.IsFinite
  printed : ∀ line ∈ linesAt coordinateWords (write d), IsPointLine line
  reread : ∀ (e : Document) (cause : ReadError), (read e (write d)).result = .error cause →
    (∀ i, cause ≠ .refused (.nonFiniteGeometry i)) ∧
      ∀ context value, cause ≠ .invalidNumber context value

/-- Only finite coordinates are ever stored, whatever is admitted, moved, read and laid out, and
whether it succeeds or not. So only numerals are printed, and they are read again. -/
theorem staysFinite_of_reachable {d : Document} (hd : d.Reachable Edit.StoresFinite) :
    StaysFinite d := by
  have hleads : Document.Leads Edit.StoresFinite {} d :=
    hd.leads (fun _ => id) fun _ hc => hc.storesFinite
  have hfinite : d.Finite := hleads.finite
  constructor
  case stored => exact fun o ho => hfinite o.id o (hleads.registered.mem_toList.mp ho)
  case printed => exact fun line hl => isPointLine_of_mem_linesAt hfinite hl
  case reread =>
    intro e cause h
    have hnot := not_isNumeric_read_write hfinite h
    exact ⟨fun i he => hnot (he ▸ trivial), fun context value he => hnot (he ▸ trivial)⟩

def hostileText : String :=
  "<net id='m' type='http://www.pnml.org/version-2009/grammar/ptnet'><page id='q'>" ++
    "<place id='c'><graphics><position x='NaN'/></graphics></place></page></net>"

/-- Every way in is tried with a coordinate that is not finite. Four objects are refused and one is
not moved; with such a side for the nodes the page is not laid out, and of the text only the net and
its page come in. -/
def hostileRun : List Action :=
  let bad : Point := { x := 0 / 0, y := 1 / 0 }
  [.edit (.addNet { id := ⟨"n"⟩, format := .placeTransition }),
    .edit (.add ⟨"n"⟩ (.page { id := ⟨"p"⟩ })),
    .edit (.add ⟨"p"⟩ (.place { id := ⟨"a"⟩, node := { position := bad } })),
    .edit (.add ⟨"p"⟩ (.place { id := ⟨"a"⟩, markingOffset := bad })),
    .edit (.add ⟨"p"⟩ (.transition { id := ⟨"s"⟩, node := { size := bad } })),
    .edit (.add ⟨"p"⟩ (.place { id := ⟨"b"⟩ })),
    .edit (.add ⟨"p"⟩ (.transition { id := ⟨"t"⟩ })),
    .edit (.add ⟨"p"⟩ (.arc { id := ⟨"u"⟩, source := ⟨"b"⟩, target := ⟨"t"⟩, curve := [bad] })),
    .edit (.add ⟨"p"⟩ (.arc { id := ⟨"v"⟩, source := ⟨"b"⟩, target := ⟨"t"⟩ })),
    .edit (.setGeometry ⟨"b"⟩ bad bad),
    .layoutPage ⟨"p"⟩ { nodeSize := 0 / 0 },
    .layoutNet ⟨"n"⟩ {},
    .read hostileText]

theorem uses_hostileRun : ∀ a ∈ hostileRun, a.Uses Edit.StoresFinite := by
  intro a ha
  simp only [hostileRun, List.mem_cons, List.not_mem_nil, or_false] at ha
  rcases ha with rfl | rfl | rfl | rfl | rfl | rfl | rfl | rfl | rfl | rfl | rfl | rfl | rfl
  all_goals trivial

theorem staysFinite_hostileRun :
    (run hostileRun).Reachable Edit.StoresFinite ∧ StaysFinite (run hostileRun) ∧
      (run hostileRun).keys = [⟨"n"⟩, ⟨"p"⟩, ⟨"b"⟩, ⟨"t"⟩, ⟨"v"⟩, ⟨"m"⟩, ⟨"q"⟩] := by
  have hd : (run hostileRun).Reachable Edit.StoresFinite := ⟨hostileRun, uses_hostileRun, rfl⟩
  exact ⟨hd, staysFinite_of_reachable hd, by decide +kernel⟩

end Pnml

end PagedNets
