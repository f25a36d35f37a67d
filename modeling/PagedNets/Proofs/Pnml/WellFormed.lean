import PagedNets.Proofs.Pnml.NormalForm
import PagedNets.Proofs.Pnml.Stopping
import PagedNets.Proofs.Xml.Strings

set_option autoImplicit false

namespace PagedNets.Pnml

open Xml (Legal Markup Node)
open Document (run)

structure Shows (ss : List String) (o : Object) : Prop where
  id : o.id.text ∈ ss
  name : ∀ s ∈ o.name, s = "" ∨ s ∈ ss

section Strings

variable {d : Document} {i : ObjectId} {o : Object} {ss ts : List String} {m : Markup}
  {ms : List Markup}

theorem Shows.mono (h : Shows ss o) (hs : ss ⊆ ts) : Shows ts o :=
  ⟨hs h.id, fun s hm => (h.name s hm).imp_right fun hn => hs hn⟩

theorem strings_subset (h : m ∈ ms) : m.strings ⊆ Markup.allStrings ms := by
  intro s hs
  rw [Markup.allStrings_eq_flatMap]
  exact List.mem_flatMap.mpr ⟨m, h, hs⟩

theorem allStrings_subset {ns : List Markup} (h : ms ⊆ ns) :
    Markup.allStrings ms ⊆ Markup.allStrings ns := by
  intro s hs
  rw [Markup.allStrings_eq_flatMap] at hs
  obtain ⟨m, hm, hs⟩ := List.mem_flatMap.mp hs
  exact strings_subset (h hm) hs

theorem mem_strings_nameMarkup {name : Option String} {s : String} (h : s ∈ name) :
    s = "" ∨ s ∈ Markup.allStrings (nameMarkup name) := by
  obtain rfl : name = some s := h
  cases hempty : s.isEmpty with
  | true => exact .inl (String.isEmpty_iff.mp hempty)
  | false =>
    have hname : nameMarkup (some s) =
        [.line (.element "name" [] [.element "text" [] [.text s]])] := by
      simp [nameMarkup, hempty, Option.filter]
    rw [hname]
    exact .inr (by simp [Markup.allStrings, Markup.strings, Xml.Inline.strings,
      Xml.Inline.allStrings, Xml.attributeStrings])

theorem shows_block {tag : String} {attributes : List (String × String)} {parts : List Markup}
    (hid : o.id.text ∈ Xml.attributeStrings attributes) (hname : nameMarkup o.name ⊆ parts) :
    Shows (Markup.block tag attributes parts).strings o := by
  rw [Markup.strings]
  refine ⟨List.mem_append_left _ hid, fun s hs => ?_⟩
  exact (mem_strings_nameMarkup hs).imp_right fun hm =>
    List.mem_append_right _ (allStrings_subset hname hm)

theorem shows_nodeElement? (h : nodeElement? o = some m) : Shows m.strings o := by
  have hnode : ∀ tag aliasTag data parts, nameMarkup o.name ⊆ parts →
      Shows (nodeMarkup tag aliasTag o.id data parts).strings o := by
    intro tag aliasTag data parts hparts
    unfold nodeMarkup
    split
    · exact shows_block (by simp [Xml.attributeStrings]) hparts
    · exact shows_block (by simp [Xml.attributeStrings]) hparts
  cases o with
  | place p =>
    cases h
    exact hnode _ _ _ _ (List.subset_append_left _ _)
  | transition t =>
    cases h
    exact hnode _ _ _ _ (List.subset_append_left _ _)
  | _ => cases h

theorem shows_arcMarkup (a : Arc) : Shows (arcMarkup a).strings (.arc a) :=
  shows_block (by simp [Xml.attributeStrings, Object.id])
    (List.append_assoc _ _ _ ▸ List.subset_append_left _ _)

theorem shows_walk (hc : d.Contained) {fuel : Nat} {keys : List ObjectId}
    (hi : i ∈ d.walk fuel keys) (ho : d.object? i = some o) :
    Shows (Markup.allStrings (pagesMarkup d (d.unfold fuel keys))) o := by
  induction fuel generalizing keys with
  | zero => cases hi
  | succ fuel ih =>
    obtain ⟨k, hk, p, hp, hi⟩ := Document.mem_walk_succ.mp hi
    have hmem : .block "page" [("id", p.id.text)] (nameMarkup p.name ++ nodesMarkup d p ++
        arcsMarkup d p ++ pagesMarkup d (d.unfold fuel p.pages)) ∈
          pagesMarkup d (d.unfold (fuel + 1) keys) := by
      rw [pagesMarkup_eq_flatMap, Document.unfold, List.flatMap_map]
      refine List.mem_flatMap.mpr ⟨k, hk, ?_⟩
      rw [hp]
      exact List.mem_singleton_self _
    have hparts : Markup.allStrings (nameMarkup p.name ++ nodesMarkup d p ++ arcsMarkup d p ++
        pagesMarkup d (d.unfold fuel p.pages)) ⊆
          Markup.allStrings (pagesMarkup d (d.unfold (fuel + 1) keys)) := fun s hs =>
      strings_subset hmem (List.mem_append_right _ hs)
    rcases hi with rfl | hi | hi | hi
    · rw [Document.page?_eq_some_iff.mp hp] at ho
      cases ho
      refine (shows_block ?_ ?_).mono (strings_subset hmem)
      · simp [Xml.attributeStrings, Object.id]
      · simp only [List.append_assoc]
        exact List.subset_append_left _ _
    · obtain ⟨x, hx, hkind, -⟩ := ((hc.nodes k p hp).2 i).mp hi
      obtain rfl : o = x := Option.some.inj (ho.symm.trans hx)
      obtain ⟨m, hm⟩ : ∃ m, nodeElement? o = some m := by
        cases o <;> first | exact ⟨_, rfl⟩ | cases hkind
      refine (shows_nodeElement? hm).mono fun s hs => hparts (strings_subset ?_ hs)
      have hnodes : m ∈ nodesMarkup d p := List.mem_filterMap.mpr ⟨i, hi, by rw [ho]; exact hm⟩
      simp [hnodes]
    · obtain ⟨a, ha, -⟩ := ((hc.arcs k p hp).2 i).mp hi
      obtain rfl : o = .arc a := Option.some.inj (ho.symm.trans (Document.arc?_eq_some_iff.mp ha))
      refine (shows_arcMarkup a).mono fun s hs => hparts (strings_subset ?_ hs)
      have harcs : arcMarkup a ∈ arcsMarkup d p := List.mem_filterMap.mpr ⟨i, hi, by rw [ha]; rfl⟩
      simp [harcs]
    · refine (ih hi).mono fun s hs => hparts (allStrings_subset ?_ hs)
      exact List.subset_append_right _ _

theorem shows_markup (hd : d.Reachable Edit.IsPlain) (ho : d.object? i = some o) :
    Shows (markup d).strings o := by
  have hr := hd.registered
  have hi : i ∈ d.preorder := hd.mem_preorder.mpr (Document.mem_keys_of_object? ho)
  obtain ⟨n, hn, hi⟩ := List.mem_flatMap.mp hi
  have hnet : (netMarkup d n).strings ⊆ (markup d).strings := by
    intro s hs
    rw [markup, Markup.strings]
    exact List.mem_append_right _ (strings_subset (List.mem_map_of_mem hn) hs)
  rcases List.mem_cons.mp hi with rfl | hi
  · have hfound := Document.net?_eq_some_iff.mp ((Document.mem_nets hr).mp hn)
    obtain rfl : o = .net n := Option.some.inj (ho.symm.trans hfound)
    refine (shows_block ?_ ?_).mono hnet
    · simp [Xml.attributeStrings, Object.id]
    · exact List.subset_append_left _ _
  · refine (shows_walk (Document.contained_of_tabled hr hd.tabled) hi ho).mono fun s hs => hnet ?_
    rw [netMarkup, Markup.strings]
    exact List.mem_append_right _ (allStrings_subset (List.subset_append_right _ _) hs)

/-- Nothing illegal can be hidden in a legal text. -/
theorem isLegal_of_legal_write (hd : d.Reachable Edit.IsPlain) (h : Legal (write d).toList) :
    d.IsLegal := by
  have hstrings := Markup.legal_strings_document h
  intro o ho
  obtain ⟨hid, hname⟩ := shows_markup hd (hd.registered.mem_toList.mp ho)
  refine ⟨hstrings _ hid, fun s hs => ?_⟩
  rcases hname s hs with rfl | hm
  · exact Xml.legal_nil
  · exact hstrings s hm

end Strings

section Malformed

variable {d : Document} {steps rest : List Step} {root : Node}

theorem ne_malformed_perform (hs : Step.fail .malformed ∉ steps)
    (hrest : ∀ e, (perform e rest).result ≠ .error .malformed) (d : Document) :
    (perform d (steps ++ rest)).result ≠ .error .malformed := by
  induction steps generalizing d with
  | nil => exact hrest d
  | cons step steps ih =>
    have hlater := ih fun h => hs (List.mem_cons_of_mem _ h)
    cases step with
    | edit change =>
      rw [List.cons_append, perform]
      split
      · intro h
        cases h
      · exact hlater _
    | finished net format =>
      rw [List.cons_append, perform]
      intro h
      cases hr : (perform d (steps ++ rest)).result with
      | error cause =>
        rw [hr] at h
        cases h
        exact hlater d hr
      | ok nets =>
        rw [hr] at h
        cases h
    | fail fault =>
      intro h
      cases h
      exact hs List.mem_cons_self

theorem not_fail_of_visit (v : Visit) : v.step ≠ .fail .malformed := by
  intro h
  have hrefusal : refusal {} v.step = some .malformed := by
    rw [h]
    rfl
  exact ofPart_of_refusal hrefusal

theorem ne_malformed_script (root : Node) (d : Document) :
    (perform d (script root)).result ≠ .error .malformed := by
  by_cases hnil : netElements root = []
  · rw [script, hnil]
    intro h
    cases h
  rw [script_eq hnil]
  generalize netElements root = ns
  induction ns generalizing d with
  | nil =>
    intro h
    cases h
  | cons n ns ih =>
    obtain ⟨format, h⟩ := perform_netSteps n
    rw [List.flatMap_cons, h]
    have hfinished : Step.fail .malformed ∉ [Step.finished (idOf n) format] := by simp
    have hlast : ∀ e, (perform e (.finished (idOf n) format :: ns.flatMap netSteps)).result ≠
        .error .malformed :=
      ne_malformed_perform hfinished ih
    refine ne_malformed_perform ?_ (ne_malformed_perform ?_ hlast) d
    · intro hm
      obtain ⟨v, -, hv⟩ := List.mem_map.mp hm
      exact not_fail_of_visit v hv
    · intro hm
      rw [nestedLinks_eq (.net (idOf n)), List.mem_filterMap] at hm
      obtain ⟨v, -, hv⟩ := hm
      unfold linkOf? at hv
      split at hv
      · split at hv <;> cases hv
      · cases hv

theorem read_malformed_iff (d : Document) (text : String) :
    (read d text).result = .error .malformed ↔ (Xml.parse? text).isSome = false := by
  rw [read]
  cases hroot : Xml.parse? text with
  | none => simp
  | some root => simpa using ne_malformed_script root d

end Malformed

variable {d : Document}

theorem isSome_parse?_write_iff (hd : d.Reachable Edit.IsChecked) :
    (Xml.parse? (write d)).isSome = true ↔ d.IsLegal := by
  constructor
  · exact fun h => isLegal_of_legal_write hd.isPlain (Xml.legal_of_parse? h)
  · intro hl
    have hparse : Xml.parse? (write d) = some ((markup d).node 0) :=
      Xml.parse?_renderDocument (isSound_markup hd.isPlain hd.finite hl)
    rw [hparse]
    rfl

/-- A document is written as well-formed markup if and only if all characters of its identifiers and
names are legal. If one is not, the text cannot be read into any document. -/
theorem wellFormed_write_iff (hd : d.Reachable Edit.IsChecked) :
    ((Xml.parse? (write d)).isSome = true ↔ d.IsLegal) ∧
      ∀ e, (read e (write d)).result = .error .malformed ↔ ¬ d.IsLegal := by
  have hiff := isSome_parse?_write_iff hd
  refine ⟨hiff, fun e => ?_⟩
  rw [read_malformed_iff, ← hiff, Bool.not_eq_true]

def controlEdits : List Edit :=
  [.addNet { id := ⟨"n"⟩, format := .placeTransition }, .setName ⟨"n"⟩ (some "\u0001")]

theorem isChecked_controlEdits : ∀ change ∈ controlEdits, change.IsChecked := by
  intro change hc
  simp only [controlEdits, List.mem_cons, List.not_mem_nil, or_false] at hc
  rcases hc with rfl | rfl
  · exact ⟨rfl, rfl⟩
  · trivial

theorem reachable_controlEdits : (run (controlEdits.map .edit)).Reachable Edit.IsChecked := by
  refine ⟨controlEdits.map .edit, fun a ha => ?_, rfl⟩
  obtain ⟨change, hc, rfl⟩ := List.mem_map.mp ha
  exact isChecked_controlEdits change hc

theorem wellFormed_write_controlEdits :
    (run (controlEdits.map .edit)).Reachable Edit.IsChecked ∧
      (read {} (write (run (controlEdits.map .edit)))).result = .error .malformed :=
  ⟨reachable_controlEdits,
    ((wellFormed_write_iff reachable_controlEdits).2 {}).mpr (by decide)⟩

theorem control_malformed : ¬ ∀ changes : List Edit, (∀ change ∈ changes, change.IsChecked) →
    (read {} (write (run (changes.map .edit)))).result ≠ .error .malformed := by
  intro h
  have hlegal : ¬ (run (controlEdits.map .edit)).IsLegal := by decide
  refine h controlEdits isChecked_controlEdits ((read_malformed_iff _ _).mpr ?_)
  rwa [← isSome_parse?_write_iff reachable_controlEdits, Bool.not_eq_true] at hlegal

end PagedNets.Pnml
