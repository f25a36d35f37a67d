import PagedNets.Proofs.Document.Reproduction
import PagedNets.Proofs.Pnml.Order
import PagedNets.Proofs.Pnml.RoundTrip
import PagedNets.Proofs.Pnml.Validity
import PagedNets.Proofs.Xml.Characters

set_option autoImplicit false

namespace PagedNets.Pnml

open Xml (Node)

section Legality

variable {n : Node} {d : Document}

theorem isLegal_idOf (h : n.IsLegal) : IsLegal (idOf n).text := by
  rw [idOf]
  cases hid : n.attribute? "id" with
  | none => exact Xml.legal_nil
  | some s => exact h.attribute? hid

theorem isLegal_nameOf (h : n.IsLegal) : ∀ s ∈ nameOf n, IsLegal s := by
  intro s hs
  obtain ⟨text, htext, rfl⟩ := Option.map_eq_some_iff.mp hs
  obtain ⟨name, hname, htext⟩ := Option.bind_eq_some_iff.mp htext
  have hlegal := (h.child? hname).child? htext
  cases hcontent : text.text? with
  | none => exact Xml.legal_nil
  | some content => exact hlegal.text? hcontent

/-- Nothing but its plates decides whether a document can be written. -/
theorem isLegal_of_plates
    (h : ∀ p ∈ d.plates, IsLegal p.id.text ∧ ∀ s ∈ p.name, IsLegal s) : d.IsLegal := by
  intro o ho
  obtain ⟨hid, hname⟩ := h o.plate (List.mem_map_of_mem ho)
  refine ⟨hid, fun s hs => ?_⟩
  cases hempty : s.isEmpty with
  | true =>
    rw [String.isEmpty_iff.mp hempty]
    exact Xml.legal_nil
  | false =>
    refine hname s (Option.filter_eq_some_iff.mpr ⟨hs, ?_⟩)
    rw [hempty]
    rfl

theorem Represents.isLegal {root : Node} (h : Represents d (visits root)) (hroot : root.IsLegal) :
    d.IsLegal := by
  refine isLegal_of_plates fun p hp => ?_
  rw [h.plates] at hp
  obtain ⟨v, hv, rfl⟩ := List.mem_map.mp hp
  have hlegal := forall_visits (fun _ hn => hn.children) hroot v hv
  exact ⟨isLegal_idOf hlegal, fun s hs =>
    isLegal_nameOf hlegal s (Option.filter_eq_some_iff.mp hs).1⟩

end Legality

section Rewriting

variable {d e : Document}

theorem nameMarkup_filter (name : Option String) :
    nameMarkup (name.filter (!·.isEmpty)) = nameMarkup name := by
  rw [nameMarkup, Document.filter_nonempty_filter]
  rfl

theorem nodeElement?_reread (o : Object) : nodeElement? o.reread = nodeElement? o := by
  cases o with
  | place p =>
    have hmarking : markingMarkup { p with
        name := p.name.filter (!·.isEmpty)
        markingOffset := if p.tokens = 0 then {} else p.markingOffset } = markingMarkup p := by
      unfold markingMarkup
      split <;> simp_all
    simp only [Object.reread, nodeElement?, placeMarkup, nameMarkup_filter, hmarking]
  | transition t => simp only [Object.reread, nodeElement?, transitionMarkup, nameMarkup_filter]
  | _ => rfl

theorem arcMarkup_reread (a : Arc) :
    arcMarkup { a with name := a.name.filter (!·.isEmpty) } = arcMarkup a := by
  simp only [arcMarkup, nameMarkup_filter]

theorem pagesMarkup_eq_flatMap (d : Document) (trees : List PageTree) :
    pagesMarkup d trees = trees.flatMap (pageMarkup d) := by
  induction trees with
  | nil => rfl
  | cons tree trees ih => rw [pagesMarkup, ih, List.flatMap_cons]

variable (h : e.Reproduces d)
include h

theorem size_of_reproduces : e.size = d.size := by
  rw [← Document.length_keys, h.keys, Document.length_keys]

theorem nodesMarkup_of_reproduces (p : Page) : nodesMarkup e p = nodesMarkup d p := by
  refine List.filterMap_congr fun i _ => ?_
  rw [h.object?]
  cases d.object? i with
  | none => rfl
  | some o => exact nodeElement?_reread o

theorem arcsMarkup_of_reproduces (p : Page) : arcsMarkup e p = arcsMarkup d p := by
  refine List.filterMap_congr fun i _ => ?_
  rw [Document.arc?, Document.arc?, h.object?]
  cases d.object? i with
  | none => rfl
  | some o =>
    cases o with
    | arc a => exact congrArg some (arcMarkup_reread a)
    | _ => rfl

theorem pagesMarkup_of_reproduces (fuel : Nat) (keys : List ObjectId) :
    pagesMarkup e (e.unfold fuel keys) = pagesMarkup d (d.unfold fuel keys) := by
  induction fuel generalizing keys with
  | zero =>
    rw [pagesMarkup_eq_flatMap, pagesMarkup_eq_flatMap, Document.unfold, Document.unfold,
      List.flatMap_map, List.flatMap_map]
    rfl
  | succ fuel ih =>
    rw [pagesMarkup_eq_flatMap, pagesMarkup_eq_flatMap, Document.unfold, Document.unfold,
      List.flatMap_map, List.flatMap_map]
    refine List.flatMap_congr fun i _ => ?_
    have hpage : e.page? i =
        (d.page? i).map fun p => { p with name := p.name.filter (!·.isEmpty) } := by
      rw [Document.page?, Document.page?, h.object?]
      cases d.object? i with
      | none => rfl
      | some o => cases o <;> rfl
    rw [hpage]
    cases d.page? i with
    | none => rfl
    | some p =>
      dsimp only [Option.map_some]
      rw [pageMarkup, pageMarkup, nameMarkup_filter, nodesMarkup_of_reproduces h,
        arcsMarkup_of_reproduces h, ih]
      rfl

theorem netMarkup_of_reproduces (n : Net) :
    netMarkup e { n with name := n.name.filter (!·.isEmpty) } = netMarkup d n := by
  simp only [netMarkup, nameMarkup_filter, Document.forest, size_of_reproduces h,
    pagesMarkup_of_reproduces h]

theorem write_of_reproduces : write e = write d := by
  have hnets : e.nets = d.nets.map fun n => { n with name := n.name.filter (!·.isEmpty) } := by
    rw [Document.nets, Document.nets, h.toList, List.filterMap_map, List.map_filterMap]
    exact List.filterMap_congr fun o _ => by cases o <;> rfl
  rw [write, write, markup, markup, hnets, List.map_map]
  refine congrArg (fun nets => Xml.renderDocument (.block "pnml" _ nets))
    (List.map_congr_left fun n _ => ?_)
  exact netMarkup_of_reproduces h n

end Rewriting

theorem reachable_read {allowed : Edit → Prop} (text : String) :
    (read {} text).document.Reachable allowed := by
  refine ⟨[.read text], fun action ha => ?_, rfl⟩
  rw [List.mem_singleton.mp ha]
  trivial

theorem tree_of_result {text : String} {nets : List ObjectId}
    (h : (read {} text).result = .ok nets) : ∃ root : Node, root.IsLegal ∧
      netElements root ≠ [] ∧ NetsResolved [] (netElements root) ∧
      nets = (netElements root).map idOf ∧ Represents (read {} text).document (visits root) := by
  obtain ⟨root, hroot⟩ := exists_root_of_result (by rw [h]; simp)
  have hread : read {} text = perform {} (script root) := by rw [read, hroot]
  rw [hread] at h ⊢
  obtain ⟨hne, -, -, hresolved, -⟩ := (exists_result_script_iff root).mp ⟨nets, h⟩
  exact ⟨root, Xml.isLegal_parse? hroot, hne, hresolved, eq_of_result_script h,
    represents_of_result h⟩

/-- What was read without a fault is written in a form that is read back as the same objects in the
same order, and written again as it is. -/
theorem read_write_normal {text : String} {nets : List ObjectId}
    (h : (read {} text).result = .ok nets) :
    let d := (read {} text).document
    let e := (read {} (write d)).document
    (read {} (write d)).result = .ok nets ∧ write e = write d ∧
      e.toList = d.toList.map Object.reread := by
  intro d e
  obtain ⟨root, hlegal, hne, hresolved, hnets, hrepresents⟩ := tree_of_result h
  have hfin : d.Finite := (reachable_read text).finite
  have hnonempty : d.nets ≠ [] := by
    intro hnil
    have hids := hrepresents.ids_nets
    rw [hnil] at hids
    exact hne (List.map_eq_nil_iff.mp hids.symm)
  have hplain := hrepresents.reachable
  -- What an alias refers to is written before its own net ends, so that no step fails.
  obtain ⟨f, hperforms, hcopies, hlinks⟩ :=
    replayed hplain hfin (hrepresents.backward hresolved)
  obtain ⟨hdocument, hresult⟩ := hperforms.perform_eq
  rw [← read_write_eq hplain hfin hnonempty (hrepresents.isLegal hlegal)] at hdocument hresult
  have hscoped : e.Scoped := Document.scoped_read (write d)
  have he : e = f := hdocument
  have hreproduces : e.Reproduces d := by
    rw [he] at hscoped ⊢
    exact hcopies.reproduces hplain hrepresents.preorder_eq hlinks (Document.scoped_read text)
      hscoped
  refine ⟨?_, write_of_reproduces hreproduces, hreproduces.toList⟩
  rw [hresult, hrepresents.ids_nets, hnets]

/-- A nested page comes first, an alias comes before its referent, and the referent has an empty
name. -/
def disorderedText : String :=
  "<net id='n' type=' http://www.pnml.org/version-2009/grammar/PTnet'><page id='p'>" ++
    "<page id='q'/><referencePlace id='r' ref='a'/>" ++
    "<place id='a'><name><text/></name></place></page></net>"

theorem read_write_disorderedText :
    (read {} disorderedText).result = .ok [⟨"n"⟩] ∧
      (read {} (write (read {} disorderedText).document)).result = .ok [⟨"n"⟩] ∧
      write (read {} (write (read {} disorderedText).document)).document =
        write (read {} disorderedText).document ∧
      (read {} (write (read {} disorderedText).document)).document.toList =
        (read {} disorderedText).document.toList.map Object.reread := by
  have h : (read {} disorderedText).result = .ok [⟨"n"⟩] := by decide +kernel
  exact ⟨h, read_write_normal h⟩

end PagedNets.Pnml
