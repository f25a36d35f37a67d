import PagedNets.Proofs.Pnml.Elements
import PagedNets.Proofs.Pnml.Replay

set_option autoImplicit false

namespace PagedNets.Pnml

open Document (arrival)
open Xml (Node Markup Inline)

section Tags

variable {d : Document} {p : Page} {m : Markup} {depth : Nat} {t : String}

theorem isTagged_eq_true_iff {n : Node} : n.isTagged t = true ↔ n.isElement = true ∧ n.tag = t := by
  cases n <;> simp [Node.isTagged, Node.isElement, Node.tag]

theorem filter_isTagged_eq_self {ms : List Markup} (hs : Markup.AreSound ms)
    (h : ∀ m ∈ ms, (m.node depth).tag = t) :
    (ms.map (Markup.node depth)).filter (Node.isTagged t) = ms.map (Markup.node depth) := by
  rw [List.filter_eq_self]
  intro n hn
  obtain ⟨m, hm, rfl⟩ := List.mem_map.mp hn
  rw [Markup.areSound_iff] at hs
  exact isTagged_eq_true_iff.mpr ⟨Markup.isElement_node (hs m hm) depth, h m hm⟩

theorem filter_isTagged_eq_nil {ms : List Markup} (h : ∀ m ∈ ms, (m.node depth).tag ≠ t) :
    (ms.map (Markup.node depth)).filter (Node.isTagged t) = [] := by
  rw [List.filter_eq_nil_iff]
  intro n hn htag
  obtain ⟨m, hm, rfl⟩ := List.mem_map.mp hn
  exact h m hm (isTagged_eq_true_iff.mp htag).2

theorem tag_nameMarkup {name : Option String} (hm : m ∈ nameMarkup name) :
    (m.node depth).tag = "name" := by
  rcases nameMarkup_cases name with ⟨_, hnone⟩ | ⟨text, _, _, hsome⟩
  · rw [hnone] at hm
    cases hm
  · rw [hsome] at hm
    rw [List.mem_singleton.mp hm]
    rfl

theorem tag_nodesMarkup (hm : m ∈ nodesMarkup d p) (depth : Nat) : (m.node depth).tag ∈
    ["place", "referencePlace", "transition", "referenceTransition"] := by
  obtain ⟨i, _, hi⟩ := List.mem_filterMap.mp hm
  obtain ⟨o, _, ho⟩ := Option.bind_eq_some_iff.mp hi
  cases o with
  | place x =>
    cases ho
    rw [placeMarkup, tag_nodeMarkup]
    cases x.node.reference <;> simp
  | transition x =>
    cases ho
    rw [transitionMarkup, tag_nodeMarkup]
    cases x.node.reference <;> simp
  | _ => cases ho

theorem tag_arcsMarkup (hm : m ∈ arcsMarkup d p) : (m.node depth).tag = "arc" := by
  obtain ⟨i, _, hi⟩ := List.mem_filterMap.mp hm
  obtain ⟨a, _, rfl⟩ := Option.map_eq_some_iff.mp hi
  rw [arcMarkup, Markup.node, Node.tag]

theorem tag_pagesMarkup {trees : List PageTree} (hm : m ∈ pagesMarkup d trees) :
    (m.node depth).tag = "page" := by
  induction trees with
  | nil => cases hm
  | cons tree trees ih =>
    rw [pagesMarkup, List.mem_append] at hm
    rcases hm with hm | hm
    · cases tree with
      | page key content nested =>
        rw [pageMarkup, List.mem_singleton] at hm
        rw [hm, Markup.node, Node.tag]
      | missing key => cases hm
    · exact ih hm

end Tags

theorem filterMap_elements {α : Type} {f : Node → Option α}
    (hf : ∀ n, n.isElement = false → f n = none) (n : Node) :
    n.children.filterMap f = (elements n).filterMap f := by
  rw [elements, List.filterMap_filter]
  refine List.filterMap_congr fun m _ => ?_
  cases hm : m.isElement
  · simp [hf m hm]
  · simp

/-- What is gathered from the nested pages, by recursion over the children of an element. -/
theorem flatMap_pages {F : List Node → List Step} {f : Node → List Step} (hnil : F [] = [])
    (hcons : ∀ m ns, F (m :: ns) = (if m.isTagged "page" then f m else []) ++ F ns) (n : Node) :
    F n.children = (n.childrenTagged "page").flatMap f := by
  have hall : ∀ ns : List Node, F ns = (ns.filter (Node.isTagged "page")).flatMap f := by
    intro ns
    induction ns with
    | nil => exact hnil
    | cons m ns ih =>
      rw [hcons, ih]
      cases hm : m.isTagged "page" <;> simp [hm]
  exact hall _

theorem nestedSteps_children (parent : ObjectId) (n : Node) :
    nestedSteps parent n.children = (n.childrenTagged "page").flatMap (pageSteps parent) :=
  flatMap_pages (by rw [nestedSteps]) (fun m ns => by rw [nestedSteps]) n

theorem nestedLinks_children (n : Node) :
    nestedLinks n.children = (n.childrenTagged "page").flatMap pageLinks :=
  flatMap_pages (by rw [nestedLinks]) (fun m ns => by rw [nestedLinks]) n

section Pages

variable {d : Document} {p : Page} {parent c : ObjectId} {nested : List PageTree} {depth : Nat}

def pageParts (d : Document) (p : Page) (nested : List PageTree) : List Markup :=
  nameMarkup p.name ++ nodesMarkup d p ++ arcsMarkup d p ++ pagesMarkup d nested

def pageBlock (d : Document) (p : Page) (nested : List PageTree) : Markup :=
  .block "page" [("id", p.id.text)] (pageParts d p nested)

theorem nodeOf?_tag {n : Node} {ms : List Markup} {t : String} (ht : t ∈ ["name", "arc", "page"])
    (h : ∀ m ∈ ms, (m.node depth).tag = t) (hn : n ∈ ms.map (Markup.node depth)) :
    nodeOf? n = none ∧ linkOf? n = none := by
  obtain ⟨m, hm, rfl⟩ := List.mem_map.mp hn
  refine nodeOf?_eq_none ?_
  rw [h m hm]
  exact List.mem_cons_of_mem _ ht

theorem filterMap_pageParts {α : Type} {f : Node → Option α}
    (hf : ∀ n, nodeOf? n = none ∧ linkOf? n = none → f n = none) :
    ((pageParts d p nested).map (Markup.node depth)).filterMap f =
      ((nodesMarkup d p).map (Markup.node depth)).filterMap f := by
  have hnone : ∀ (ms : List Markup) (t : String), t ∈ ["name", "arc", "page"] →
      (∀ m ∈ ms, (m.node depth).tag = t) →
      (ms.map (Markup.node depth)).filterMap f = [] := by
    intro ms t ht h
    rw [List.filterMap_eq_nil_iff]
    exact fun n hn => hf n (nodeOf?_tag ht h hn)
  have hname := hnone (nameMarkup p.name) "name" (by simp) fun m hm => tag_nameMarkup hm
  have harcs := hnone (arcsMarkup d p) "arc" (by simp) fun m hm => tag_arcsMarkup hm
  have hpages := hnone (pagesMarkup d nested) "page" (by simp) fun m hm => tag_pagesMarkup hm
  rw [pageParts, List.map_append, List.map_append, List.map_append, List.filterMap_append,
    List.filterMap_append, List.filterMap_append, hname, harcs, hpages]
  simp

section

variable (hs : Markup.AreSound (pageParts d p nested))
include hs

theorem childrenTagged_pageBlock {t : String} (ht : t ∈ ["arc", "page"]) :
    ((pageBlock d p nested).node depth).childrenTagged t =
      (((arcsMarkup d p).map (Markup.node (depth + 1))).filter (Node.isTagged t)) ++
        (((pagesMarkup d nested).map (Markup.node (depth + 1))).filter (Node.isTagged t)) := by
  have hname : ((nameMarkup p.name).map (Markup.node (depth + 1))).filter
      (Node.isTagged t) = [] := by
    refine filter_isTagged_eq_nil fun m hm => ?_
    rw [tag_nameMarkup hm]
    rintro rfl
    simp at ht
  have hnodes : ((nodesMarkup d p).map (Markup.node (depth + 1))).filter
      (Node.isTagged t) = [] := by
    refine filter_isTagged_eq_nil fun m hm he => ?_
    have htag := tag_nodesMarkup hm (depth + 1)
    rw [he] at htag
    simp only [List.mem_cons, List.not_mem_nil, or_false] at ht htag
    rcases ht with rfl | rfl <;> simp at htag
  rw [childrenTagged_eq, pageBlock, elements_block hs, pageParts, List.map_append, List.map_append,
    List.map_append, List.filter_append, List.filter_append, List.filter_append, hname, hnodes,
    List.nil_append, List.nil_append]

theorem areSound_pageParts : (∀ m ∈ nodesMarkup d p, m.IsSound) ∧
    (∀ m ∈ arcsMarkup d p, m.IsSound) ∧ ∀ m ∈ pagesMarkup d nested, m.IsSound := by
  rw [Markup.areSound_iff] at hs
  refine ⟨fun m hm => hs m ?_, fun m hm => hs m ?_, fun m hm => hs m ?_⟩ <;> simp [pageParts, hm]

theorem arcs_pageBlock : ((pageBlock d p nested).node depth).childrenTagged "arc" =
    (arcsMarkup d p).map (Markup.node (depth + 1)) := by
  have harcs : ((arcsMarkup d p).map (Markup.node (depth + 1))).filter (Node.isTagged "arc") =
      (arcsMarkup d p).map (Markup.node (depth + 1)) :=
    filter_isTagged_eq_self (Markup.areSound_iff.mpr (areSound_pageParts hs).2.1)
      fun m hm => tag_arcsMarkup hm
  have hpages : ((pagesMarkup d nested).map (Markup.node (depth + 1))).filter
      (Node.isTagged "arc") = [] :=
    filter_isTagged_eq_nil fun m hm => by simp [tag_pagesMarkup hm]
  rw [childrenTagged_pageBlock hs (by simp), harcs, hpages, List.append_nil]

theorem pages_pageBlock : ((pageBlock d p nested).node depth).childrenTagged "page" =
    (pagesMarkup d nested).map (Markup.node (depth + 1)) := by
  have harcs : ((arcsMarkup d p).map (Markup.node (depth + 1))).filter
      (Node.isTagged "page") = [] :=
    filter_isTagged_eq_nil fun m hm => by simp [tag_arcsMarkup hm]
  have hpages : ((pagesMarkup d nested).map (Markup.node (depth + 1))).filter
      (Node.isTagged "page") = (pagesMarkup d nested).map (Markup.node (depth + 1)) :=
    filter_isTagged_eq_self (Markup.areSound_iff.mpr (areSound_pageParts hs).2.2)
      fun m hm => tag_pagesMarkup hm
  rw [childrenTagged_pageBlock hs (by simp), harcs, hpages, List.nil_append]

theorem nameOf_pageBlock (depth : Nat) :
    nameOf ((pageBlock d p nested).node depth) = p.name.filter (!·.isEmpty) := by
  have hparts : pageParts d p nested =
      nameMarkup p.name ++ (nodesMarkup d p ++ (arcsMarkup d p ++ pagesMarkup d nested)) := by
    simp [pageParts]
  rw [hparts] at hs
  rw [pageBlock, hparts]
  refine nameOf_block hs fun m hm => ?_
  have htag : (m.node (depth + 1)).tag ≠ "name" := by
    rcases List.mem_append.mp hm with hm | hm
    · intro he
      have htag := tag_nodesMarkup hm (depth + 1)
      rw [he] at htag
      simp at htag
    · rcases List.mem_append.mp hm with hm | hm
      · simp [tag_arcsMarkup hm]
      · simp [tag_pagesMarkup hm]
  cases hn : (m.node (depth + 1)).isTagged "name" with
  | false => rfl
  | true => exact absurd (isTagged_eq_true_iff.mp hn).2 htag

theorem pageSteps_pageBlock : pageSteps parent ((pageBlock d p nested).node depth) =
    .edit (.add parent (Object.page p).fresh) ::
      (nodeSteps p.id ((pageBlock d p nested).node depth) ++
        ((arcsMarkup d p).map (Markup.node (depth + 1))).map
          (fun child => admission p.id ((arcOf child).map .arc)) ++
        ((pagesMarkup d nested).map (Markup.node (depth + 1))).flatMap (pageSteps p.id)) := by
  have hid : requiredId ((pageBlock d p nested).node depth) "id" = .ok p.id := requiredId_block _
  have hnested := nestedSteps_children p.id ((pageBlock d p nested).node depth)
  have harcs : arcSteps p.id ((pageBlock d p nested).node depth) =
      ((arcsMarkup d p).map (Markup.node (depth + 1))).map
        (fun child => admission p.id ((arcOf child).map .arc)) := by
    rw [arcSteps, arcs_pageBlock hs]
  have hname := nameOf_pageBlock hs depth
  rw [pages_pageBlock hs] at hnested
  rw [← hnested, ← harcs]
  obtain ⟨tag, attributes, children, hnode⟩ : ∃ tag attributes children,
      (pageBlock d p nested).node depth = .element tag attributes children := by
    rw [pageBlock, Markup.node]
    exact ⟨_, _, _, rfl⟩
  rw [hnode] at hid hname ⊢
  rw [pageSteps]
  simp only [hid, hname]
  rfl

theorem pageLinks_pageBlock : pageLinks ((pageBlock d p nested).node depth) =
    ((pageBlock d p nested).node depth).children.filterMap linkOf? ++
      ((pagesMarkup d nested).map (Markup.node (depth + 1))).flatMap pageLinks := by
  have hnested := nestedLinks_children ((pageBlock d p nested).node depth)
  rw [pages_pageBlock hs] at hnested
  rw [← hnested, pageBlock, Markup.node, pageLinks, Node.children]

end

section Content

variable (hc : d.Contained) (hfin : d.Finite) (hp : d.page? c = some p)
include hc hp

theorem exists_nodeElement? {i : ObjectId} (hi : i ∈ p.nodes.keys) : ∃ o m,
    d.object? i = some o ∧ o.owner = some (.page p.id) ∧ nodeElement? o = some m ∧
      m ∈ nodesMarkup d p := by
  have hid : p.id = c := hc.stored c _ (Document.page?_eq_some_iff.mp hp)
  obtain ⟨o, ho, hnode, how⟩ := ((hc.nodes c p hp).2 i).mp hi
  obtain ⟨m, hm⟩ : ∃ m, nodeElement? o = some m := by
    cases o with
    | place x => exact ⟨_, rfl⟩
    | transition x => exact ⟨_, rfl⟩
    | _ => cases hnode
  exact ⟨o, m, ho, hid ▸ how, hm,
    List.mem_filterMap.mpr ⟨i, hi, by rw [ho, Option.bind_some, hm]⟩⟩

variable (hs : Markup.AreSound (pageParts d p nested))
include hs hfin

theorem filterMap_pageBlock {α : Type} {f : Node → Option α} {g : ObjectId → Option α}
    (hf : ∀ n, nodeOf? n = none ∧ linkOf? n = none → f n = none)
    (hfg : ∀ i o n, d.object? i = some o → o.owner = some (.page p.id) →
      nodeOf? n = some (.ok o.fresh) →
      linkOf? n = o.reference?.map (fun r => .edit (.setReference o.id (some r))) → f n = g i)
    (depth : Nat) :
    ((pageBlock d p nested).node depth).children.filterMap f = p.nodes.keys.filterMap g := by
  have htext : ∀ n : Node, n.isElement = false → f n = none := by
    intro n hn
    refine hf n (nodeOf?_eq_none ?_)
    cases n <;> simp_all [Node.isElement, Node.tag]
  rw [filterMap_elements htext, pageBlock, elements_block hs, filterMap_pageParts hf, nodesMarkup,
    List.filterMap_map, List.filterMap_filterMap]
  refine List.filterMap_congr fun i hi => ?_
  obtain ⟨o, m, ho, how, hm, hmem⟩ := exists_nodeElement? hc hp hi
  obtain ⟨hnode, hlink⟩ := node_nodeElement? hm ((areSound_pageParts hs).1 m hmem) (hfin i o ho)
    (depth + 1)
  simp [ho, hm, hfg i o _ ho how hnode hlink]

theorem nodeSteps_pageBlock (depth : Nat) :
    nodeSteps p.id ((pageBlock d p nested).node depth) = arrivals d p.nodes.keys := by
  refine filterMap_pageBlock hc hfin hp hs (fun n hn => ?_) (fun i o n ho how hnode _ => ?_) depth
  · rw [hn.1]
    rfl
  · have harrival : arrival o = .add p.id o.fresh := by
      cases o with
      | net n => cases how
      | _ => simp only [arrival, how, Owner.id]
    rw [hnode, ho, Option.map_some, Option.map_some, harrival]
    rfl

theorem filterMap_linkOf?_pageBlock (depth : Nat) :
    ((pageBlock d p nested).node depth).children.filterMap linkOf? = links d p.nodes.keys := by
  refine filterMap_pageBlock hc hfin hp hs (fun n hn => hn.2) (fun i o n ho _ _ hlink => ?_) depth
  rw [hlink, Document.refersTo?, ho, Option.bind_some, hc.stored i o ho]

theorem arcSteps_arcsMarkup (depth : Nat) : ((arcsMarkup d p).map (Markup.node depth)).map
    (fun child => admission p.id ((arcOf child).map .arc)) = arrivals d p.arcs.keys := by
  have hid : p.id = c := hc.stored c _ (Document.page?_eq_some_iff.mp hp)
  rw [arcsMarkup, List.map_map, List.map_filterMap, arrivals]
  refine List.filterMap_congr fun i hi => ?_
  obtain ⟨a, ha, how⟩ := ((hc.arcs c p hp).2 i).mp hi
  have ho := Document.arc?_eq_some_iff.mp ha
  have hsound : (arcMarkup a).IsSound :=
    (areSound_pageParts hs).2.1 _ (List.mem_filterMap.mpr ⟨i, hi, by rw [ha, Option.map_some]⟩)
  have how : (Object.arc a).owner = some (.page p.id) := hid ▸ how
  rw [ha, ho, Option.map_some, Option.map_some, Option.map_some, Function.comp_apply,
    arcOf_arcMarkup hsound (hfin i _ ho)]
  simp only [arrival, how]
  rfl

end Content

end Pages

section Walks

variable {d : Document} {p : Page} {parent k : ObjectId} {fuel : Nat} {keys : List ObjectId}

theorem arrivals_append (first second : List ObjectId) :
    arrivals d (first ++ second) = arrivals d first ++ arrivals d second := List.filterMap_append

theorem links_append (first second : List ObjectId) :
    links d (first ++ second) = links d first ++ links d second := List.filterMap_append

theorem arrivals_cons {o : Object} (ho : d.object? k = some o) :
    arrivals d (k :: keys) = .edit (arrival o) :: arrivals d keys :=
  List.filterMap_cons_some (by rw [ho, Option.map_some])

theorem links_cons_eq {o : Object} (ho : d.object? k = some o) (hr : o.reference? = none) :
    links d (k :: keys) = links d keys :=
  List.filterMap_cons_none (by rw [Document.refersTo?, ho, Option.bind_some, hr, Option.map_none])

theorem links_arcs (hc : d.Contained) (hp : d.page? k = some p) : links d p.arcs.keys = [] := by
  rw [links, List.filterMap_eq_nil_iff]
  intro i hi
  obtain ⟨a, ha, _⟩ := ((hc.arcs k p hp).2 i).mp hi
  rw [Document.refersTo?, Document.arc?_eq_some_iff.mp ha]
  rfl

theorem walk_cons (hp : d.page? k = some p) : d.walk (fuel + 1) (k :: keys) =
    k :: (p.nodes.keys ++ p.arcs.keys ++ d.walk fuel p.pages ++ d.walk (fuel + 1) keys) := by
  rw [Document.walk_succ, List.flatMap_cons, hp, ← Document.walk_succ, List.cons_append]

theorem pagesMarkup_cons (hp : d.page? k = some p) :
    pagesMarkup d (d.unfold (fuel + 1) (k :: keys)) =
      pageBlock d p (d.unfold fuel p.pages) :: pagesMarkup d (d.unfold (fuel + 1) keys) := by
  rw [Document.unfold, List.map_cons, hp, ← Document.unfold, pagesMarkup, pageMarkup]
  rfl

theorem steps_pagesMarkup (hc : d.Contained) (hfin : d.Finite) (hf : d.Adequate fuel keys)
    (hs : Markup.AreSound (pagesMarkup d (d.unfold fuel keys)))
    (hw : ∀ k ∈ keys, ∀ p, d.page? k = some p → ∃ w, p.owner = some w ∧ w.id = parent)
    (depth : Nat) :
    ((pagesMarkup d (d.unfold fuel keys)).map (Markup.node depth)).flatMap (pageSteps parent) =
        arrivals d (d.walk fuel keys) ∧
      ((pagesMarkup d (d.unfold fuel keys)).map (Markup.node depth)).flatMap pageLinks =
        links d (d.walk fuel keys) := by
  induction fuel generalizing keys parent depth with
  | zero =>
    rw [hf.eq_nil]
    exact ⟨rfl, rfl⟩
  | succ fuel ih =>
    induction keys with
    | nil => exact ⟨rfl, rfl⟩
    | cons k keys ihk =>
      obtain ⟨⟨p, hp⟩, hle⟩ := hf k List.mem_cons_self
      have ho := Document.page?_eq_some_iff.mp hp
      have hid : p.id = k := hc.stored k _ ho
      rw [pagesMarkup_cons hp, Markup.AreSound] at hs
      obtain ⟨hsteps, hlinks⟩ := ihk (fun j hj => hf j (List.mem_cons_of_mem _ hj)) hs.2
        fun j hj => hw j (List.mem_cons_of_mem _ hj)
      have hparts : Markup.AreSound (pageParts d p (d.unfold fuel p.pages)) := by
        have hblock := hs.1
        rw [pageBlock, Markup.IsSound] at hblock
        exact hblock.2
      have hinside : ∀ j ∈ p.pages, ∀ q, d.page? j = some q →
          ∃ w, q.owner = some w ∧ w.id = p.id := by
        intro j hj q hq
        obtain ⟨x, hx, how⟩ := ((hc.pages k p hp).2 j).mp hj
        rw [hq] at hx
        cases hx
        exact ⟨.page k, how, hid.symm⟩
      obtain ⟨hnested, hnestedLinks⟩ := ih (hc.adequate_page hp (by omega))
        (Markup.areSound_iff.mpr (areSound_pageParts hparts).2.2) hinside (depth + 1)
      obtain ⟨w, how, hwp⟩ := hw k List.mem_cons_self p hp
      have harrival : arrival (.page p) = .add parent (Object.page p).fresh := by
        have how : (Object.page p).owner = some w := how
        simp only [arrival, how, hwp]
      rw [pagesMarkup_cons hp, walk_cons hp, List.map_cons, List.flatMap_cons, List.flatMap_cons,
        hsteps, hlinks, pageSteps_pageBlock hparts, pageLinks_pageBlock hparts, hnested,
        hnestedLinks, nodeSteps_pageBlock hc hfin hp hparts, arcSteps_arcsMarkup hc hfin hp hparts,
        filterMap_linkOf?_pageBlock hc hfin hp hparts, List.cons_append, arrivals_cons ho,
        links_cons_eq ho rfl, harrival]
      simp [arrivals_append, links_append, links_arcs hc hp]

end Walks

section Nets

variable {d : Document} {n : Net}

theorem ofUri?_uri (format : NetFormat) : NetFormat.ofUri? format.uri = some format := by
  cases format <;> decide +kernel

section

variable (hs : (netMarkup d n).IsSound)
include hs

theorem netOf_netMarkup (depth : Nat) : netOf ((netMarkup d n).node depth) =
    .ok { id := n.id, name := n.name.filter (!·.isEmpty), format := n.format } := by
  have hid : requiredId ((netMarkup d n).node depth) "id" = .ok n.id := requiredId_block _
  have htype : required ((netMarkup d n).node depth) "type" = .ok n.format.uri := by
    simp [netMarkup, required, Markup.node, Node.attribute?, Xml.keptAttributes]
  have hname : nameOf ((netMarkup d n).node depth) = n.name.filter (!·.isEmpty) := by
    rw [netMarkup, Markup.IsSound] at hs
    refine nameOf_block hs.2 fun m hm => ?_
    cases htag : (m.node (depth + 1)).isTagged "name" with
    | false => rfl
    | true =>
      have hpage : (m.node (depth + 1)).tag = "page" := tag_pagesMarkup hm
      rw [(isTagged_eq_true_iff.mp htag).2] at hpage
      simp at hpage
  simp only [netOf, hid, htype, hname, ofUri?_uri, bind, Except.bind]

theorem areSound_forest : Markup.AreSound (pagesMarkup d (d.forest n.pages)) := by
  rw [netMarkup, Markup.IsSound, Markup.areSound_iff] at hs
  exact Markup.areSound_iff.mpr fun m hm => hs.2 m (List.mem_append_right _ hm)

theorem pages_netMarkup (depth : Nat) : ((netMarkup d n).node depth).childrenTagged "page" =
    (pagesMarkup d (d.forest n.pages)).map (Markup.node (depth + 1)) := by
  have hname : ((nameMarkup n.name).map (Markup.node (depth + 1))).filter
      (Node.isTagged "page") = [] :=
    filter_isTagged_eq_nil fun m hm => by simp [tag_nameMarkup hm]
  have hpages : ((pagesMarkup d (d.forest n.pages)).map (Markup.node (depth + 1))).filter
      (Node.isTagged "page") = (pagesMarkup d (d.forest n.pages)).map (Markup.node (depth + 1)) :=
    filter_isTagged_eq_self (areSound_forest hs) fun m hm => tag_pagesMarkup hm
  rw [netMarkup, Markup.IsSound] at hs
  rw [childrenTagged_eq, netMarkup, elements_block hs.2, List.map_append, List.filter_append, hname,
    hpages, List.nil_append]

theorem netSteps_netMarkup (hc : d.Contained) (hfin : d.Finite) (hn : d.net? n.id = some n)
    (depth : Nat) : netSteps ((netMarkup d n).node depth) = netScript d n := by
  have ho := Document.net?_eq_some_iff.mp hn
  have hinside : ∀ k ∈ n.pages, ∀ p, d.page? k = some p → ∃ w, p.owner = some w ∧ w.id = n.id := by
    intro k hk p hp
    obtain ⟨q, hq, how⟩ := ((hc.netPages n.id n hn).2 k).mp hk
    rw [hp] at hq
    cases hq
    exact ⟨.net n.id, how, rfl⟩
  obtain ⟨hsteps, hlinks⟩ := steps_pagesMarkup hc hfin (hc.adequate_net hn) (areSound_forest hs)
    hinside (depth + 1)
  simp only [netSteps, netOf_netMarkup hs depth]
  rw [nestedSteps_children, nestedLinks_children, pages_netMarkup hs, Document.forest, hsteps,
    hlinks, netScript, Document.netWalk, arrivals_cons ho, links_cons_eq ho rfl]
  rfl

end

theorem netElements_markup (hs : (markup d).IsSound) :
    netElements ((markup d).node 0) = d.nets.map fun n => (netMarkup d n).node 1 := by
  rw [markup, Markup.IsSound] at hs
  have hroot : ((markup d).node 0).isTagged "net" = false := by simp [markup]
  rw [netElements, hroot, childrenTagged_eq, markup, elements_block hs.2,
    filter_isTagged_eq_self hs.2, List.map_map]
  · rfl
  · intro m hm
    obtain ⟨n, _, rfl⟩ := List.mem_map.mp hm
    rw [netMarkup, Markup.node, Node.tag]

theorem isSound_netMarkup (hs : (markup d).IsSound) (hn : n ∈ d.nets) :
    (netMarkup d n).IsSound := by
  rw [markup, Markup.IsSound, Markup.areSound_iff] at hs
  exact hs.2 _ (List.mem_map.mpr ⟨n, hn, rfl⟩)

/-- The script of the written tree rebuilds the nets one after the other. -/
theorem script_markup (hc : d.Contained) (hfin : d.Finite)
    (hn : ∀ n ∈ d.nets, d.net? n.id = some n) (hne : d.nets ≠ []) (hs : (markup d).IsSound) :
    script ((markup d).node 0) = d.nets.flatMap (netScript d) := by
  have hscript : script ((markup d).node 0) =
      (netElements ((markup d).node 0)).flatMap netSteps := by
    rw [script]
    split
    · next hnil =>
      rw [netElements_markup hs, List.map_eq_nil_iff] at hnil
      exact absurd hnil hne
    · rfl
  rw [hscript, netElements_markup hs, List.flatMap_map]
  refine List.flatMap_congr fun n hmem => ?_
  exact netSteps_netMarkup (isSound_netMarkup hs hmem) hc hfin (hn n hmem) 1

end Nets

end PagedNets.Pnml
