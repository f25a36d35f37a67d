import PagedNets.Proofs.Document.PageOrder
import PagedNets.Proofs.Pnml.Legality
import PagedNets.Proofs.Xml.Lines

set_option autoImplicit false

namespace PagedNets

open Text (Yields linesAt opens)

namespace Pnml

open Xml (Markup Inline IsWord IsTagLine NamedIn Misses openLine closeLine)

def pageWords : List String := ["<net ", "<page ", "</net>"]

def pageLine (i : ObjectId) : String := openLine "page" [("id", i.text)]

/-- The tags of a net with those that open its pages between them. -/
def netLines (d : Document) (n : Net) : List String :=
  openLine "net" [("id", n.id.text), ("type", n.format.uri)] ::
    ((d.pagesOf n).map pageLine ++ [closeLine "net"])

def partNames : List String :=
  ["name", "text", "graphics", "position", "dimension", "offset", "initialMarking", "place",
    "referencePlace", "transition", "referenceTransition", "arc", "type", "id", "ref", "source",
    "target", "value", "x", "y"]

def frameNames : List String := ["pnml", "net", "page", "xmlns", "id", "type"]

theorem isWord_partNames : ∀ w ∈ partNames, IsWord w := by decide

theorem isWord_frameNames : ∀ w ∈ frameNames, IsWord w := by decide

theorem misses_partNames : Misses pageWords partNames := by
  intro line h
  refine List.any_eq_false.mpr fun word hword hopens => ?_
  obtain ⟨rest, hline⟩ := List.isPrefixOf_iff_prefix.mp hopens
  have hnot : Xml.firstWord line ≠ "net" ∧ Xml.firstWord line ≠ "page" := by
    constructor <;> intro he <;> have hnamed := h.named <;> rw [he] at hnamed <;>
      revert hnamed <;> decide
  simp only [pageWords, List.mem_cons, List.not_mem_nil, or_false] at hword
  rcases hword with rfl | rfl | rfl
  · exact hnot.1 (Xml.firstWord_eq ['<'] (' ' :: rest) (by decide) hline.symm rfl rfl)
  · exact hnot.2 (Xml.firstWord_eq ['<'] (' ' :: rest) (by decide) hline.symm rfl rfl)
  · exact hnot.1 (Xml.firstWord_eq ['<', '/'] ('>' :: rest) (by decide) hline.symm rfl rfl)

section Parts

theorem allWithin_nameMarkup (name : Option String) :
    Markup.AllWithin partNames (nameMarkup name) := by
  unfold nameMarkup
  split <;> simp [Markup.AllWithin, Markup.Within, Inline.Within, Inline.AllWithin, NamedIn,
    Inline.isText, partNames]

theorem within_nodeMarkup {tag aliasTag : String} (ht : tag ∈ partNames) (ha : aliasTag ∈ partNames)
    (id : ObjectId) (node : NodeData) {parts : List Markup}
    (hparts : Markup.AllWithin partNames parts) :
    (nodeMarkup tag aliasTag id node parts).Within partNames := by
  unfold nodeMarkup
  split
  · rw [Markup.Within]
    exact ⟨⟨ht, by simp [partNames]⟩, hparts⟩
  · rw [Markup.Within]
    exact ⟨⟨ha, by simp [partNames]⟩, hparts⟩

theorem within_graphicsMarkup (node : NodeData) : (graphicsMarkup node).Within partNames := by
  simp [graphicsMarkup, pointElement, Markup.AllWithin, Markup.Within, Inline.Within, NamedIn,
    Inline.isText, partNames]

theorem allWithin_markingMarkup (p : Place) : Markup.AllWithin partNames (markingMarkup p) := by
  unfold markingMarkup
  split <;> simp [pointElement, Markup.AllWithin, Markup.Within, Inline.Within, Inline.AllWithin,
    NamedIn, Inline.isText, partNames]

theorem within_of_nodeElement? {o : Object} {m : Markup} (h : nodeElement? o = some m) :
    m.Within partNames := by
  cases o with
  | place p =>
    cases h
    refine within_nodeMarkup (by decide) (by decide) p.id p.node ?_
    rw [Markup.allWithin_iff, List.forall_mem_append, List.forall_mem_cons]
    exact ⟨Markup.allWithin_iff.mp (allWithin_nameMarkup p.name), within_graphicsMarkup p.node,
      Markup.allWithin_iff.mp (allWithin_markingMarkup p)⟩
  | transition t =>
    cases h
    refine within_nodeMarkup (by decide) (by decide) t.id t.node ?_
    rw [Markup.allWithin_iff, List.forall_mem_append, List.forall_mem_singleton]
    exact ⟨Markup.allWithin_iff.mp (allWithin_nameMarkup t.name), within_graphicsMarkup t.node⟩
  | _ => cases h

theorem allWithin_curveMarkup (curve : List Point) :
    Markup.AllWithin partNames (curveMarkup curve) := by
  unfold curveMarkup
  split
  · trivial
  · have hpoints : ∀ m ∈ curve.map fun p => Markup.line (pointElement "position" p),
        m.Within partNames := by
      rw [List.forall_mem_map]
      exact fun p _ => by
        simp [pointElement, Markup.Within, Inline.Within, NamedIn, Inline.isText, partNames]
    rw [Markup.allWithin_iff, List.forall_mem_singleton, Markup.Within]
    exact ⟨by simp [NamedIn, partNames], Markup.allWithin_iff.mpr hpoints⟩

theorem within_arcMarkup (a : Arc) : (arcMarkup a).Within partNames := by
  have hkind : Markup.AllWithin partNames (kindMarkup a.kind) := by
    cases a.kind <;> simp [kindMarkup, Markup.AllWithin, Markup.Within, Inline.Within, NamedIn,
      Inline.isText, partNames]
  rw [arcMarkup, Markup.Within, Markup.allWithin_iff, List.forall_mem_append,
    List.forall_mem_append]
  exact ⟨by simp [NamedIn, partNames], ⟨Markup.allWithin_iff.mp (allWithin_nameMarkup a.name),
    Markup.allWithin_iff.mp (allWithin_curveMarkup a.curve)⟩, Markup.allWithin_iff.mp hkind⟩

/-- No page is found in what stands on a page before those nested in it. -/
theorem allWithin_content (d : Document) (page : Page) : Markup.AllWithin partNames
    (nameMarkup page.name ++ nodesMarkup d page ++ arcsMarkup d page) := by
  rw [Markup.allWithin_iff, List.forall_mem_append, List.forall_mem_append]
  refine ⟨⟨Markup.allWithin_iff.mp (allWithin_nameMarkup page.name), fun m hm => ?_⟩,
    fun m hm => ?_⟩
  · obtain ⟨key, -, hkey⟩ := List.mem_filterMap.mp hm
    obtain ⟨o, -, ho⟩ := Option.bind_eq_some_iff.mp hkey
    exact within_of_nodeElement? ho
  · obtain ⟨key, -, hkey⟩ := List.mem_filterMap.mp hm
    obtain ⟨a, -, rfl⟩ := Option.map_eq_some_iff.mp hkey
    exact within_arcMarkup a

end Parts

theorem filter_openLine {tag name value : String} {attributes : List (String × String)}
    (h : ("<" ++ tag ++ " ") ∈ pageWords) :
    [openLine tag ((name, value) :: attributes)].filter (opens pageWords) =
      [openLine tag ((name, value) :: attributes)] := by
  have hopens : opens pageWords (openLine tag ((name, value) :: attributes)) = true := by
    refine List.any_eq_true.mpr ⟨_, h, List.isPrefixOf_iff_prefix.mpr ?_⟩
    simp [openLine, Xml.toList_attributesText, Xml.attributesChars, Xml.attributeChars]
  simp [hopens]

variable {d : Document} {keys : List ObjectId} {trees : List PageTree}

section

variable (hd : d.Contained)
include hd

theorem yields_pagesMarkup (h : d.Grown keys trees) (depth : Nat) :
    Yields pageWords (Markup.renderAll depth (pagesMarkup d trees))
      ((PageTree.keysOf trees).map pageLine) := by
  induction h generalizing depth with
  | nil => exact .nil pageWords
  | @page key rest nested trees page found _ _ inner after =>
    have hid : page.id = key := hd.stored key _ (Document.page?_eq_some_iff.mp found)
    have hparts := (Markup.yields_nil_all isWord_partNames misses_partNames _
      (allWithin_content d page) (depth + 1)).append (inner (depth + 1))
    rw [← Markup.renderAll_append] at hparts
    have hnamed : NamedIn frameNames "page" [("id", page.id.text)] := by
      simp [NamedIn, frameNames]
    have hblock := Markup.yields_block isWord_frameNames hnamed hparts
    have hclose : [closeLine "page"].filter (opens pageWords) = [] := by decide
    rw [filter_openLine (by decide), hclose, List.append_nil, List.nil_append, hid] at hblock
    have hall := hblock.append (after depth)
    rw [pagesMarkup, pageMarkup, List.singleton_append, Markup.renderAll, hid, PageTree.keysOf,
      PageTree.keys, List.map_append, List.map_cons]
    exact hall

theorem yields_netMarkup {n : Net} (hn : d.net? n.id = some n) (depth : Nat) :
    Yields pageWords ((netMarkup d n).render depth) (netLines d n) := by
  have hpages := yields_pagesMarkup hd (hd.grown (hd.adequate_net hn)) (depth + 1)
  have hparts := (Markup.yields_nil_all isWord_partNames misses_partNames _
    (allWithin_nameMarkup n.name) (depth + 1)).append hpages
  rw [← Markup.renderAll_append] at hparts
  have hnamed : NamedIn frameNames "net" [("id", n.id.text), ("type", n.format.uri)] := by
    simp [NamedIn, frameNames]
  have hblock := Markup.yields_block isWord_frameNames hnamed hparts
  have hclose : [closeLine "net"].filter (opens pageWords) = [closeLine "net"] := by decide
  rw [filter_openLine (by decide), hclose, List.nil_append, List.append_assoc] at hblock
  exact hblock

end

/-- The text of a document has its nets in order, and in each of them all of its pages. -/
theorem linesAt_write (hr : d.Registered) (hd : d.Contained) :
    linesAt pageWords (write d) = d.nets.flatMap (netLines d) := by
  have hnets : Yields pageWords (Markup.renderAll (0 + 1) (d.nets.map (netMarkup d)))
      (d.nets.flatMap (netLines d)) :=
    Markup.yields_map fun n hn => yields_netMarkup hd ((Document.mem_nets hr).mp hn) 1
  have hnamed : NamedIn frameNames "pnml" [("xmlns", pnmlNamespace)] := by
    simp [NamedIn, frameNames]
  have hblock := Markup.yields_block isWord_frameNames hnamed hnets
  have hopen : [openLine "pnml" [("xmlns", pnmlNamespace)]].filter (opens pageWords) = [] := by
    decide
  have hclose : [closeLine "pnml"].filter (opens pageWords) = [] := by decide
  rw [hopen, hclose, List.append_nil, List.nil_append] at hblock
  have hdeclaration :
      linesAt pageWords "<?xml version=\"1.0\" encoding=\"UTF-8\"?>" = [] := by decide
  have hwhole := (Yields.line pageWords "<?xml version=\"1.0\" encoding=\"UTF-8\"?>").append hblock
  rw [hdeclaration, List.nil_append] at hwhole
  exact hwhole.linesAt_eq (by decide)

end Pnml

end PagedNets
