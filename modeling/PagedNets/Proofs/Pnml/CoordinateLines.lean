import PagedNets.Proofs.Pnml.PageElements
import PagedNets.Proofs.Pnml.Writing

set_option autoImplicit false

namespace PagedNets.Pnml

open Text (Yields linesAt opens)
open Xml (Markup Inline IsWord IsTagLine NamedIn Misses openLine closeLine)

def coordinateWords : List String := ["<position ", "<dimension ", "<graphics><offset "]

/-- Digits, with a sign and a point perhaps, that stand for a finite number. -/
structure IsNumeral (s : String) : Prop where
  plain : ∀ c ∈ s.toList, c = '-' ∨ Decimal.isDigit c = true ∨ c = '.'
  read : ∃ x : Float, x.isFinite = true ∧ Decimal.float? s = some x

def pointTag (tag x y : String) : String := "<" ++ tag ++ " x=\"" ++ x ++ "\" y=\"" ++ y ++ "\"/>"

inductive IsPointLine : String → Prop
  | node {tag x y : String} : tag ∈ ["position", "dimension"] → IsNumeral x → IsNumeral y →
      IsPointLine (pointTag tag x y)
  | offset {x y : String} : IsNumeral x → IsNumeral y →
      IsPointLine ("<graphics>" ++ pointTag "offset" x y ++ "</graphics>")

section Points

theorem isNumeral_coordinateText {x : Float} (h : x.isFinite = true) :
    IsNumeral (coordinateText x) :=
  ⟨fun _ hc => Decimal.mem_toList_text h hc, x, h, Decimal.float?_text h⟩

theorem IsNumeral.escape_eq {s : String} (h : IsNumeral s) : Xml.escape s = s := by
  refine Xml.escape_eq_self fun c hc hs => ?_
  have hspecials :
      Xml.specials.all (fun c => !(c == '-' || Decimal.isDigit c || c == '.')) = true := by decide
  have hspecial := List.all_eq_true.mp hspecials c hs
  rcases h.plain c hc with rfl | hc | rfl
  · cases hspecial
  · simp [hc] at hspecial
  · cases hspecial

theorem render_pointElement {p : Point} (h : p.isFinite = true) (tag : String) :
    IsNumeral (coordinateText p.x) ∧ IsNumeral (coordinateText p.y) ∧
      (pointElement tag p).render = pointTag tag (coordinateText p.x) (coordinateText p.y) := by
  simp only [Point.isFinite, Bool.and_eq_true] at h
  have hx := isNumeral_coordinateText h.1
  have hy := isNumeral_coordinateText h.2
  refine ⟨hx, hy, String.toList_inj.mp ?_⟩
  simp [pointElement, pointTag, Inline.render, Xml.attributesText, Xml.attributeText, hx.escape_eq,
    hy.escape_eq]

end Points

section Lines

def plainNames : List String :=
  ["pnml", "net", "page", "xmlns", "name", "text", "initialMarking", "place", "referencePlace",
    "transition", "referenceTransition", "arc", "type", "id", "ref", "source", "target", "value"]

def pointNames : List String := ["graphics", "position", "dimension", "offset", "x", "y"]

theorem isWord_plainNames : ∀ w ∈ plainNames, IsWord w := by decide

theorem isWord_pointNames : ∀ w ∈ pointNames, IsWord w := by decide

theorem misses_plainNames : Misses coordinateWords plainNames := by
  intro line h
  refine List.any_eq_false.mpr fun word hword hopens => ?_
  obtain ⟨rest, hline⟩ := List.isPrefixOf_iff_prefix.mp hopens
  have hnot : ∀ w ∈ pointNames, Xml.firstWord line ≠ w := by
    intro w hw he
    have hdisjoint : ∀ w ∈ pointNames, w ∉ plainNames := by decide
    exact hdisjoint w hw (he ▸ h.named)
  simp only [coordinateWords, List.mem_cons, List.not_mem_nil, or_false] at hword
  rcases hword with rfl | rfl | rfl
  · exact hnot "position" (by decide)
      (Xml.firstWord_eq ['<'] (' ' :: rest) (by decide) hline.symm rfl rfl)
  · exact hnot "dimension" (by decide)
      (Xml.firstWord_eq ['<'] (' ' :: rest) (by decide) hline.symm rfl rfl)
  · exact hnot "graphics" (by decide)
      (Xml.firstWord_eq ['<'] ('>' :: ("<offset ".toList ++ rest)) (by decide) hline.symm rfl rfl)

/-- All lines with coordinates in the text are lines with numerals. -/
def Prints (text : String) : Prop :=
  ∃ found, Yields coordinateWords text found ∧ ∀ line ∈ found, IsPointLine line

variable {s t tag : String} {attributes : List (String × String)} {ms : List Markup} {m : Markup}

theorem Prints.nil : Prints "" := ⟨[], .nil _, fun _ h => by cases h⟩

theorem Prints.append (hs : Prints s) (ht : Prints t) : Prints (s ++ t) := by
  obtain ⟨found, hyields, hfound⟩ := hs
  obtain ⟨more, hmore, hlines⟩ := ht
  exact ⟨found ++ more, hyields.append hmore, List.forall_mem_append.mpr ⟨hfound, hlines⟩⟩

def Shown (m : Markup) : Prop := ∀ depth, Prints (m.render depth)

theorem prints_renderAll (h : ∀ m ∈ ms, Shown m) (depth : Nat) :
    Prints (Markup.renderAll depth ms) := by
  induction ms with
  | nil => exact .nil
  | cons m ms ih =>
    obtain ⟨hm, hms⟩ := List.forall_mem_cons.mp h
    rw [Markup.renderAll]
    exact (hm depth).append (ih hms)

theorem shown_of_within (h : m.Within plainNames) : Shown m := fun depth =>
  ⟨[], m.yields_nil isWord_plainNames misses_plainNames h depth, fun _ hline => by cases hline⟩

theorem shown_block {names : List String} (hn : ∀ w ∈ names, IsWord w)
    (h : NamedIn names tag attributes)
    (hopen : opens coordinateWords (openLine tag attributes) = false)
    (hclose : opens coordinateWords (closeLine tag) = false) (hparts : ∀ m ∈ ms, Shown m) :
    Shown (.block tag attributes ms) := by
  intro depth
  obtain ⟨found, hyields, hfound⟩ := prints_renderAll hparts (depth + 1)
  have hblock := Markup.yields_block hn h hyields
  rw [List.filter_cons_of_neg (by simp [hopen]), List.filter_cons_of_neg (by simp [hclose]),
    List.filter_nil, List.nil_append, List.append_nil] at hblock
  exact ⟨found, hblock, hfound⟩

theorem shown_plainBlock (h : NamedIn plainNames tag attributes) (hparts : ∀ m ∈ ms, Shown m) :
    Shown (.block tag attributes ms) :=
  shown_block isWord_plainNames h
    (misses_plainNames _ (Xml.isTagLine_openLine isWord_plainNames h))
    (misses_plainNames _ (Xml.isTagLine_closeLine isWord_plainNames h.1)) hparts

theorem shown_graphics (hparts : ∀ m ∈ ms, Shown m) : Shown (.block "graphics" [] ms) :=
  shown_block isWord_pointNames ⟨by decide, fun _ ha => by cases ha⟩ (by decide) (by decide) hparts

theorem shown_line {i : Inline} (h : i.Within pointNames) (ht : i.isText = false)
    (hpoint : IsPointLine i.render) : Shown (.line i) := by
  intro depth
  refine ⟨_, (Inline.isTagLine isWord_pointNames h ht).yields coordinateWords depth, fun l hl => ?_⟩
  rw [List.mem_singleton.mp (List.mem_filter.mp hl).1]
  exact hpoint

theorem within_pointElement (ht : tag ∈ pointNames) (p : Point) :
    (pointElement tag p).Within pointNames := by
  rw [pointElement, Inline.Within]
  exact ⟨ht, by simp [pointNames]⟩

theorem shown_point {p : Point} (ht : tag ∈ ["position", "dimension"]) (h : p.isFinite = true) :
    Shown (.line (pointElement tag p)) := by
  obtain ⟨hx, hy, hrender⟩ := render_pointElement h tag
  have hnamed : ∀ t ∈ ["position", "dimension"], t ∈ pointNames := by decide
  exact shown_line (within_pointElement (hnamed tag ht) p) rfl (hrender ▸ .node ht hx hy)

theorem shown_offset {p : Point} (h : p.isFinite = true) :
    Shown (.line (.element "graphics" [] [pointElement "offset" p])) := by
  obtain ⟨hx, hy, hrender⟩ := render_pointElement h "offset"
  refine shown_line ?_ rfl ?_
  · simp only [Inline.Within, Inline.AllWithin, and_true]
    exact ⟨⟨by decide, fun _ ha => by cases ha⟩, within_pointElement (by decide) p⟩
  · have hline : (Inline.element "graphics" [] [pointElement "offset" p]).render =
        "<graphics>" ++ (pointElement "offset" p).render ++ "</graphics>" := by
      rw [Inline.render, Inline.renderAll, Inline.renderAll]
      exact String.toList_inj.mp (by simp [Xml.attributesText])
    rw [hline, hrender]
    exact .offset hx hy

end Lines

section Objects

variable {m : Markup}

theorem shown_nameMarkup {name : Option String} (hm : m ∈ nameMarkup name) : Shown m := by
  rcases nameMarkup_cases name with ⟨_, hnone⟩ | ⟨text, _, _, hsome⟩
  · rw [hnone] at hm
    cases hm
  · rw [hsome] at hm
    rw [List.mem_singleton.mp hm]
    exact shown_of_within (by simp [Markup.Within, Inline.Within, Inline.AllWithin, NamedIn,
      Inline.isText, plainNames])

theorem shown_graphicsMarkup {data : NodeData} (h : data.isFinite = true) :
    Shown (graphicsMarkup data) := by
  simp only [NodeData.isFinite, Bool.and_eq_true] at h
  refine shown_graphics ?_
  simp only [List.forall_mem_cons, List.not_mem_nil, false_implies, implies_true, and_true]
  exact ⟨shown_point (by decide) h.1, shown_point (by decide) h.2⟩

theorem shown_markingMarkup {p : Place} (h : p.markingOffset.isFinite = true)
    (hm : m ∈ markingMarkup p) : Shown m := by
  unfold markingMarkup at hm
  split at hm
  · cases hm
  · rw [List.mem_singleton.mp hm]
    refine shown_plainBlock ⟨by decide, fun _ ha => by cases ha⟩ ?_
    simp only [List.forall_mem_cons, List.not_mem_nil, false_implies, implies_true, and_true]
    exact ⟨shown_of_within (by simp [Markup.Within, Inline.Within, Inline.AllWithin, NamedIn,
      Inline.isText, plainNames]), shown_offset h⟩

theorem shown_nodeMarkup {tag aliasTag : String} (ht : tag ∈ plainNames)
    (ha : aliasTag ∈ plainNames) (id : ObjectId) (data : NodeData) {parts : List Markup}
    (hparts : ∀ m ∈ parts, Shown m) : Shown (nodeMarkup tag aliasTag id data parts) := by
  unfold nodeMarkup
  split
  · exact shown_plainBlock ⟨ht, by simp [plainNames]⟩ hparts
  · exact shown_plainBlock ⟨ha, by simp [plainNames]⟩ hparts

theorem shown_nodeElement? {o : Object} (h : o.IsFinite) (hm : nodeElement? o = some m) :
    Shown m := by
  cases o with
  | place p =>
    cases hm
    refine shown_nodeMarkup (by decide) (by decide) p.id p.node fun m hm => ?_
    rcases List.mem_append.mp hm with hm | hm
    · exact shown_nameMarkup hm
    · rcases List.mem_cons.mp hm with rfl | hm
      · exact shown_graphicsMarkup h.1
      · exact shown_markingMarkup h.2 hm
  | transition t =>
    cases hm
    refine shown_nodeMarkup (by decide) (by decide) t.id t.node fun m hm => ?_
    rcases List.mem_append.mp hm with hm | hm
    · exact shown_nameMarkup hm
    · rw [List.mem_singleton.mp hm]
      exact shown_graphicsMarkup h
  | _ => cases hm

theorem shown_arcMarkup {a : Arc} (h : (Object.arc a).IsFinite) : Shown (arcMarkup a) := by
  refine shown_plainBlock ⟨by simp [plainNames], by simp [plainNames]⟩ fun m hm => ?_
  simp only [List.mem_append] at hm
  rcases hm with (hm | hm) | hm
  · exact shown_nameMarkup hm
  · rw [eq_curveBlock hm]
    refine shown_graphics fun m hm => ?_
    obtain ⟨p, hp, rfl⟩ := List.mem_map.mp hm
    exact shown_point (by decide) (List.all_eq_true.mp h p hp)
  · cases hkind : a.kind with
    | normal =>
      rw [hkind] at hm
      cases hm
    | read =>
      rw [hkind] at hm
      rw [List.mem_singleton.mp hm]
      exact shown_of_within (by simp [Markup.Within, Inline.Within, NamedIn, Inline.isText,
        plainNames])

end Objects

section Pages

variable {d : Document}

mutual

/-- What is true of every page whose nested pages it is true of, is true of all pages written. -/
theorem forall_pageMarkup {Q : Markup → Prop} (hblock : ∀ p nested,
    (∀ m ∈ pagesMarkup d nested, Q m) → Q (pageBlock d p nested)) (tree : PageTree) :
    ∀ m ∈ pageMarkup d tree, Q m := by
  cases tree with
  | page key p nested =>
    rw [pageMarkup, List.forall_mem_singleton]
    exact hblock p nested (forall_pagesMarkup hblock nested)
  | missing key => exact fun m hm => by cases hm

theorem forall_pagesMarkup {Q : Markup → Prop} (hblock : ∀ p nested,
    (∀ m ∈ pagesMarkup d nested, Q m) → Q (pageBlock d p nested)) (trees : List PageTree) :
    ∀ m ∈ pagesMarkup d trees, Q m := by
  cases trees with
  | nil => exact fun m hm => by cases hm
  | cons tree trees =>
    rw [pagesMarkup, List.forall_mem_append]
    exact ⟨forall_pageMarkup hblock tree, forall_pagesMarkup hblock trees⟩

end

variable (h : d.Finite)
include h

theorem shown_pageBlock {p : Page} {nested : List PageTree}
    (hnested : ∀ m ∈ pagesMarkup d nested, Shown m) : Shown (pageBlock d p nested) := by
  refine shown_plainBlock ⟨by decide, by simp [plainNames]⟩ fun m hm => ?_
  simp only [pageParts, List.mem_append] at hm
  rcases hm with ((hm | hm) | hm) | hm
  · exact shown_nameMarkup hm
  · obtain ⟨i, -, hi⟩ := List.mem_filterMap.mp hm
    obtain ⟨o, ho, hm⟩ := Option.bind_eq_some_iff.mp hi
    exact shown_nodeElement? (h i o ho) hm
  · obtain ⟨i, -, hi⟩ := List.mem_filterMap.mp hm
    obtain ⟨a, ha, rfl⟩ := Option.map_eq_some_iff.mp hi
    exact shown_arcMarkup (h i _ (Document.arc?_eq_some_iff.mp ha))
  · exact hnested m hm

theorem shown_markup : Shown (markup d) := by
  refine shown_plainBlock ⟨by decide, by simp [plainNames]⟩ fun m hm => ?_
  obtain ⟨n, -, rfl⟩ := List.mem_map.mp hm
  refine shown_plainBlock ⟨by decide, by simp [plainNames]⟩ fun m hm => ?_
  rcases List.mem_append.mp hm with hm | hm
  · exact shown_nameMarkup hm
  · exact forall_pagesMarkup (fun p nested => shown_pageBlock h) _ m hm

/-- In the text of a document with finite coordinates every coordinate is a numeral. -/
theorem isPointLine_of_mem_linesAt {line : String} (hl : line ∈ linesAt coordinateWords (write d)) :
    IsPointLine line := by
  obtain ⟨found, hyields, hfound⟩ := shown_markup h 0
  have hdeclaration :
      linesAt coordinateWords "<?xml version=\"1.0\" encoding=\"UTF-8\"?>" = [] := by decide
  have hwhole :=
    (Yields.line coordinateWords "<?xml version=\"1.0\" encoding=\"UTF-8\"?>").append hyields
  rw [hdeclaration, List.nil_append] at hwhole
  have hlines : linesAt coordinateWords (write d) = found := hwhole.linesAt_eq (by decide)
  exact hfound line (hlines ▸ hl)

end Pages

end PagedNets.Pnml
