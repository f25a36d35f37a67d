import PagedNets.Proofs.Document.Alias
import PagedNets.Proofs.Layout.WriteBack

set_option autoImplicit false

namespace PagedNets

open Layered (Graph Box Link Summary)

/-- A page without its name, which no drawing shows. -/
def Page.unnamed (p : Page) : Page := { p with name := none }

namespace Layout

variable {d e : Document} {page : Page} {key : ObjectId} {settings : Settings}
  {drawn : Graph Float} {summary : Summary}

def Alike (settings : Settings) (page : Page) (d e : Document) : Prop :=
  ∀ i ∈ page.nodes.keys,
    (e.node? i).map (boxSize settings) = (d.node? i).map (boxSize settings)

/-- What is drawn of the nodes of a page: who they are, their vertices, their sizes. -/
def outlines (settings : Settings) (page : Page) (d : Document) :
    List (ObjectId × Nat × Point) :=
  (nodesOn d page).map fun n => (n.1, n.2.1, boxSize settings n.2.2)

theorem outlines_eq (settings : Settings) (page : Page) (d : Document) :
    outlines settings page d = page.nodes.entries.filterMap fun e =>
      ((d.node? e.1).map (boxSize settings)).map fun size => (e.1, e.2, size) := by
  rw [outlines, nodesOn, List.map_filterMap]
  refine List.filterMap_congr fun e _ => ?_
  cases d.node? e.1 <;> rfl

theorem Alike.outlines (h : Alike settings page d e) :
    outlines settings page e = outlines settings page d := by
  rw [outlines_eq, outlines_eq]
  refine List.filterMap_congr fun n hn => ?_
  rw [h n.1 (List.mem_map_of_mem hn)]

def outlineBox (n : ObjectId × Nat × Point) : Box Float :=
  Box.unplaced { key := n.1.text, width := n.2.2.x, height := n.2.2.y, x := 0, y := 0 }

theorem nodes_exportPage : (exportPage d page settings).nodes =
    (outlines settings page d).map (·.1) := by
  rw [outlines, List.map_map]
  rfl

theorem unplaced_exportPage : (exportPage d page settings).graph.nodes.map Box.unplaced =
    (outlines settings page d).map outlineBox := by
  rw [outlines, List.map_map, exportPage, List.map_map]
  rfl

theorem straight_linkOf? (d e : Document) (page : Page) (vertices : List Nat) (arc : ObjectId) :
    (linkOf? e page vertices arc).map Link.straight =
      (linkOf? d page vertices arc).map Link.straight := by
  simp only [linkOf?, Option.bind_eq_bind, Option.map_bind, Function.comp_def, Option.map_some]
  rfl

def straights (settings : Settings) (page : Page) (d : Document) :
    List (ObjectId × Link Float) :=
  page.arcs.keys.filterMap fun arc =>
    ((linkOf? d page ((outlines settings page d).map (·.2.1)) arc).map Link.straight).map
      fun link => (arc, link)

theorem Alike.straights (h : Alike settings page d e) :
    straights settings page e = straights settings page d := by
  rw [Layout.straights, Layout.straights, h.outlines]
  refine List.filterMap_congr fun arc _ => ?_
  rw [straight_linkOf? d e]

theorem straights_exportPage : straights settings page d =
    (page.arcs.keys.filterMap fun arc =>
      (linkOf? d page ((nodesOn d page).map (·.2.1)) arc).map fun link => (arc, link)).map
        fun l => (l.1, l.2.straight) := by
  rw [straights, outlines, List.map_map, List.map_filterMap]
  refine List.filterMap_congr fun arc _ => ?_
  cases h : linkOf? d page ((nodesOn d page).map (·.2.1)) arc <;> simp [Function.comp_def, h]

theorem arcs_exportPage : (exportPage d page settings).arcs =
    (straights settings page d).map (·.1) := by
  rw [straights_exportPage, List.map_map]
  rfl

theorem straight_exportPage : (exportPage d page settings).graph.edges.map Link.straight =
    (straights settings page d).map (·.2) := by
  rw [straights_exportPage, List.map_map, exportPage, List.map_map]
  rfl

theorem Alike.draw (h : Alike settings page d e) :
    settings.method.draw (exportPage e page settings).graph =
      settings.method.draw (exportPage d page settings).graph := by
  refine Layered.Method.draw_congr ?_
  rw [Graph.undrawn, Graph.undrawn, unplaced_exportPage, unplaced_exportPage, straight_exportPage,
    straight_exportPage, h.outlines, h.straights]

theorem Alike.drawingOf (h : Alike settings page d e) (drawn : Graph Float) :
    drawingOf e page settings drawn = drawingOf d page settings drawn := by
  rw [Layout.drawingOf, Layout.drawingOf, nodes_exportPage, nodes_exportPage, arcs_exportPage,
    arcs_exportPage, h.outlines, h.straights]

theorem size_of_mem_boxes (h : (exportPage d page settings).graph.DrawnAs drawn) {i : ObjectId}
    {box : Box Float} (hb : (i, box) ∈ (exportPage d page settings).nodes.zip drawn.nodes) :
    ∃ n, d.node? i = some n ∧ boxSize settings n = { x := box.width, y := box.height } := by
  have hnodes : drawn.nodes.map Box.unplaced = (outlines settings page d).map outlineBox :=
    (congrArg Graph.nodes h.undrawn).trans unplaced_exportPage
  have hmem : (i, box.unplaced) ∈ (outlines settings page d).map fun n => (n.1, outlineBox n) := by
    rw [← List.zip_map', ← hnodes, ← nodes_exportPage, List.zip_map_right]
    exact List.mem_map_of_mem (f := Prod.map id Box.unplaced) hb
  obtain ⟨n, hn, hpair⟩ := List.mem_map.mp hmem
  obtain ⟨m, hm, rfl⟩ := List.mem_map.mp hn
  obtain ⟨hid, hbox⟩ := Prod.mk.inj hpair
  subst hid
  have hw : (boxSize settings m.2.2).x = box.width := (congrArg Box.width hbox :)
  have hh : (boxSize settings m.2.2).y = box.height := (congrArg Box.height hbox :)
  refine ⟨m.2.2, (mem_nodesOn hm).2, ?_⟩
  rw [← hw, ← hh]

/-- A size that was taken over is kept: it is positive, or the one from the settings. -/
theorem boxSize_of_size {n m : NodeData} (h : m.size = boxSize settings n) :
    boxSize settings m = boxSize settings n := by
  cases hn : decide (n.size.x > 0) && decide (n.size.y > 0) with
  | true =>
    have hsize : boxSize settings n = n.size := by rw [boxSize, hn, if_pos rfl]
    rw [boxSize, h, hsize, hn, if_pos rfl]
  | false =>
    have hsize : boxSize settings n = { x := settings.nodeSize, y := settings.nodeSize } := by
      rw [boxSize, hn]
      rfl
    rw [boxSize, h, hsize, ite_self]

theorem isOn_drawingOf (hp : d.page? key = some page) :
    (drawingOf d page settings drawn).IsOn d key := by
  have hpage := Document.page?_eq_some_iff.mp hp
  constructor <;> intro i hi
  · obtain ⟨b, hb, rfl⟩ := List.mem_map.mp hi
    exact ⟨_, hpage, .inr (.inl (mem_nodes_exportPage (List.of_mem_zip hb).1).1)⟩
  · obtain ⟨l, hl, rfl⟩ := List.mem_map.mp hi
    exact ⟨_, hpage, .inr (.inr (mem_arcs_exportPage (List.of_mem_zip hl).1))⟩

theorem boxSize_redraw (h : (exportPage d page settings).graph.DrawnAs drawn) (i : ObjectId) :
    ((d.redraw (drawingOf d page settings drawn)).node? i).map (boxSize settings) =
      (d.node? i).map (boxSize settings) := by
  rw [Document.node?, Document.node?, Document.object?_redraw]
  cases ho : d.object? i with
  | none => rfl
  | some o =>
    simp only [Option.map_some, Option.bind_some, Drawing.node?_redraw]
    cases hbox : lastOf (drawingOf d page settings drawn).boxes i with
    | none => rfl
    | some box =>
      obtain ⟨n, hn, hsize⟩ := size_of_mem_boxes h (mem_of_lastOf hbox)
      have hon : o.node? = some n := by simpa [Document.node?, ho] using hn
      have hmoved : (o.moveTo box).node? = some { n with
          position := { x := box.x, y := box.y }
          size := { x := box.width, y := box.height } } := by
        rw [Object.moveTo, Object.node?_mapNode, hon]
        rfl
      rw [Option.elim_some, hmoved, hon, Option.map_some, Option.map_some,
        boxSize_of_size hsize.symm]

def unnamedAt (d : Document) (key : ObjectId) : Except NetError Page :=
  (pageAt d key).map Page.unnamed

theorem unnamedAt_of_map {f : Object → Object} (h : e.object? key = (d.object? key).map f)
    (hid : ∀ o, (f o).id = o.id)
    (hpage : ∀ o, (f o).page?.map Page.unnamed = o.page?.map Page.unnamed) :
    unnamedAt e key = unnamedAt d key := by
  rw [unnamedAt, unnamedAt, pageAt, pageAt, h]
  cases d.object? key with
  | none => rfl
  | some o =>
    have ho := hpage o
    have hi := hid o
    rw [Option.map_some]
    cases hfo : f o <;> cases o <;> simp_all [Object.page?, Except.map]

/-- A page is drawn alike in two documents in which it is the same but for its name and shows its
nodes alike: the answer and the drawing are the same. The drawing is on the page, and changes none
of the sizes that nodes are drawn with. -/
theorem exists_drawing (settings : Settings) (hpage : unnamedAt e key = unnamedAt d key)
    (ha : ∀ page, d.page? key = some page → Alike settings page d e) :
    ∃ (g : Drawing) (answer : Except NetError (Summary × Event)), g.IsOn d key ∧
      (∀ i, ((d.redraw g).node? i).map (boxSize settings) =
        (d.node? i).map (boxSize settings)) ∧
      layoutInPlace d key settings = (d.redraw g, answer) ∧
      layoutInPlace e key settings = (e.redraw g, answer) := by
  have hnone : ({} : Drawing).IsOn d key := ⟨fun _ h => (nomatch h), fun _ h => (nomatch h)⟩
  cases hd : pageAt d key with
  | error cause =>
    have he : pageAt e key = .error cause := by
      rw [unnamedAt, unnamedAt, hd] at hpage
      cases hq : pageAt e key <;> simp_all [Except.map]
    refine ⟨{}, .error cause, hnone, fun _ => by rw [Document.redraw_none], ?_, ?_⟩
    · rw [layoutInPlace_of_error hd, Document.redraw_none]
    · rw [layoutInPlace_of_error he, Document.redraw_none]
  | ok page =>
    obtain ⟨other, he, hother⟩ : ∃ other, pageAt e key = .ok other ∧
        other.unnamed = page.unnamed := by
      rw [unnamedAt, unnamedAt, hd] at hpage
      cases hq : pageAt e key <;> simp_all [Except.map]
    have halike := ha page (pageAt_eq_ok_iff.mp hd)
    have hid : other.id = page.id := (congrArg Page.id hother :)
    have hexport : exportPage e other settings = exportPage e page settings :=
      (congrArg (exportPage e · settings) hother :)
    have hdrawing : drawingOf e other settings = drawingOf e page settings := by
      funext drawn
      rw [drawingOf, drawingOf, hexport]
    rw [layoutInPlace_of_page hd, layoutInPlace_of_page he, hexport, hdrawing, hid, halike.draw]
    cases hdraw : settings.method.draw (exportPage d page settings).graph with
    | error cause =>
      refine ⟨{}, .error (.layout page.id cause), hnone, fun _ => by rw [Document.redraw_none],
        ?_, ?_⟩ <;> rw [Document.redraw_none]
    | ok r =>
      refine ⟨_, _, isOn_drawingOf (pageAt_eq_ok_iff.mp hd),
        boxSize_redraw (Layered.Method.drawnAs_of_draw hdraw), rfl, ?_⟩
      dsimp only
      rw [halike.drawingOf, nodes_exportPage, nodes_exportPage, arcs_exportPage, arcs_exportPage,
        halike.outlines, halike.straights]

theorem exists_drawing_self (d : Document) (key : ObjectId) (settings : Settings) :
    ∃ (g : Drawing) (answer : Except NetError (Summary × Event)), g.IsOn d key ∧
      (∀ i, ((d.redraw g).node? i).map (boxSize settings) =
        (d.node? i).map (boxSize settings)) ∧
      layoutInPlace d key settings = (d.redraw g, answer) := by
  obtain ⟨g, answer, hg, hsizes, hd, -⟩ := exists_drawing settings rfl fun _ _ _ _ => rfl
  exact ⟨g, answer, hg, hsizes, hd⟩

end Layout

end PagedNets
