import PagedNets.Proofs.Layout.Alike

set_option autoImplicit false

namespace PagedNets

open Layered (Graph Box Link Summary)

/-- What becomes of the object under a key when a page is laid out: a node of the page is moved and
resized, an arc of the page is bent, and all else stays. -/
inductive Object.Redrawn (page : Page) (i : ObjectId) (o : Object) : Object → Prop
  | kept : Object.Redrawn page i o o
  | moved (position size : Point) (listed : i ∈ page.nodes.keys) (node : o.node?.isSome = true)
      (finite : position.isFinite = true ∧ size.isFinite = true) :
      Object.Redrawn page i o
        (o.mapNode fun n => { n with position := position, size := size })
  | bent (a : Arc) (curve : List Point) (listed : i ∈ page.arcs.keys) (arc : o = .arc a)
      (finite : curve.all Point.isFinite = true) :
      Object.Redrawn page i o (.arc { a with curve := curve })

def Document.Redraws (page : Page) (d e : Document) : Prop :=
  List.Forall₂ (fun x y => y.1 = x.1 ∧ x.2.Redrawn page x.1 y.2) d.objects.entries
    e.objects.entries

namespace Layout

variable {d : Document} {page : Page} {key other : ObjectId} {settings : Settings}
  {drawn : Graph Float}

/-- Laying out a page of a document is all or nothing, and redraws nothing but the page. -/
structure Confined (d : Document) (key : ObjectId) (settings : Settings) : Prop where
  refused : ∀ cause, layoutPage d key settings = .error cause →
    layoutInPlace d key settings = (d, .error cause)
  done : ∀ done, layoutPage d key settings = .ok done →
    layoutInPlace d key settings = (done.document, .ok (done.summary, done.event)) ∧
      ∃ page, d.page? key = some page ∧ d.Redraws page done.document

structure Interchange (d : Document) (key other : ObjectId) (s t : Settings) : Prop where
  answer : (layoutInPlace (layoutInPlace d other t).1 key s).2 = (layoutInPlace d key s).2
  answerOther : (layoutInPlace (layoutInPlace d key s).1 other t).2 = (layoutInPlace d other t).2
  document : (layoutInPlace (layoutInPlace d key s).1 other t).1 =
    (layoutInPlace (layoutInPlace d other t).1 key s).1

theorem redrawn_drawingOf (h : (exportPage d page settings).graph.DrawnAs drawn) (i : ObjectId)
    (o : Object) : o.Redrawn page i ((drawingOf d page settings drawn).redraw i o) := by
  have hnode : o.node?.isSome = true →
      o.Redrawn page i ((drawingOf d page settings drawn).redraw i o) := by
    intro ho
    rw [Drawing.redraw_of_node ho]
    cases hbox : lastOf (drawingOf d page settings drawn).boxes i with
    | none => exact .kept
    | some box =>
      have hmem := mem_of_lastOf hbox
      exact .moved _ _ (mem_nodes_exportPage (List.of_mem_zip hmem).1).1 ho
        (fit_of_drawnAs h (i, box) hmem).2
  cases o with
  | net n =>
    rw [Drawing.redraw_of_asOwner? (w := .net n.id) rfl]
    exact .kept
  | page p =>
    rw [Drawing.redraw_of_asOwner? (w := .page p.id) rfl]
    exact .kept
  | place p => exact hnode rfl
  | transition t => exact hnode rfl
  | arc a =>
    rw [Drawing.redraw_arc]
    cases hlink : lastOf (drawingOf d page settings drawn).links i with
    | none => exact .kept
    | some link =>
      have hmem := List.of_mem_zip (mem_of_lastOf hlink)
      refine .bent a _ (mem_arcs_exportPage hmem.1) rfl ?_
      rw [Document.curvePoints, List.all_map]
      exact h.bends link hmem.2

theorem confined (d : Document) (key : ObjectId) (settings : Settings) :
    Confined d key settings := by
  constructor
  · intro cause h
    rw [layoutInPlace_eq, h]
  · intro done h
    refine ⟨by rw [layoutInPlace_eq, h], ?_⟩
    obtain ⟨page, drawn, summary, hpage, hdraw, rfl⟩ := layoutPage_eq_ok_iff.mp h
    refine ⟨page, hpage, ?_⟩
    have hdrawn := Layered.Method.drawnAs_of_draw hdraw
    refine List.forall₂_map_right_iff.mpr (List.forall₂_same.mpr fun e _ => ⟨rfl, ?_⟩)
    exact redrawn_drawingOf hdrawn e.1 e.2

section Order

variable {s t : Settings}

/-- What is drawn on one page is not seen on another one. -/
theorem alike_redraw (hd : d.Contained) (hne : key ≠ other) {g : Drawing} (hg : g.IsOn d other)
    (hp : d.page? key = some page) : Alike s page d (d.redraw g) := by
  intro i hi
  have hholds : d.Holds key i := ⟨_, Document.page?_eq_some_iff.mp hp, .inr (.inl hi)⟩
  have hout : ¬ d.Holds other i := fun h => hne (hd.oneHolder key other i hholds h)
  rw [Document.node?, Document.node?, Document.object?_redraw]
  cases d.object? i with
  | none => rfl
  | some o => rw [Option.map_some, hg.redraw_of_not_holds hout]

theorem unnamedAt_redraw (d : Document) (g : Drawing) (key : ObjectId) :
    unnamedAt (d.redraw g) key = unnamedAt d key :=
  unnamedAt_of_map (d.object?_redraw g key) (g.id_redraw key) fun o => by rw [g.page?_redraw]

theorem redraw_comm (hd : d.Contained) (hne : key ≠ other) {g h : Drawing}
    (hg : g.IsOn d key) (hh : h.IsOn d other) :
    (d.redraw g).redraw h = (d.redraw h).redraw g := by
  rw [← Document.redraw_andThen, ← Document.redraw_andThen]
  refine Document.mapObjects_congr fun e _ => ?_
  rw [Drawing.redraw_andThen, Drawing.redraw_andThen]
  by_cases hholds : d.Holds key e.1
  · have hout : ¬ d.Holds other e.1 := fun ho => hne (hd.oneHolder key other e.1 hholds ho)
    rw [hh.redraw_of_not_holds hout, hh.redraw_of_not_holds hout]
  · rw [hg.redraw_of_not_holds hholds, hg.redraw_of_not_holds hholds]

theorem interchange (hd : d.Contained) (hne : key ≠ other) (s t : Settings) :
    Interchange d key other s t := by
  obtain ⟨h, second, hh, -, hother⟩ := exists_drawing_self d other t
  obtain ⟨g, first, hg, -, hkey, hafter⟩ := exists_drawing s
    (unnamedAt_redraw d h key) fun _ hp => alike_redraw hd hne hh hp
  obtain ⟨h', second', hh', -, hother', hafter'⟩ := exists_drawing t
    (unnamedAt_redraw d g other) fun _ hp => alike_redraw hd hne.symm hg hp
  have hsame : d.redraw h' = d.redraw h := congrArg Prod.fst (hother'.symm.trans hother)
  constructor
  · rw [hother, hafter, hkey]
  · rw [hkey, hafter', hother']
  · rw [hkey, hafter', hother, hafter, ← hsame]
    exact redraw_comm hd hne hg hh'

end Order

/-- Laying out a page is one step, whatever the document is. It fails with nothing written, or
redraws the nodes and arcs of the page and nothing else; and where a run led to the document, it
does not matter which of two pages is laid out first. -/
theorem layoutPage_confined (d : Document) (key : ObjectId) (settings : Settings) :
    Confined d key settings ∧ (d.Reachable Edit.IsPlain →
      ∀ other t, other ≠ key → Interchange d key other settings t) :=
  ⟨confined d key settings, fun hd _ t hne =>
    interchange (Document.contained_of_tabled hd.registered hd.tabled) hne.symm settings t⟩

/-- Two nodes with an arc on a page, and one node on a page inside it. -/
def pagesRun : List Action :=
  [.edit (.addNet { id := ⟨"n"⟩, format := .placeTransition }),
    .edit (.add ⟨"n"⟩ (.page { id := ⟨"p"⟩ })),
    .edit (.add ⟨"p"⟩ (.place { id := ⟨"a"⟩ })),
    .edit (.add ⟨"p"⟩ (.transition { id := ⟨"b"⟩ })),
    .edit (.add ⟨"p"⟩ (.arc { id := ⟨"ab"⟩, source := ⟨"a"⟩, target := ⟨"b"⟩ })),
    .edit (.add ⟨"p"⟩ (.page { id := ⟨"q"⟩ })),
    .edit (.add ⟨"q"⟩ (.place { id := ⟨"c"⟩ }))]

theorem uses_pagesRun : ∀ a ∈ pagesRun, a.Uses Edit.IsPlain := by
  intro a ha
  simp only [pagesRun, List.mem_cons, List.not_mem_nil, or_false] at ha
  rcases ha with rfl | rfl | rfl | rfl | rfl | rfl | rfl
  · exact ⟨rfl, rfl⟩
  · exact ⟨rfl, rfl, rfl, rfl, rfl⟩
  · trivial
  · trivial
  · trivial
  · exact ⟨rfl, rfl, rfl, rfl, rfl⟩
  · trivial

theorem confined_pagesRun :
    (Document.run pagesRun).Reachable Edit.IsPlain ∧ (⟨"q"⟩ : ObjectId) ≠ ⟨"p"⟩ ∧
      (layoutInPlace (layoutInPlace (Document.run pagesRun) ⟨"q"⟩ {}).1 ⟨"p"⟩ {}).2 =
        .ok (⟨2, 0, 0⟩, .laidOut ⟨"p"⟩ 2 1 2 0) := by
  have hd : (Document.run pagesRun).Reachable Edit.IsPlain := ⟨pagesRun, uses_pagesRun, rfl⟩
  have hne : (⟨"q"⟩ : ObjectId) ≠ ⟨"p"⟩ := by decide
  refine ⟨hd, hne, ((layoutPage_confined _ ⟨"p"⟩ {}).2 hd ⟨"q"⟩ {} hne).answer.trans ?_⟩
  decide +kernel

end Layout

end PagedNets
