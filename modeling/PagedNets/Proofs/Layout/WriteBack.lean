import PagedNets.Proofs.Document.Nesting
import PagedNets.Proofs.Layered.Redrawing

/-!
Writing a drawing back to a document. Nodes are moved and arcs bent one by one, and a move may be
refused; but a drawing holds nothing that is refused, so that laying out a page either changes
nothing or gives every node its box and every arc its bends.
-/

set_option autoImplicit false

namespace PagedNets

open Layered (Graph Box Link Summary)

namespace Document

variable {d : Document} {i : ObjectId} {f g : ObjectId → Object → Object}

def mapObjects (d : Document) (f : ObjectId → Object → Object) : Document :=
  ⟨⟨d.objects.entries.map fun e => (e.1, f e.1 e.2)⟩⟩

theorem mapObjects_self (h : ∀ e ∈ d.objects.entries, f e.1 e.2 = e.2) : d.mapObjects f = d := by
  have hentries : d.objects.entries.map (fun e => (e.1, f e.1 e.2)) = d.objects.entries :=
    (List.map_congr_left fun e he => congrArg (Prod.mk e.1) (h e he)).trans (List.map_id _)
  rw [mapObjects, hentries]

theorem mapObjects_congr (h : ∀ e ∈ d.objects.entries, f e.1 e.2 = g e.1 e.2) :
    d.mapObjects f = d.mapObjects g := by
  have hentries : d.objects.entries.map (fun e => (e.1, f e.1 e.2)) =
      d.objects.entries.map fun e => (e.1, g e.1 e.2) :=
    List.map_congr_left fun e he => by rw [h e he]
  rw [mapObjects, mapObjects, hentries]

@[simp] theorem mapObjects_mapObjects (d : Document) (f g : ObjectId → Object → Object) :
    (d.mapObjects f).mapObjects g = d.mapObjects fun i o => g i (f i o) := by
  simp only [mapObjects, List.map_map]
  rfl

theorem modify_eq_mapObjects (d : Document) (i : ObjectId) (f : Object → Object) :
    d.modify i f = d.mapObjects fun j o => if j = i then f o else o := by
  have hentries : d.objects.entries.map (fun e => if e.1 = i then (e.1, f e.2) else e) =
      d.objects.entries.map fun e => (e.1, if e.1 = i then f e.2 else e.2) :=
    List.map_congr_left fun e _ => by split <;> rfl
  rw [modify, Table.modify, mapObjects, hentries]

theorem keys_mapObjects (d : Document) (f : ObjectId → Object → Object) :
    (d.mapObjects f).keys = d.keys := by
  simp only [keys, Table.keys, mapObjects, List.map_map]
  rfl

theorem object?_mapObjects (d : Document) (f : ObjectId → Object → Object) (i : ObjectId) :
    (d.mapObjects f).object? i = (d.object? i).map (f i) := by
  obtain ⟨⟨es⟩⟩ := d
  induction es with
  | nil => rfl
  | cons e es ih =>
    have hcons : (mapObjects ⟨⟨e :: es⟩⟩ f).object? i =
        if e.1 = i then some (f e.1 e.2) else (mapObjects ⟨⟨es⟩⟩ f).object? i :=
      Table.find?_cons _ _ _
    have hold : (⟨⟨e :: es⟩⟩ : Document).object? i =
        if e.1 = i then some e.2 else (⟨⟨es⟩⟩ : Document).object? i := Table.find?_cons _ _ _
    rw [hcons, hold, ih]
    split
    · next he =>
      rw [he]
      rfl
    · rfl

end Document

namespace Object

def moveTo (box : Box Float) (o : Object) : Object :=
  o.mapNode fun n => { n with
    position := { x := box.x, y := box.y }
    size := { x := box.width, y := box.height } }

def bend (link : Link Float) : Object → Object
  | .arc a => .arc { a with curve := Document.curvePoints link }
  | o => o

@[simp] theorem moveTo_moveTo (b c : Box Float) (o : Object) :
    (o.moveTo b).moveTo c = o.moveTo c := by
  cases o <;> rfl

@[simp] theorem bend_bend (b c : Link Float) (o : Object) : (o.bend b).bend c = o.bend c := by
  cases o <;> rfl

@[simp] theorem isSome_node?_moveTo (b : Box Float) (o : Object) :
    (o.moveTo b).node?.isSome = o.node?.isSome := by
  cases o <;> rfl

end Object

namespace Layout

def lastOf {β : Type} (l : List (ObjectId × β)) (i : ObjectId) : Option β :=
  (⟨l.reverse⟩ : Table ObjectId β).find? i

section LastOf

variable {β : Type} {l : List (ObjectId × β)} {i j : ObjectId} {b : β}

theorem lastOf_append (l m : List (ObjectId × β)) (i : ObjectId) :
    lastOf (l ++ m) i = (lastOf m i).or (lastOf l i) := by
  rw [lastOf, List.reverse_append, Table.find?_append]
  rfl

theorem lastOf_cons (j : ObjectId) (b : β) (l : List (ObjectId × β)) (i : ObjectId) :
    lastOf ((j, b) :: l) i = (lastOf l i).or (if i = j then some b else none) := by
  have hsingle : lastOf [(j, b)] i = if i = j then some b else none := by
    rw [lastOf, List.reverse_singleton, Table.find?_cons]
    exact if_congr eq_comm rfl rfl
  rw [← hsingle, ← lastOf_append, List.singleton_append]

theorem elim_lastOf_cons {put : β → Object → Object} (h : ∀ b c o, put c (put b o) = put c o)
    (j : ObjectId) (b : β) (l : List (ObjectId × β)) (i : ObjectId) (o : Object) :
    (lastOf ((j, b) :: l) i).elim o (put · o) =
      (lastOf l i).elim (if i = j then put b o else o)
        (put · (if i = j then put b o else o)) := by
  rw [lastOf_cons]
  cases lastOf l i with
  | none =>
    rw [Option.none_or]
    split <;> rfl
  | some c =>
    rw [Option.some_or, Option.elim_some, Option.elim_some]
    split
    · exact (h b c o).symm
    · rfl

theorem mem_of_lastOf (h : lastOf l i = some b) : (i, b) ∈ l :=
  List.mem_reverse.mp (Table.mem_entries_of_find? h)

theorem lastOf_eq_none (h : i ∉ l.map (·.1)) : lastOf l i = none := by
  cases hb : lastOf l i with
  | none => rfl
  | some b => exact absurd (List.mem_map_of_mem (f := (·.1)) (mem_of_lastOf hb)) h

end LastOf

/-- The boxes and links of a drawing under the keys of the nodes and arcs that they stand for. -/
structure Drawing where
  boxes : List (ObjectId × Box Float) := []
  links : List (ObjectId × Link Float) := []

namespace Drawing

/-- What a drawing makes of the object under a key. If there is more than one box or link for it,
the last one counts. -/
def redraw (g : Drawing) (i : ObjectId) (o : Object) : Object :=
  let moved := (lastOf g.boxes i).elim o o.moveTo
  (lastOf g.links i).elim moved moved.bend

structure IsOn (g : Drawing) (d : Document) (key : ObjectId) : Prop where
  boxes : ∀ i ∈ g.boxes.map (·.1), d.Holds key i
  links : ∀ i ∈ g.links.map (·.1), d.Holds key i

variable {g : Drawing}

@[simp] theorem redraw_none (i : ObjectId) (o : Object) : ({} : Drawing).redraw i o = o := rfl

theorem eq_redraw {β : Type} {f : Object → β} (hmove : ∀ box o, f (o.moveTo box) = f o)
    (hbend : ∀ link o, f (o.bend link) = f o) (g : Drawing) (i : ObjectId) (o : Object) :
    f (g.redraw i o) = f o := by
  unfold redraw
  cases lastOf g.boxes i <;> cases lastOf g.links i <;> simp [hmove, hbend]

@[simp] theorem id_redraw (g : Drawing) (i : ObjectId) (o : Object) : (g.redraw i o).id = o.id :=
  eq_redraw (fun _ o => by cases o <;> rfl) (fun _ o => by cases o <;> rfl) g i o

@[simp] theorem page?_redraw (g : Drawing) (i : ObjectId) (o : Object) :
    (g.redraw i o).page? = o.page? :=
  eq_redraw (fun _ o => by cases o <;> rfl) (fun _ o => by cases o <;> rfl) g i o

theorem redraw_of_node {o : Object} (h : o.node?.isSome = true) (i : ObjectId) :
    g.redraw i o = (lastOf g.boxes i).elim o o.moveTo := by
  unfold redraw
  cases lastOf g.boxes i <;> cases lastOf g.links i <;> cases o <;> first | rfl | cases h

theorem redraw_arc (i : ObjectId) (a : Arc) :
    g.redraw i (.arc a) = (lastOf g.links i).elim (.arc a) (Object.arc a).bend := by
  unfold redraw
  cases lastOf g.boxes i <;> rfl

theorem redraw_of_asOwner? {o : Object} {w : Owner} (h : o.asOwner? = some w) (i : ObjectId) :
    g.redraw i o = o := by
  unfold redraw
  cases lastOf g.boxes i <;> cases lastOf g.links i <;> cases o <;> first | rfl | cases h

theorem node?_redraw (g : Drawing) (i : ObjectId) (o : Object) :
    (g.redraw i o).node? = ((lastOf g.boxes i).elim o o.moveTo).node? := by
  unfold redraw
  cases lastOf g.boxes i <;> cases lastOf g.links i <;> cases o <;> rfl

@[simp] theorem redraw_redraw (g : Drawing) (i : ObjectId) (o : Object) :
    g.redraw i (g.redraw i o) = g.redraw i o := by
  unfold redraw
  cases lastOf g.boxes i <;> cases lastOf g.links i <;> cases o <;> rfl

def andThen (g h : Drawing) : Drawing :=
  { boxes := g.boxes ++ h.boxes, links := g.links ++ h.links }

theorem redraw_andThen (g h : Drawing) (i : ObjectId) (o : Object) :
    (g.andThen h).redraw i o = h.redraw i (g.redraw i o) := by
  unfold redraw andThen
  dsimp only
  rw [lastOf_append, lastOf_append]
  cases lastOf h.boxes i <;> cases lastOf g.boxes i <;> cases lastOf h.links i <;>
    cases lastOf g.links i <;> cases o <;> rfl

theorem IsOn.redraw_of_not_holds {d : Document} {key i : ObjectId} (h : g.IsOn d key)
    (hi : ¬ d.Holds key i) (o : Object) : g.redraw i o = o := by
  rw [redraw, lastOf_eq_none fun hm => hi (h.boxes i hm),
    lastOf_eq_none fun hm => hi (h.links i hm)]
  rfl

end Drawing

end Layout

namespace Document

open Layout (Drawing)

def redraw (d : Document) (g : Drawing) : Document := d.mapObjects g.redraw

@[simp] theorem redraw_none (d : Document) : d.redraw {} = d := mapObjects_self fun _ _ => rfl

@[simp] theorem redraw_redraw (d : Document) (g : Drawing) :
    (d.redraw g).redraw g = d.redraw g := by
  rw [redraw, redraw, mapObjects_mapObjects]
  exact mapObjects_congr fun e _ => g.redraw_redraw e.1 e.2

theorem redraw_andThen (d : Document) (g h : Drawing) :
    d.redraw (g.andThen h) = (d.redraw g).redraw h := by
  rw [redraw, redraw, redraw, mapObjects_mapObjects]
  exact mapObjects_congr fun e _ => g.redraw_andThen h e.1 e.2

@[simp] theorem keys_redraw (d : Document) (g : Drawing) : (d.redraw g).keys = d.keys :=
  d.keys_mapObjects g.redraw

theorem object?_redraw (d : Document) (g : Drawing) (i : ObjectId) :
    (d.redraw g).object? i = (d.object? i).map (g.redraw i) :=
  d.object?_mapObjects g.redraw i

end Document

namespace Layout

section Writing

variable {d : Document} {boxes : List (ObjectId × Box Float)}

def Fit (d : Document) (boxes : List (ObjectId × Box Float)) : Prop :=
  ∀ b ∈ boxes, (d.node? b.1).isSome = true ∧
    ({ x := b.2.x, y := b.2.y } : Point).isFinite = true ∧
    ({ x := b.2.width, y := b.2.height } : Point).isFinite = true

theorem setGeometry_eq_modify {i : ObjectId} {box : Box Float} (h : Fit d [(i, box)]) :
    d.setGeometry i { x := box.x, y := box.y } { x := box.width, y := box.height } =
      .ok (d.modify i (·.moveTo box)) := by
  obtain ⟨hnode, hposition, hsize⟩ := h (i, box) List.mem_cons_self
  obtain ⟨n, hn⟩ := Option.isSome_iff_exists.mp hnode
  obtain ⟨o, ho, hon⟩ := Document.node?_eq_some_iff.mp hn
  simp only [Document.setGeometry, ho, hon, hposition, hsize]
  rfl

theorem Fit.modify (h : Fit d boxes) (i : ObjectId) (box : Box Float) :
    Fit (d.modify i (·.moveTo box)) boxes := by
  intro b hb
  obtain ⟨hnode, hfinite⟩ := h b hb
  refine ⟨?_, hfinite⟩
  obtain ⟨n, hn⟩ := Option.isSome_iff_exists.mp hnode
  obtain ⟨o, ho, hon⟩ := Document.node?_eq_some_iff.mp hn
  have ho' : (d.modify i (·.moveTo box)).object? b.1 =
      some (if b.1 = i then o.moveTo box else o) := by
    rw [Document.object?_modify, ho]
    split <;> rfl
  rw [Document.node?, ho', Option.bind_some]
  split
  · rw [Object.isSome_node?_moveTo, hon]
    rfl
  · rw [hon]
    rfl

theorem writeBoxes_of_fit (h : Fit d boxes) :
    writeBoxes d boxes = .ok (d.mapObjects fun i o => (lastOf boxes i).elim o o.moveTo) := by
  induction boxes generalizing d with
  | nil => exact congrArg Except.ok (Document.mapObjects_self fun _ _ => rfl).symm
  | cons b boxes ih =>
    obtain ⟨i, box⟩ := b
    obtain ⟨hfirst, hrest⟩ := List.forall_mem_cons.mp h
    have hstep := setGeometry_eq_modify (List.forall_mem_singleton.mpr hfirst)
    have hlater := ih (Fit.modify hrest i box)
    simp only [writeBoxes, hstep, bind, Except.bind]
    rw [hlater, Document.modify_eq_mapObjects, Document.mapObjects_mapObjects]
    refine congrArg Except.ok (Document.mapObjects_congr fun e _ => ?_)
    exact (elim_lastOf_cons Object.moveTo_moveTo i box boxes e.1 e.2).symm

theorem writeCurves_eq_mapObjects (d : Document) (links : List (ObjectId × Link Float)) :
    writeCurves d links = d.mapObjects fun i o => (lastOf links i).elim o o.bend := by
  induction links generalizing d with
  | nil => exact (Document.mapObjects_self fun _ _ => rfl).symm
  | cons l links ih =>
    obtain ⟨i, link⟩ := l
    have hstep : writeCurves d ((i, link) :: links) =
        writeCurves (d.modify i (·.bend link)) links := rfl
    rw [hstep, ih, Document.modify_eq_mapObjects, Document.mapObjects_mapObjects]
    refine Document.mapObjects_congr fun e _ => ?_
    exact (elim_lastOf_cons Object.bend_bend i link links e.1 e.2).symm

end Writing

section Page

variable {d : Document} {page : Page} {key : ObjectId} {settings : Settings}
  {drawn : Graph Float} {summary : Summary}

theorem drawExported_eq_ok_iff : drawExported settings page (exportPage d page settings) =
    .ok (drawn, summary) ↔
      settings.method.draw (exportPage d page settings).graph = .ok (drawn, summary) := by
  unfold drawExported
  cases settings.method.draw (exportPage d page settings).graph <;> simp

theorem mem_nodesOn {n : ObjectId × Nat × NodeData} (h : n ∈ nodesOn d page) :
    n.1 ∈ page.nodes.keys ∧ d.node? n.1 = some n.2.2 := by
  obtain ⟨e, he, hn⟩ := List.mem_filterMap.mp h
  obtain ⟨node, hnode, rfl⟩ := Option.map_eq_some_iff.mp hn
  exact ⟨List.mem_map_of_mem he, hnode⟩

theorem mem_nodes_exportPage {i : ObjectId} (h : i ∈ (exportPage d page settings).nodes) :
    i ∈ page.nodes.keys ∧ (d.node? i).isSome = true := by
  obtain ⟨n, hn, rfl⟩ := List.mem_map.mp h
  obtain ⟨hkey, hnode⟩ := mem_nodesOn hn
  exact ⟨hkey, Option.isSome_iff_exists.mpr ⟨_, hnode⟩⟩

theorem mem_arcs_exportPage {i : ObjectId} (h : i ∈ (exportPage d page settings).arcs) :
    i ∈ page.arcs.keys := by
  obtain ⟨l, hl, rfl⟩ := List.mem_map.mp h
  obtain ⟨arc, harc, hlink⟩ := List.mem_filterMap.mp hl
  obtain ⟨link, -, rfl⟩ := Option.map_eq_some_iff.mp hlink
  exact harc

theorem fit_of_drawnAs (h : (exportPage d page settings).graph.DrawnAs drawn) :
    Fit d ((exportPage d page settings).nodes.zip drawn.nodes) := by
  intro b hb
  obtain ⟨hid, hbox⟩ := List.of_mem_zip hb
  obtain ⟨hx, hy⟩ := h.places b.2 hbox
  obtain ⟨hw, hh⟩ := h.sizes b.2 hbox
  simp only [Layered.isLength, Bool.and_eq_true] at hw hh
  exact ⟨(mem_nodes_exportPage hid).2, Bool.and_eq_true_iff.mpr ⟨hx, hy⟩,
    Bool.and_eq_true_iff.mpr ⟨hw.1, hh.1⟩⟩

def drawingOf (d : Document) (page : Page) (settings : Settings) (drawn : Graph Float) : Drawing :=
  { boxes := (exportPage d page settings).nodes.zip drawn.nodes
    links := (exportPage d page settings).arcs.zip drawn.edges }

theorem writeBoxes_writeCurves (h : (exportPage d page settings).graph.DrawnAs drawn) :
    ∃ moved, writeBoxes d ((exportPage d page settings).nodes.zip drawn.nodes) = .ok moved ∧
      writeCurves moved ((exportPage d page settings).arcs.zip drawn.edges) =
        d.redraw (drawingOf d page settings drawn) := by
  refine ⟨_, writeBoxes_of_fit (fit_of_drawnAs h), ?_⟩
  rw [writeCurves_eq_mapObjects, Document.mapObjects_mapObjects]
  rfl

def laidOut (d : Document) (page : Page) (settings : Settings) (drawn : Graph Float)
    (summary : Summary) : LaidOut :=
  let exported := exportPage d page settings
  { document := d.redraw (drawingOf d page settings drawn)
    summary := summary
    event := .laidOut page.id exported.nodes.length exported.arcs.length summary.layers
      summary.crossings }

/-- Laying out a page is looking it up, drawing it, and writing the drawing back. -/
theorem layoutPage_eq (d : Document) (key : ObjectId) (settings : Settings) :
    layoutPage d key settings = (pageAt d key).bind fun page =>
      (drawExported settings page (exportPage d page settings)).map fun r =>
        laidOut d page settings r.1 r.2 := by
  cases hpage : pageAt d key with
  | error cause => simp [layoutPage, hpage, bind, Except.bind]
  | ok page =>
    cases hdraw : drawExported settings page (exportPage d page settings) with
    | error cause => simp [layoutPage, hpage, hdraw, bind, Except.bind, Except.map]
    | ok r =>
      obtain ⟨drawn, summary⟩ := r
      obtain ⟨moved, hmoved, hwritten⟩ :=
        writeBoxes_writeCurves (Layered.Method.drawnAs_of_draw (drawExported_eq_ok_iff.mp hdraw))
      simp only [layoutPage, hpage, hdraw, hmoved, bind, Except.bind, Except.map]
      rw [hwritten]
      rfl

theorem pageAt_eq_ok_iff : pageAt d key = .ok page ↔ d.page? key = some page := by
  unfold pageAt Document.page?
  cases d.object? key with
  | none => simp
  | some o => cases o <;> simp [Object.page?]

theorem layoutPage_eq_ok_iff {done : LaidOut} : layoutPage d key settings = .ok done ↔
    ∃ page drawn summary, d.page? key = some page ∧
      settings.method.draw (exportPage d page settings).graph = .ok (drawn, summary) ∧
      done = laidOut d page settings drawn summary := by
  rw [layoutPage_eq]
  constructor
  · intro h
    cases hpage : pageAt d key with
    | error cause => simp [hpage, Except.bind] at h
    | ok page =>
      cases hdraw : drawExported settings page (exportPage d page settings) with
      | error cause => simp [hpage, hdraw, Except.bind, Except.map] at h
      | ok r =>
        simp only [hpage, hdraw, Except.bind, Except.map, Except.ok.injEq] at h
        exact ⟨page, r.1, r.2, pageAt_eq_ok_iff.mp hpage, drawExported_eq_ok_iff.mp hdraw, h.symm⟩
  · rintro ⟨page, drawn, summary, hpage, hdraw, rfl⟩
    rw [pageAt_eq_ok_iff.mpr hpage, Except.bind, drawExported_eq_ok_iff.mpr hdraw]
    rfl

end Page

section InPlace

/-- Moves nodes one after the other. What was moved before a failure stays moved. -/
def moveNodes (d : Document) : List (ObjectId × Box Float) → Document × Except NetError Unit
  | [] => (d, .ok ())
  | (id, box) :: rest =>
    match d.setGeometry id { x := box.x, y := box.y } { x := box.width, y := box.height } with
    | .error cause => (d, .error cause)
    | .ok next => moveNodes next rest

/-- Lays out a page on the document itself, step by step, with the document that each way out
leaves behind. -/
def layoutInPlace (d : Document) (key : ObjectId) (settings : Settings) :
    Document × Except NetError (Summary × Event) :=
  match pageAt d key with
  | .error cause => (d, .error cause)
  | .ok page =>
    let exported := exportPage d page settings
    match drawExported settings page exported with
    | .error cause => (d, .error cause)
    | .ok (drawn, summary) =>
      match moveNodes d (exported.nodes.zip drawn.nodes) with
      | (moved, .error cause) => (moved, .error cause)
      | (moved, .ok ()) =>
        (writeCurves moved (exported.arcs.zip drawn.edges),
          .ok (summary, .laidOut page.id exported.nodes.length exported.arcs.length summary.layers
            summary.crossings))

theorem moveNodes_of_writeBoxes {d moved : Document} {boxes : List (ObjectId × Box Float)}
    (h : writeBoxes d boxes = .ok moved) : moveNodes d boxes = (moved, .ok ()) := by
  induction boxes generalizing d with
  | nil =>
    cases h
    rfl
  | cons b boxes ih =>
    obtain ⟨i, box⟩ := b
    simp only [writeBoxes, bind, Except.bind] at h
    simp only [moveNodes]
    split at h
    · cases h
    · next next hnext =>
      rw [hnext]
      exact ih h

/-- Step by step a page is laid out as at once: a failure comes before the first step. -/
theorem layoutInPlace_eq (d : Document) (key : ObjectId) (settings : Settings) :
    layoutInPlace d key settings =
      match layoutPage d key settings with
      | .error cause => (d, .error cause)
      | .ok done => (done.document, .ok (done.summary, done.event)) := by
  rw [layoutPage_eq]
  cases hpage : pageAt d key with
  | error cause => simp only [layoutInPlace, hpage, Except.bind]
  | ok page =>
    cases hdraw : drawExported settings page (exportPage d page settings) with
    | error cause => simp only [layoutInPlace, hpage, hdraw, Except.bind, Except.map]
    | ok r =>
      obtain ⟨drawn, summary⟩ := r
      obtain ⟨moved, hmoved, hwritten⟩ := writeBoxes_writeCurves
        (Layered.Method.drawnAs_of_draw (drawExported_eq_ok_iff.mp hdraw))
      simp only [layoutInPlace, hpage, hdraw, moveNodes_of_writeBoxes hmoved, hwritten,
        Except.bind, Except.map]
      rfl

theorem layoutInPlace_of_error {d : Document} {key : ObjectId} {cause : NetError}
    (h : pageAt d key = .error cause) (settings : Settings) :
    layoutInPlace d key settings = (d, .error cause) := by
  rw [layoutInPlace, h]

theorem layoutInPlace_of_page {d : Document} {key : ObjectId} {page : Page}
    (h : pageAt d key = .ok page) (settings : Settings) :
    layoutInPlace d key settings =
      match settings.method.draw (exportPage d page settings).graph with
      | .error cause => (d, .error (.layout page.id cause))
      | .ok (drawn, summary) =>
        (d.redraw (drawingOf d page settings drawn),
          .ok (summary, .laidOut page.id (exportPage d page settings).nodes.length
            (exportPage d page settings).arcs.length summary.layers summary.crossings)) := by
  rw [layoutInPlace_eq, layoutPage_eq, h, Except.bind, drawExported]
  cases settings.method.draw (exportPage d page settings).graph <;> rfl

theorem layoutPage_eq_inPlace (d : Document) (key : ObjectId) (settings : Settings) :
    layoutPage d key settings = (layoutInPlace d key settings).2.map fun r =>
      { document := (layoutInPlace d key settings).1, summary := r.1, event := r.2 } := by
  rw [layoutInPlace_eq]
  cases layoutPage d key settings <;> rfl

end InPlace

end Layout

end PagedNets
