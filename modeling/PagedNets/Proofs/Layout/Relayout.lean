import PagedNets.Proofs.Layout.Locality

/-!
Laying out twice is laying out once. A layout sees no names and no coordinates, and of the size of
a node no more than what it would write there; so what it did makes no difference to it.
-/

set_option autoImplicit false

namespace PagedNets

open Layered (Summary)

/-- What a layout sees of an object: no names, no coordinates, and the size that a node is drawn
with. -/
def Object.shown (settings : Layout.Settings) : Object → Object
  | .net n => .net { n with name := none }
  | .page p => .page p.unnamed
  | .place p => .place { id := p.id, node := { size := Layout.boxSize settings p.node } }
  | .transition t => .transition { id := t.id, node := { size := Layout.boxSize settings t.node } }
  | .arc a => .arc { id := a.id, source := a.source, target := a.target }

namespace Layout

variable {d e f : Document} {key i : ObjectId} {settings : Settings} {g : Drawing}

structure Lookalike (settings : Settings) (d e : Document) : Prop where
  keys : e.keys = d.keys
  shown : ∀ i, (e.object? i).map (Object.shown settings) =
    (d.object? i).map (Object.shown settings)

namespace Lookalike

theorem refl (settings : Settings) (d : Document) : Lookalike settings d d := ⟨rfl, fun _ => rfl⟩

theorem trans (h : Lookalike settings d e) (hf : Lookalike settings e f) :
    Lookalike settings d f :=
  ⟨hf.keys.trans h.keys, fun i => (hf.shown i).trans (h.shown i)⟩

theorem size (h : Lookalike settings d e) : e.size = d.size := by
  rw [← Document.length_keys, h.keys, Document.length_keys]

theorem alike (h : Lookalike settings d e) (page : Page) : Alike settings page d e := by
  have hnode : ∀ c : Document, ∀ i, (c.node? i).map (boxSize settings) =
      ((c.object? i).map (Object.shown settings)).bind fun o => o.node?.map (·.size) := by
    intro c i
    rw [Document.node?]
    cases c.object? i with
    | none => rfl
    | some o => cases o <;> rfl
  intro i _
  rw [hnode, hnode, h.shown]

theorem unnamedAt (h : Lookalike settings d e) (key : ObjectId) :
    unnamedAt e key = unnamedAt d key := by
  have hshown : ∀ c : Document, Layout.unnamedAt c key =
      ((c.object? key).map (Object.shown settings)).elim (.error (.unknownObject key)) fun o =>
        o.page?.elim (.error (.notAContainer o.id)) .ok := by
    intro c
    rw [Layout.unnamedAt, pageAt]
    cases c.object? key with
    | none => rfl
    | some o => cases o <;> rfl
  rw [hshown, hshown, h.shown]

theorem pages (h : Lookalike settings d e) (i : ObjectId) :
    (e.page? i).map (·.pages) = (d.page? i).map (·.pages) := by
  have hshown : ∀ c : Document, (c.page? i).map (·.pages) =
      ((c.object? i).map (Object.shown settings)).bind fun o => o.page?.map (·.pages) := by
    intro c
    rw [Document.page?]
    cases c.object? i with
    | none => rfl
    | some o => cases o <;> rfl
  rw [hshown, hshown, h.shown]

end Lookalike

theorem keysOf_unfold_succ (d : Document) (fuel : Nat) (keys : List ObjectId) :
    PageTree.keysOf (d.unfold (fuel + 1) keys) = keys.flatMap fun key =>
      key :: ((d.page? key).map (·.pages)).elim [] fun pages =>
        PageTree.keysOf (d.unfold fuel pages) := by
  induction keys with
  | nil => rfl
  | cons key keys ih =>
    rw [Document.unfold, List.map_cons, ← Document.unfold, PageTree.keysOf, ih, List.flatMap_cons]
    cases d.page? key <;> rfl

theorem keysOf_unfold_zero (d : Document) (keys : List ObjectId) :
    PageTree.keysOf (d.unfold 0 keys) = keys := by
  induction keys with
  | nil => rfl
  | cons key keys ih =>
    rw [Document.unfold, List.map_cons, ← Document.unfold, PageTree.keysOf, ih]
    rfl

theorem Lookalike.keysOf_forest (h : Lookalike settings d e) (keys : List ObjectId) :
    PageTree.keysOf (e.forest keys) = PageTree.keysOf (d.forest keys) := by
  have hunfold : ∀ fuel keys,
      PageTree.keysOf (e.unfold fuel keys) = PageTree.keysOf (d.unfold fuel keys) := by
    intro fuel
    induction fuel with
    | zero => exact fun keys => by rw [keysOf_unfold_zero, keysOf_unfold_zero]
    | succ fuel ih =>
      intro keys
      rw [keysOf_unfold_succ, keysOf_unfold_succ]
      simp only [h.pages, ih]
  rw [Document.forest, Document.forest, h.size, hunfold]

theorem shown_redraw {o : Object}
    (h : (g.redraw i o).node?.map (boxSize settings) = o.node?.map (boxSize settings)) :
    (g.redraw i o).shown settings = o.shown settings := by
  unfold Drawing.redraw at h ⊢
  cases hb : lastOf g.boxes i <;> cases hl : lastOf g.links i <;> cases o <;>
    simp_all [Object.moveTo, Object.bend, Object.mapNode, Object.node?, Object.shown]

theorem lookalike_redraw (h : ∀ i, ((d.redraw g).node? i).map (boxSize settings) =
    (d.node? i).map (boxSize settings)) : Lookalike settings d (d.redraw g) := by
  refine ⟨d.keys_redraw g, fun i => ?_⟩
  have hi := h i
  rw [Document.node?, Document.node?, Document.object?_redraw] at hi
  rw [Document.object?_redraw]
  cases ho : d.object? i with
  | none => rfl
  | some o =>
    rw [ho] at hi
    exact congrArg some (shown_redraw hi)

theorem shown_redraw_congr {o x : Object} (h : x.shown settings = o.shown settings)
    (g : Drawing) (i : ObjectId) :
    (g.redraw i x).shown settings = (g.redraw i o).shown settings := by
  unfold Drawing.redraw
  cases lastOf g.boxes i <;> cases lastOf g.links i <;> cases o <;> cases x <;>
    simp_all [Object.moveTo, Object.bend, Object.mapNode, Object.shown, boxSize]

theorem Lookalike.redraw (h : Lookalike settings d e) (g : Drawing) :
    Lookalike settings (d.redraw g) (e.redraw g) := by
  refine ⟨by rw [Document.keys_redraw, Document.keys_redraw, h.keys], fun i => ?_⟩
  have hi := h.shown i
  rw [Document.object?_redraw, Document.object?_redraw]
  cases hd : d.object? i with
  | none =>
    rw [hd] at hi
    rw [Option.map_eq_none_iff.mp hi]
  | some o =>
    rw [hd] at hi
    obtain ⟨x, hx, hxo⟩ := Option.map_eq_some_iff.mp hi
    rw [hx]
    exact congrArg some (shown_redraw_congr hxo g i)

/-- Two documents are laid out in the same way, with the same answers: one drawing goes into both,
and no layout sees it. -/
def Parallel (settings : Settings) (d e : Document) (first second : Outcome) : Prop :=
  ∃ g, Lookalike settings d (d.redraw g) ∧ first.document = d.redraw g ∧
    second = { first with document := e.redraw g }

theorem parallel_of_kept {first second : Outcome} (hd : first.document = d)
    (he : second = { first with document := e }) : Parallel settings d e first second := by
  refine ⟨{}, ?_, ?_, ?_⟩ <;> rw [Document.redraw_none]
  · exact .refl settings d
  · exact hd
  · exact he

def Outcome.andThen (first : Outcome) (next : Document → Outcome) : Outcome :=
  match first.result with
  | .error _ => first
  | .ok summaries =>
    let later := next first.document
    { later with
      events := first.events ++ later.events
      result := later.result.map (summaries ++ ·) }

theorem Parallel.andThen {first second : Outcome} {next : Document → Outcome}
    (h : Lookalike settings d e) (hfirst : Parallel settings d e first second)
    (hnext : ∀ d e, Lookalike settings d e → Parallel settings d e (next d) (next e)) :
    Parallel settings d e (first.andThen next) (second.andThen next) := by
  obtain ⟨g, hafter, hdocument, rfl⟩ := hfirst
  obtain ⟨document, events, result⟩ := first
  obtain rfl : document = d.redraw g := hdocument
  cases result with
  | error cause => exact ⟨g, hafter, rfl, rfl⟩
  | ok summaries =>
    obtain ⟨later, hlater, hdocument, houtcome⟩ := hnext _ _ (h.redraw g)
    refine ⟨g.andThen later, ?_, ?_, ?_⟩ <;> rw [Document.redraw_andThen]
    · exact hafter.trans hlater
    · exact hdocument
    · simp only [Outcome.andThen, houtcome]

theorem Lookalike.layoutPage (h : Lookalike settings d e) (key : ObjectId) :
    Parallel settings d e (layoutPages d settings [key]) (layoutPages e settings [key]) := by
  obtain ⟨g, answer, -, hsizes, hd, he⟩ :=
    exists_drawing settings (h.unnamedAt key) fun p _ => h.alike p
  have hpage : ∀ c : Document, layoutPages c settings [key] =
      match layoutInPlace c key settings with
      | (next, .error cause) => { document := next, result := .error cause }
      | (next, .ok (summary, event)) =>
        { document := next, events := [event], result := .ok [(key, summary)] } := by
    intro c
    rw [layoutPages, layoutInPlace_eq]
    cases Layout.layoutPage c key settings <;> rfl
  refine ⟨g, lookalike_redraw hsizes, ?_, ?_⟩
  · rw [hpage, hd]
    cases answer <;> rfl
  · rw [hpage, hpage, hd, he]
    cases answer <;> rfl

theorem layoutPages_cons (d : Document) (settings : Settings) (key : ObjectId)
    (rest : List ObjectId) : layoutPages d settings (key :: rest) =
      (layoutPages d settings [key]).andThen (layoutPages · settings rest) := by
  simp only [layoutPages, Outcome.andThen]
  cases Layout.layoutPage d key settings <;> rfl

theorem Lookalike.layoutPages (h : Lookalike settings d e) (keys : List ObjectId) :
    Parallel settings d e (layoutPages d settings keys) (layoutPages e settings keys) := by
  induction keys generalizing d e with
  | nil => exact parallel_of_kept rfl rfl
  | cons key keys ih =>
    rw [layoutPages_cons d, layoutPages_cons e]
    exact .andThen h (h.layoutPage key) fun _ _ hnext => ih hnext

theorem layoutNet_eq (d : Document) (key : ObjectId) (settings : Settings) :
    layoutNet d key settings =
      match (d.object? key).map (Object.shown settings) with
      | some (.net n) => layoutPages d settings (PageTree.keysOf (d.forest n.pages))
      | some other => { document := d, result := .error (.notAContainer other.id) }
      | none => { document := d, result := .error (.unknownObject key) } := by
  rw [layoutNet]
  cases d.object? key with
  | none => rfl
  | some o => cases o <;> rfl

theorem Lookalike.layoutNet (h : Lookalike settings d e) (key : ObjectId) :
    Parallel settings d e (layoutNet d key settings) (layoutNet e key settings) := by
  have hd := layoutNet_eq d key settings
  have he := layoutNet_eq e key settings
  rw [h.shown] at he
  cases hkey : (d.object? key).map (Object.shown settings) with
  | none =>
    rw [hkey] at hd he
    refine parallel_of_kept ?_ ?_
    · rw [hd]
    · rw [hd, he]
  | some o =>
    rw [hkey] at hd he
    cases o with
    | net n =>
      obtain ⟨g, hafter, hdocument, houtcome⟩ :=
        h.layoutPages (PageTree.keysOf (d.forest n.pages))
      dsimp only at hd he
      rw [h.keysOf_forest] at he
      refine ⟨g, hafter, ?_, ?_⟩
      · rw [hd, hdocument]
      · rw [hd, he, houtcome]
    | _ =>
      refine parallel_of_kept ?_ ?_
      · rw [hd]
      · rw [hd, he]

theorem again_of_parallel (layout : Document → Outcome)
    (h : ∀ d e, Lookalike settings d e → Parallel settings d e (layout d) (layout e))
    (d : Document) :
    layout (layout d).document = layout d := by
  obtain ⟨g, hafter, hdocument, -⟩ := h d d (.refl settings d)
  obtain ⟨g', -, hdocument', houtcome⟩ := h d (d.redraw g) hafter
  have hsame : (d.redraw g).redraw g' = (layout d).document := by
    rw [← hdocument, hdocument', Document.redraw_redraw]
  rw [hsame, ← hdocument] at houtcome
  exact houtcome

theorem layoutInPlace_again (d : Document) (key : ObjectId) (settings : Settings) :
    layoutInPlace (layoutInPlace d key settings).1 key settings =
      layoutInPlace d key settings := by
  obtain ⟨g, answer, -, hsizes, hd⟩ := exists_drawing_self d key settings
  have hafter := lookalike_redraw hsizes
  obtain ⟨g', answer', -, -, hd', he⟩ :=
    exists_drawing settings (hafter.unnamedAt key) fun p _ => hafter.alike p
  obtain ⟨hdocument, hanswer⟩ := Prod.mk.inj (hd'.symm.trans hd)
  rw [hd, he, ← hdocument, Document.redraw_redraw, hanswer]

/-- Laying out a second time gives the same answers and leaves the document as it is, for a net with
all of its pages and for a single page. -/
theorem relayout_eq (d : Document) (key : ObjectId) (settings : Settings) :
    layoutNet (layoutNet d key settings).document key settings = layoutNet d key settings ∧
      ((layoutPage d key settings).bind fun done => layoutPage done.document key settings) =
        layoutPage d key settings := by
  refine ⟨again_of_parallel (layoutNet · key settings)
    (fun _ _ h => h.layoutNet key) d, ?_⟩
  have hagain := layoutInPlace_again d key settings
  rw [layoutInPlace_eq d] at hagain
  cases hdone : layoutPage d key settings with
  | error cause => rfl
  | ok done =>
    rw [hdone] at hagain
    rw [Except.bind, layoutPage_eq_inPlace, hagain]
    rfl

example : (layoutNet (Document.run pagesRun) ⟨"n"⟩ {}).result =
    .ok [(⟨"p"⟩, ⟨2, 0, 0⟩), (⟨"q"⟩, ⟨1, 0, 0⟩)] := by decide +kernel

end Layout

end PagedNets
