import Mathlib.Logic.Relation
import PagedNets.Layout.Page
import PagedNets.Pnml.Reader

/-!
Runs of a document. A caller edits, lays out and reads in any order, and goes on after failures.
Laying out and reading are themselves made of edits, so that whatever each edit keeps is kept by
every run.
-/

set_option autoImplicit false

namespace PagedNets

def Net.IsBare (n : Net) : Prop := n.names = .empty ∧ n.pages = []

def Page.IsBare (p : Page) : Prop :=
  p.names = .empty ∧ p.nodes = .empty ∧ p.arcs = .empty ∧ p.pages = [] ∧ p.graph = {}

def Object.IsBare : Object → Prop
  | .net n => n.IsBare
  | .page p => p.IsBare
  | _ => True

/-- Nets and pages come in without contents. Places, transitions and arcs may come from anywhere,
with an owner and aliases of their own, and the free fields may be overwritten by any value. -/
def Edit.IsPlain : Edit → Prop
  | .addNet net => net.IsBare
  | .add _ object => object.IsBare
  | _ => True

/-- The plain edits that go through the checks of a document, and write to no field directly. -/
def Edit.IsChecked : Edit → Prop
  | .setFormat .. | .setTokens .. | .setMarkingOffset .. | .setArcKind .. | .setCurve .. => False
  | change => change.IsPlain

def Edit.IsFinite : Edit → Prop
  | .setMarkingOffset _ offset => offset.isFinite = true
  | .setCurve _ curve => curve.all Point.isFinite = true
  | change => change.IsPlain

def Edit.IsEntry : Edit → Prop
  | .addNet net => net.IsBare
  | .add _ object => object.IsBare
  | .setReference .. => True
  | _ => False

theorem Edit.IsFinite.isPlain {change : Edit} (h : change.IsFinite) : change.IsPlain := by
  cases change <;> first | exact h | trivial

theorem Edit.IsChecked.isFinite {change : Edit} (h : change.IsChecked) : change.IsFinite := by
  cases change <;> first | exact h | exact False.elim h

theorem Edit.IsEntry.isFinite {change : Edit} (h : change.IsEntry) : change.IsFinite := by
  cases change <;> first | exact h | exact False.elim h

inductive Action where
  | edit (change : Edit)
  | layoutPage (page : ObjectId) (settings : Layout.Settings)
  | layoutNet (net : ObjectId) (settings : Layout.Settings)
  | read (text : String)

def Action.Uses (allowed : Edit → Prop) : Action → Prop
  | .edit change => allowed change
  | _ => True

namespace Document

/-- What an action leaves behind. An edit that is refused and a page that cannot be drawn change
nothing; what was read or laid out before a failure stays. -/
def act (d : Document) : Action → Document
  | .edit change =>
    match d.edit change with
    | .ok next => next
    | .error _ => d
  | .layoutPage page settings =>
    match Layout.layoutPage d page settings with
    | .ok done => done.document
    | .error _ => d
  | .layoutNet net settings => (Layout.layoutNet d net settings).document
  | .read text => (Pnml.read d text).document

def run (actions : List Action) : Document := actions.foldl act {}

def Reachable (allowed : Edit → Prop) (d : Document) : Prop :=
  ∃ actions : List Action, (∀ a ∈ actions, a.Uses allowed) ∧ run actions = d

def Becomes (allowed : Edit → Prop) (d e : Document) : Prop :=
  ∃ change, allowed change ∧ d.edit change = .ok e

def Leads (allowed : Edit → Prop) : Document → Document → Prop :=
  Relation.ReflTransGen (Becomes allowed)

variable {allowed : Edit → Prop}

theorem Leads.of_edit {d e : Document} {change : Edit} (ha : allowed change)
    (h : d.edit change = .ok e) : Leads allowed d e :=
  .single ⟨change, ha, h⟩

theorem leads_writeBoxes {l : List (ObjectId × Layered.Box Float)} {d e : Document}
    (ha : ∀ i p s, allowed (.setGeometry i p s)) (h : Layout.writeBoxes d l = .ok e) :
    Leads allowed d e := by
  induction l generalizing d with
  | nil =>
    cases h
    exact .refl
  | cons b l ih =>
    obtain ⟨id, box⟩ := b
    cases hg : d.setGeometry id { x := box.x, y := box.y } { x := box.width, y := box.height } with
    | error cause => simp [Layout.writeBoxes, hg, bind, Except.bind] at h
    | ok next =>
      have hrest : Layout.writeBoxes next l = .ok e := by
        simpa [Layout.writeBoxes, hg, bind, Except.bind] using h
      exact (Leads.of_edit (ha id _ _) hg).trans (ih hrest)

def curvePoints (e : Layered.Link Float) : List Point :=
  e.points.map fun p => { x := p.x, y := p.y }

theorem leads_writeCurves {l : List (ObjectId × Layered.Link Float)} {d : Document}
    (ha : ∀ e ∈ l, allowed (.setCurve e.1 (curvePoints e.2))) :
    Leads allowed d (Layout.writeCurves d l) := by
  induction l generalizing d with
  | nil => exact .refl
  | cons e l ih =>
    have hstep : d.edit (.setCurve e.1 (curvePoints e.2)) =
        .ok (d.setCurve e.1 (curvePoints e.2)) := rfl
    have hrest := ih (d := d.setCurve e.1 (curvePoints e.2))
      (fun x hx => ha x (List.mem_cons_of_mem _ hx))
    exact (Leads.of_edit (ha e List.mem_cons_self) hstep).trans hrest

theorem finite_of_draw {method : Layered.Method Float} {g drawn : Layered.Graph Float}
    {summary : Layered.Summary} (h : method.draw g = .ok (drawn, summary)) :
    ∀ e ∈ drawn.edges, (curvePoints e).all Point.isFinite = true := by
  have hn : drawn.nonFinite? = none := by
    simp only [Layered.Method.draw, bind, Except.bind] at h
    split at h
    · cases h
    split at h
    · cases h
    split at h
    · cases h
    split at h
    · cases h
    · next hnone =>
      cases h
      exact hnone
  intro e he
  simp only [Layered.Graph.nonFinite?, Option.or_eq_none_iff, Option.map_eq_none_iff,
    List.find?_eq_none] at hn
  have hp : e.points.all Layered.Spot.isFinite = true := by simpa using hn.2 e he
  rw [curvePoints, List.all_map]
  exact hp

theorem leads_layoutPage {d : Document} {key : ObjectId} {settings : Layout.Settings}
    {done : Layout.LaidOut} (ha : ∀ change : Edit, change.IsFinite → allowed change)
    (h : Layout.layoutPage d key settings = .ok done) : Leads allowed d done.document := by
  simp only [Layout.layoutPage, bind, Except.bind] at h
  split at h
  · cases h
  next page _ =>
    split at h
    · cases h
    next drawn hd =>
      obtain ⟨graph, summary⟩ := drawn
      split at h
      · cases h
      next moved hm =>
        cases h
        have hdraw : settings.method.draw (Layout.exportPage d page settings).graph =
            .ok (graph, summary) := by
          unfold Layout.drawExported at hd
          split at hd
          · next heq =>
            cases hd
            exact heq
          · cases hd
        refine (leads_writeBoxes (fun i p s => ha _ trivial) hm).trans
          (leads_writeCurves fun e he => ha _ ?_)
        exact finite_of_draw hdraw e.2 (List.of_mem_zip he).2

theorem leads_layoutPages {keys : List ObjectId} {d : Document} {settings : Layout.Settings}
    (ha : ∀ change : Edit, change.IsFinite → allowed change) :
    Leads allowed d (Layout.layoutPages d settings keys).document := by
  induction keys generalizing d with
  | nil => exact .refl
  | cons key keys ih =>
    unfold Layout.layoutPages
    split
    · exact .refl
    · next done hdone => exact (leads_layoutPage ha hdone).trans ih

theorem leads_layoutNet {key : ObjectId} {d : Document} {settings : Layout.Settings}
    (ha : ∀ change : Edit, change.IsFinite → allowed change) :
    Leads allowed d (Layout.layoutNet d key settings).document := by
  unfold Layout.layoutNet
  split
  · exact leads_layoutPages ha
  · exact .refl
  · exact .refl

end Document

namespace Pnml

def EditsAre (allowed : Edit → Prop) (steps : List Step) : Prop :=
  ∀ change, Step.edit change ∈ steps → allowed change

variable {allowed : Edit → Prop}

theorem editsAre_append {s t : List Step} :
    EditsAre allowed (s ++ t) ↔ EditsAre allowed s ∧ EditsAre allowed t := by
  simp only [EditsAre, List.mem_append]
  exact ⟨fun h => ⟨fun c hc => h c (.inl hc), fun c hc => h c (.inr hc)⟩,
    fun h c hc => hc.elim (h.1 c) (h.2 c)⟩

theorem editsAre_cons {step : Step} {s : List Step} :
    EditsAre allowed (step :: s) ↔ EditsAre allowed [step] ∧ EditsAre allowed s :=
  editsAre_append (s := [step])

theorem editsAre_nil : EditsAre allowed [] := fun _ hc => nomatch hc

theorem editsAre_fail (fault : ReadError) : EditsAre allowed [.fail fault] := by
  intro change hc
  simp at hc

theorem leads_perform {steps : List Step} {d : Document} (h : EditsAre allowed steps) :
    Document.Leads allowed d (perform d steps).document := by
  induction steps generalizing d with
  | nil => exact .refl
  | cons step steps ih =>
    have hrest : EditsAre allowed steps := fun c hc => h c (List.mem_cons_of_mem _ hc)
    cases step with
    | edit change =>
      cases he : d.edit change with
      | error cause =>
        simp only [perform, he]
        exact .refl
      | ok next =>
        simp only [perform, he]
        exact (Document.Leads.of_edit (h change List.mem_cons_self) he).trans (ih hrest)
    | finished net format => exact ih hrest
    | fail fault => exact .refl

theorem isEntry_admission {parent : ObjectId} {o : Except ReadError Object} {change : Edit}
    (hb : ∀ x, o = .ok x → x.IsBare) (h : Step.edit change = admission parent o) :
    change.IsEntry := by
  cases o with
  | error fault => cases h
  | ok x =>
    cases h
    exact hb x rfl

theorem isBare_of_nodeOf? {n : Xml.Node} {r : Except ReadError Object} {o : Object}
    (h : nodeOf? n = some r) (ho : r = .ok o) : o.IsBare := by
  obtain ⟨object, hobject, hr⟩ := Option.map_eq_some_iff.mp h
  cases object with
  | error fault =>
    rw [← hr] at ho
    cases ho
  | ok x =>
    have hx : x = o := by
      rw [← hr] at ho
      simp only [bind, Except.bind] at ho
      split at ho
      · split at ho
        · cases ho
        · cases ho
          rfl
      · cases ho
        rfl
    subst hx
    split at hobject
    · cases hp : placeOf n with
      | error fault => simp [hp, Except.map] at hobject
      | ok p =>
        simp only [hp, Except.map, Option.some.injEq, Except.ok.injEq] at hobject
        subst hobject
        trivial
    · split at hobject
      · cases hp : transitionOf n with
        | error fault => simp [hp, Except.map] at hobject
        | ok t =>
          simp only [hp, Except.map, Option.some.injEq, Except.ok.injEq] at hobject
          subst hobject
          trivial
      · cases hobject

theorem editsAre_nodeSteps (page : ObjectId) (n : Xml.Node) :
    EditsAre Edit.IsEntry (nodeSteps page n) := by
  intro change hc
  obtain ⟨child, _, hchild⟩ := List.mem_filterMap.mp hc
  obtain ⟨r, hr, he⟩ := Option.map_eq_some_iff.mp hchild
  exact isEntry_admission (fun x hx => isBare_of_nodeOf? hr hx) he.symm

theorem editsAre_arcSteps (page : ObjectId) (n : Xml.Node) :
    EditsAre Edit.IsEntry (arcSteps page n) := by
  intro change hc
  obtain ⟨child, _, hchild⟩ := List.mem_map.mp hc
  refine isEntry_admission (fun x hx => ?_) hchild.symm
  cases ha : arcOf child with
  | error fault => simp [ha, Except.map] at hx
  | ok a =>
    simp only [ha, Except.map, Except.ok.injEq] at hx
    subst hx
    trivial

mutual

theorem editsAre_pageSteps (parent : ObjectId) (n : Xml.Node) :
    EditsAre Edit.IsEntry (pageSteps parent n) := by
  cases n with
  | element tag attributes children =>
    unfold pageSteps
    dsimp only
    split
    · exact editsAre_fail _
    · next id _ =>
      have hpage : EditsAre Edit.IsEntry [.edit (.add parent
          (.page { id := id, name := nameOf (.element tag attributes children) }))] := by
        intro change hc
        simp only [List.mem_singleton, Step.edit.injEq] at hc
        subst hc
        exact ⟨rfl, rfl, rfl, rfl, rfl⟩
      have hnested := editsAre_nestedSteps id children
      exact editsAre_append.mpr ⟨editsAre_append.mpr ⟨editsAre_cons.mpr
        ⟨hpage, editsAre_nodeSteps id _⟩, editsAre_arcSteps id _⟩, hnested⟩
  | text content => exact editsAre_nil
  | aside => exact editsAre_nil

theorem editsAre_nestedSteps (parent : ObjectId) (nodes : List Xml.Node) :
    EditsAre Edit.IsEntry (nestedSteps parent nodes) := by
  cases nodes with
  | nil => exact editsAre_nil
  | cons child rest =>
    have hrest := editsAre_nestedSteps parent rest
    unfold nestedSteps
    split
    · exact editsAre_append.mpr ⟨editsAre_pageSteps parent child, hrest⟩
    · exact hrest

end

theorem editsAre_linkOf? (children : List Xml.Node) :
    EditsAre Edit.IsEntry (children.filterMap linkOf?) := by
  intro change hc
  obtain ⟨child, _, hchild⟩ := List.mem_filterMap.mp hc
  unfold linkOf? at hchild
  split at hchild
  · split at hchild
    · cases hchild
      trivial
    · cases hchild
  · cases hchild

mutual

theorem editsAre_pageLinks (n : Xml.Node) : EditsAre Edit.IsEntry (pageLinks n) := by
  cases n with
  | element tag attributes children =>
    exact editsAre_append.mpr ⟨editsAre_linkOf? children, editsAre_nestedLinks children⟩
  | text content => exact editsAre_nil
  | aside => exact editsAre_nil

theorem editsAre_nestedLinks (nodes : List Xml.Node) :
    EditsAre Edit.IsEntry (nestedLinks nodes) := by
  cases nodes with
  | nil => exact editsAre_nil
  | cons child rest =>
    have hrest := editsAre_nestedLinks rest
    unfold nestedLinks
    split
    · exact editsAre_append.mpr ⟨editsAre_pageLinks child, hrest⟩
    · exact hrest

end

theorem isBare_of_netOf {n : Xml.Node} {net : Net} (h : netOf n = .ok net) : net.IsBare := by
  simp only [netOf, bind, Except.bind] at h
  split at h
  · cases h
  split at h
  · cases h
  split at h
  · cases h
  · cases h
    exact ⟨rfl, rfl⟩

theorem editsAre_netSteps (n : Xml.Node) : EditsAre Edit.IsEntry (netSteps n) := by
  unfold netSteps
  split
  · exact editsAre_fail _
  · next net hnet =>
    have hadd : EditsAre Edit.IsEntry [.edit (.addNet net)] := by
      intro change hc
      simp only [List.mem_singleton, Step.edit.injEq] at hc
      subst hc
      exact isBare_of_netOf hnet
    have hend : EditsAre Edit.IsEntry [.finished net.id net.format] := by
      intro change hc
      simp at hc
    exact editsAre_append.mpr ⟨editsAre_append.mpr ⟨editsAre_cons.mpr
      ⟨hadd, editsAre_nestedSteps net.id _⟩, editsAre_nestedLinks _⟩, hend⟩

/-- Reading admits bare nets and pages and links nodes, and does nothing else. -/
theorem editsAre_script (root : Xml.Node) : EditsAre Edit.IsEntry (script root) := by
  unfold script
  split
  · exact editsAre_fail _
  · intro change hc
    obtain ⟨n, _, hn⟩ := List.mem_flatMap.mp hc
    exact editsAre_netSteps n change hn

theorem leads_read {d : Document} {text : String}
    (ha : ∀ change : Edit, change.IsEntry → allowed change) :
    Document.Leads allowed d (read d text).document := by
  unfold read
  split
  · exact .refl
  · exact leads_perform fun change hc => ha change (editsAre_script _ change hc)

end Pnml

namespace Document

variable {allowed wider : Edit → Prop}

theorem leads_act {d : Document} {a : Action} (hu : a.Uses wider)
    (hw : ∀ change : Edit, wider change → allowed change)
    (ha : ∀ change : Edit, change.IsFinite → allowed change) :
    Leads allowed d (d.act a) := by
  cases a with
  | edit change =>
    cases he : d.edit change with
    | error cause =>
      simp only [act, he]
      exact .refl
    | ok next =>
      simp only [act, he]
      exact .of_edit (hw change hu) he
  | layoutPage page settings =>
    cases hl : Layout.layoutPage d page settings with
    | error cause =>
      simp only [act, hl]
      exact .refl
    | ok done =>
      simp only [act, hl]
      exact leads_layoutPage ha hl
  | layoutNet net settings => exact leads_layoutNet ha
  | read text => exact Pnml.leads_read fun change hc => ha change hc.isFinite

theorem leads_foldl_act {actions : List Action} {d : Document}
    (hu : ∀ a ∈ actions, a.Uses wider) (hw : ∀ change : Edit, wider change → allowed change)
    (ha : ∀ change : Edit, change.IsFinite → allowed change) :
    Leads allowed d (actions.foldl act d) := by
  induction actions generalizing d with
  | nil => exact .refl
  | cons a actions ih =>
    have hstep := leads_act (d := d) (hu a List.mem_cons_self) hw ha
    exact hstep.trans (ih fun b hb => hu b (List.mem_cons_of_mem _ hb))

theorem Reachable.leads {d : Document} (h : Reachable wider d)
    (hw : ∀ change : Edit, wider change → allowed change)
    (ha : ∀ change : Edit, change.IsFinite → allowed change) : Leads allowed {} d := by
  obtain ⟨actions, hu, rfl⟩ := h
  exact leads_foldl_act hu hw ha

theorem Reachable.edit {d e : Document} {change : Edit} (h : d.Reachable allowed)
    (ha : allowed change) (he : d.edit change = .ok e) : e.Reachable allowed := by
  obtain ⟨actions, hu, rfl⟩ := h
  refine ⟨actions ++ [.edit change], fun a hm => ?_, ?_⟩
  · rcases List.mem_append.mp hm with hm | hm
    · exact hu a hm
    · rw [List.mem_singleton.mp hm]
      exact ha
  · rw [run, List.foldl_append]
    have hlast : (run actions).act (.edit change) = e := by simp only [act, he]
    exact hlast

/-- What holds of the empty document and is kept by every plain edit holds of every document that
a run leads to. -/
theorem Reachable.induction {P : Document → Prop} {d : Document}
    (h : Reachable Edit.IsPlain d) (hempty : P {})
    (hedit : ∀ {d e : Document} {change : Edit}, P d → change.IsPlain →
      d.edit change = .ok e → P e) : P d := by
  have hleads : Leads Edit.IsPlain {} d := h.leads (fun _ => id) (fun _ hc => hc.isPlain)
  clear h
  induction hleads with
  | refl => exact hempty
  | tail _ hstep ih =>
    obtain ⟨change, hc, he⟩ := hstep
    exact hedit ih hc he

theorem Reachable.isPlain {d : Document} (h : Reachable Edit.IsChecked d) :
    Reachable Edit.IsPlain d := by
  obtain ⟨actions, hu, hrun⟩ := h
  refine ⟨actions, fun a ha => ?_, hrun⟩
  cases a with
  | edit change => exact (hu _ ha).isFinite.isPlain
  | layoutPage page settings => trivial
  | layoutNet net settings => trivial
  | read text => trivial

end Document

end PagedNets
