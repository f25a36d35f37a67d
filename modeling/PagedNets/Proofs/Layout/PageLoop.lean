import PagedNets.Proofs.Document.PageOrder
import PagedNets.Proofs.Layout.Relayout

/-!
The loop that lays out a net takes one page after the other from a stack and puts the pages nested
in it in its place, so that it takes as many turns as there are pages.
-/

set_option autoImplicit false

namespace PagedNets

open Layered (Summary)

namespace Document

def StandsOn (d : Document) (key i : ObjectId) : Prop :=
  ∃ page, d.page? key = some page ∧ (i ∈ page.nodes.keys ∨ i ∈ page.arcs.keys)

variable {d : Document} {key other i : ObjectId}

theorem StandsOn.holds (h : d.StandsOn key i) : d.Holds key i := by
  obtain ⟨page, hp, hi⟩ := h
  exact ⟨_, page?_eq_some_iff.mp hp, .inr hi⟩

theorem Contained.standsOn_unique (hd : d.Contained) (h : d.StandsOn key i)
    (ho : d.StandsOn other i) : key = other :=
  hd.oneHolder key other i h.holds ho.holds

theorem Contained.not_standsOn_page (hd : d.Contained) {page : Page} (hp : d.page? i = some page) :
    ¬ d.StandsOn key i := by
  rintro ⟨q, hq, hi⟩
  rw [hd.page?_of_listed hq hi] at hp
  cases hp

end Document

namespace Layout

/-- The loop over the pages of a net between two turns: the pages that wait, the next one at the
end, and the answers so far. -/
structure PageLoop where
  document : Document
  pending : List ObjectId
  summaries : List (ObjectId × Summary) := []
  events : List Event := []

namespace PageLoop

def start (d : Document) (n : Net) : PageLoop := { document := d, pending := n.pages.reverse }

/-- Takes the next page, lets those nested in it wait, and lays it out. Without a next page, or if
it cannot be laid out, the loop ends. -/
def turn (settings : Settings) (loop : PageLoop) : PageLoop ⊕ Outcome :=
  match loop.pending.getLast? with
  | none =>
    .inr { document := loop.document, events := loop.events, result := .ok loop.summaries }
  | some key =>
    let nested := ((loop.document.page? key).map (·.pages)).getD []
    match layoutInPlace loop.document key settings with
    | (left, .error cause) =>
      .inr { document := left, events := loop.events, result := .error cause }
    | (next, .ok (summary, event)) =>
      .inl {
        document := next
        pending := loop.pending.dropLast ++ nested.reverse
        summaries := loop.summaries ++ [(key, summary)]
        events := loop.events ++ [event] }

def run (settings : Settings) : Nat → PageLoop → Option Outcome
  | 0, _ => none
  | fuel + 1, loop =>
    match loop.turn settings with
    | .inl next => run settings fuel next
    | .inr outcome => some outcome

end PageLoop

variable {d e : Document} {key i : ObjectId} {page : Page} {settings : Settings} {g : Drawing}
  {keys order before : List ObjectId} {summaries : List (ObjectId × Summary)} {events : List Event}

theorem page?_of_layoutPage {done : LaidOut} (h : layoutPage d key settings = .ok done)
    (i : ObjectId) : done.document.page? i = d.page? i := by
  obtain ⟨page, drawn, summary, -, -, rfl⟩ := layoutPage_eq_ok_iff.mp h
  rw [laidOut, Document.page?, Document.page?, Document.object?_redraw, Option.bind_map]
  exact Option.bind_congr fun o _ => Drawing.page?_redraw _ i o

/-- A turn with a page to lay out. The stack is written from its top here. -/
theorem turn_cons (hp : e.page? key = some page) (rest : List ObjectId) :
    PageLoop.turn settings
        { document := e, pending := (key :: rest).reverse, summaries := summaries
          events := events } =
      match layoutPage e key settings with
      | .error cause => .inr { document := e, events := events, result := .error cause }
      | .ok done => .inl {
          document := done.document
          pending := (page.pages ++ rest).reverse
          summaries := summaries ++ [(key, done.summary)]
          events := events ++ [done.event] } := by
  simp only [PageLoop.turn, List.reverse_cons, List.getLast?_concat, List.dropLast_concat, hp,
    Option.map_some, Option.getD_some, layoutInPlace_eq, List.reverse_append]
  cases layoutPage e key settings <;> rfl

/-- The loop does what is done with a list of the pages in their order. It needs one turn for each
of them and one to end. -/
theorem run_pageLoop (h : e.PageOrder keys order) {fuel : Nat} (hf : order.length < fuel)
    (summaries : List (ObjectId × Summary)) (events : List Event) :
    PageLoop.run settings fuel
        { document := e, pending := keys.reverse, summaries := summaries, events := events } =
      some (Outcome.andThen { document := e, events := events, result := .ok summaries }
        (layoutPages · settings order)) := by
  induction order generalizing e keys summaries events fuel with
  | nil =>
    obtain rfl := h.eq_nil
    obtain ⟨fuel, rfl⟩ : ∃ k, fuel = k + 1 := ⟨fuel - 1, by simp at hf; omega⟩
    simp [PageLoop.run, PageLoop.turn, Outcome.andThen, layoutPages, Except.map]
  | cons key order ih =>
    obtain ⟨page, rest, rfl, hp, htail⟩ := h.of_cons
    obtain ⟨fuel, rfl⟩ : ∃ k, fuel = k + 1 := ⟨fuel - 1, by simp at hf; omega⟩
    rw [PageLoop.run, turn_cons hp]
    cases hdone : layoutPage e key settings with
    | error cause => simp [Outcome.andThen, layoutPages, hdone, Except.map]
    | ok done =>
      have hlater := ih (htail.congr (page?_of_layoutPage hdone)) (Nat.lt_of_succ_lt_succ hf)
        (summaries ++ [(key, done.summary)]) (events ++ [done.event])
      simp only [hlater, Outcome.andThen, layoutPages, hdone]
      cases (layoutPages done.document settings order).result <;> simp [Except.map]

/-- The document `e` is `d` with some pages laid out, each of them as if it were the only one. -/
structure LaidOn (settings : Settings) (d : Document) (laid : List ObjectId) (e : Document) :
    Prop where
  keys : e.keys = d.keys
  drawn : ∀ key ∈ laid, ∃ done, layoutPage d key settings = .ok done ∧
    ∀ i, d.StandsOn key i → e.object? i = done.document.object? i
  kept : ∀ i, (∀ key ∈ laid, ¬ d.StandsOn key i) → e.object? i = d.object? i

def Summarizes (settings : Settings) (d : Document) (answer : ObjectId × Summary) : Prop :=
  ∃ done, layoutPage d answer.1 settings = .ok done ∧ answer.2 = done.summary

/-- What becomes of the pages of a list, after those of `before`: all of them are laid out and
answered in their order, or one of them fails and those in front of it are laid out. -/
def Leaves (settings : Settings) (d : Document) (before order : List ObjectId)
    (outcome : Outcome) : Prop :=
  match outcome.result with
  | .ok summaries => summaries.map (·.1) = order ∧ (∀ s ∈ summaries, Summarizes settings d s) ∧
      LaidOn settings d (before ++ order) outcome.document
  | .error cause => ∃ laid key after, order = laid ++ key :: after ∧
      layoutPage d key settings = .error cause ∧
      LaidOn settings d (before ++ laid) outcome.document

theorem LaidOn.none (settings : Settings) (d : Document) : LaidOn settings d [] d :=
  ⟨rfl, fun _ h => (nomatch h), fun _ _ => rfl⟩

theorem Leaves.cons {outcome : Outcome} {summary : Summary}
    (h : Leaves settings d (before ++ [key]) order outcome)
    (hs : Summarizes settings d (key, summary)) (events : List Event) :
    Leaves settings d before (key :: order)
      { outcome with events := events, result := outcome.result.map ((key, summary) :: ·) } := by
  unfold Leaves at h ⊢
  cases hr : outcome.result with
  | error cause =>
    rw [hr] at h
    obtain ⟨laid, failed, after, rfl, hcause, hlaid⟩ := h
    rw [← List.append_cons] at hlaid
    exact ⟨key :: laid, failed, after, rfl, hcause, hlaid⟩
  | ok summaries =>
    rw [hr, ← List.append_cons] at h
    obtain ⟨horder, hsummaries, hlaid⟩ := h
    exact ⟨congrArg (key :: ·) horder, List.forall_mem_cons.mpr ⟨hs, hsummaries⟩, hlaid⟩

section

variable (hd : d.Contained)
include hd

theorem redraw_of_not_standsOn (hp : d.page? key = some page) (hg : g.IsOn d key)
    (hi : ¬ d.StandsOn key i) : (d.object? i).map (g.redraw i) = d.object? i := by
  cases ho : d.object? i with
  | none => rfl
  | some o =>
    rw [Option.map_some]
    by_cases hholds : d.Holds key i
    · have hnested : i ∈ page.pages := ((Document.holds_page_iff hp).mp hholds).resolve_right
        fun h => hi ⟨page, hp, h⟩
      obtain ⟨q, hq, -⟩ := ((hd.pages key page hp).2 i).mp hnested
      rw [Document.page?_eq_some_iff, ho] at hq
      cases hq
      rw [Drawing.redraw_of_asOwner? (w := .page q.id) rfl]
    · rw [hg.redraw_of_not_holds hholds]

theorem LaidOn.exists_drawing (h : LaidOn settings d before e) (hp : d.page? key = some page)
    (hkey : key ∉ before) : ∃ (g : Drawing) (answer : Except NetError (Summary × Event)),
      g.IsOn d key ∧ layoutInPlace d key settings = (d.redraw g, answer) ∧
        layoutInPlace e key settings = (e.redraw g, answer) := by
  have hsame : e.object? key = (d.object? key).map id := by
    rw [Option.map_id, id, h.kept key fun _ _ => hd.not_standsOn_page hp]
  have halike : ∀ q, d.page? key = some q → Alike settings q d e := by
    intro q hq i hi
    have hon : d.StandsOn key i := ⟨q, hq, .inl hi⟩
    rw [Document.node?, Document.node?, h.kept i fun other hother ho => ?_]
    exact hkey (hd.standsOn_unique hon ho ▸ hother)
  obtain ⟨g, answer, hg, -, hone, htwo⟩ := Layout.exists_drawing settings
    (unnamedAt_of_map hsame (fun _ => rfl) fun _ => rfl) halike
  exact ⟨g, answer, hg, hone, htwo⟩

theorem LaidOn.redraw (h : LaidOn settings d before e) (hp : d.page? key = some page)
    (hkey : key ∉ before) (hg : g.IsOn d key) {done : LaidOut}
    (hdone : layoutPage d key settings = .ok done) (hdocument : done.document = d.redraw g) :
    LaidOn settings d (before ++ [key]) (e.redraw g) := by
  have hfresh : ∀ i, d.StandsOn key i → e.object? i = d.object? i := fun i hi =>
    h.kept i fun other hother ho => hkey (hd.standsOn_unique hi ho ▸ hother)
  refine ⟨by rw [Document.keys_redraw, h.keys], fun other hother => ?_, fun i hi => ?_⟩
  · rcases List.mem_append.mp hother with hother | hother
    · obtain ⟨alone, halone, hdrawn⟩ := h.drawn other hother
      refine ⟨alone, halone, fun i hi => ?_⟩
      have hout : ¬ d.Holds key i := fun hk =>
        hkey (hd.oneHolder key other i hk hi.holds ▸ hother)
      have hkept : g.redraw i = id := funext (hg.redraw_of_not_holds hout)
      rw [Document.object?_redraw, hkept, Option.map_id, id, hdrawn i hi]
    · rw [List.mem_singleton.mp hother]
      refine ⟨done, hdone, fun i hi => ?_⟩
      rw [Document.object?_redraw, hfresh i hi, hdocument, Document.object?_redraw]
  · have hbefore : e.object? i = d.object? i := h.kept i fun other hother =>
      hi other (List.mem_append_left _ hother)
    rw [Document.object?_redraw, hbefore,
      redraw_of_not_standsOn hd hp hg (hi key (List.mem_append_right _ (.head _)))]

theorem LaidOn.layoutPage (h : LaidOn settings d before e) (hp : d.page? key = some page)
    (hkey : key ∉ before) :
    match layoutPage e key settings with
    | .error cause => layoutPage d key settings = .error cause
    | .ok done => Summarizes settings d (key, done.summary) ∧
        LaidOn settings d (before ++ [key]) done.document := by
  obtain ⟨g, answer, hg, hone, htwo⟩ := h.exists_drawing hd hp hkey
  rw [layoutInPlace_eq] at hone htwo
  cases hthere : Layout.layoutPage e key settings with
  | error cause =>
    rw [hthere] at htwo
    obtain ⟨-, rfl⟩ := Prod.mk.inj htwo
    cases halone : Layout.layoutPage d key settings with
    | error other =>
      rw [halone] at hone
      rw [Except.error.inj (Prod.mk.inj hone).2]
    | ok alone =>
      rw [halone] at hone
      cases (Prod.mk.inj hone).2
  | ok done =>
    rw [hthere] at htwo
    obtain ⟨hdocument, rfl⟩ := Prod.mk.inj htwo
    cases halone : Layout.layoutPage d key settings with
    | error cause =>
      rw [halone] at hone
      cases (Prod.mk.inj hone).2
    | ok alone =>
      rw [halone] at hone
      obtain ⟨hdrawn, hsame⟩ := Prod.mk.inj hone
      have hsummary : alone.summary = done.summary := congrArg Prod.fst (Except.ok.inj hsame)
      refine ⟨⟨alone, halone, hsummary.symm⟩, ?_⟩
      rw [hdocument]
      exact h.redraw hd hp hkey hg halone hdrawn

theorem LaidOn.layoutPages (h : LaidOn settings d before e) (hn : (before ++ order).Nodup)
    (hp : ∀ key ∈ order, ∃ page, d.page? key = some page) :
    Leaves settings d before order (layoutPages e settings order) := by
  induction order generalizing e before with
  | nil =>
    rw [← before.append_nil] at h
    exact ⟨rfl, List.forall_mem_nil _, h⟩
  | cons key order ih =>
    obtain ⟨page, hpage⟩ := hp key List.mem_cons_self
    have hkey : key ∉ before := fun hb =>
      (List.nodup_append.mp hn).2.2 key hb key List.mem_cons_self rfl
    have hstep := h.layoutPage hd hpage hkey
    rw [Layout.layoutPages]
    cases hthere : Layout.layoutPage e key settings with
    | error cause =>
      rw [hthere] at hstep
      exact ⟨[], key, order, rfl, hstep, by rwa [List.append_nil]⟩
    | ok done =>
      rw [hthere] at hstep
      obtain ⟨hsummary, hdone⟩ := hstep
      rw [List.append_cons] at hn
      exact (ih hdone hn fun k hk => hp k (List.mem_cons_of_mem _ hk)).cons hsummary _

/-- The loop over the pages of a net comes to its end, and does what laying out the net does. All
pages of the net are laid out in their order, or those in front of the first that fails. -/
theorem run_start {n : Net} (hn : d.net? n.id = some n) (settings : Settings) :
    (∀ fuel, (d.pagesOf n).length < fuel →
      (PageLoop.start d n).run settings fuel = some (layoutNet d n.id settings)) ∧
      Leaves settings d [] (d.pagesOf n) (layoutNet d n.id settings) := by
  have hnet : layoutNet d n.id settings = layoutPages d settings (d.pagesOf n) := by
    rw [layoutNet, Document.net?_eq_some_iff.mp hn, Document.pagesOf]
  rw [hnet]
  constructor
  · intro fuel hf
    rw [PageLoop.start, run_pageLoop (hd.pageOrder hn) hf]
    simp only [Outcome.andThen, List.nil_append]
    obtain ⟨document, events, result⟩ := layoutPages d settings (d.pagesOf n)
    cases result <;> rfl
  · exact (LaidOn.none settings d).layoutPages hd (hd.nodup_pagesOf hn) fun key hkey =>
      ((hd.mem_pagesOf hn).mp hkey).1

end

end Layout

end PagedNets
