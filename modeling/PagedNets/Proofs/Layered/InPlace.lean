import PagedNets.Proofs.InPlace
import PagedNets.Proofs.Layered.Bends
import PagedNets.Proofs.Layered.Redrawing

set_option autoImplicit false

namespace PagedNets.Layered

section Writing

variable {α : Type}

def Box.moveTo (spot : Spot α) (n : Box α) : Box α := { n with x := spot.x, y := spot.y }

def Link.bend (points : List (Spot α)) (e : Link α) : Link α := { e with points := points }

def Graph.moveNode (spot : Spot α) (i : Nat) (g : Graph α) : Graph α :=
  { g with nodes := g.nodes.modify i (Box.moveTo spot) }

def Graph.bendEdge (points : List (Spot α)) (i : Nat) (g : Graph α) : Graph α :=
  { g with edges := g.edges.modify i (Link.bend points) }

theorem foldl_modify_zipIdx {β γ : Type} (f : γ → β → β) (cs : List γ) (bs : List β) (i : Nat) :
    (cs.zipIdx.foldl (fun bs c => bs.modify c.2 (f c.1)) bs)[i]? =
      bs[i]?.map fun b => (cs[i]?).elim b (f · b) := by
  induction cs using List.reverseRecOn with
  | nil => simp
  | append_singleton cs c ih =>
    rw [List.zipIdx_append, List.foldl_append, List.zipIdx_singleton, List.foldl_cons,
      List.foldl_nil, List.getElem?_modify, ih]
    rcases Nat.lt_trichotomy i cs.length with hi | hi | hi
    · rw [List.getElem?_append_left hi]
      cases bs[i]? <;> simp [Nat.ne_of_gt hi]
    · subst hi
      cases bs[cs.length]? <;> simp
    · have hnone : (cs ++ [c])[i]? = none := by simp; omega
      have hshort : cs[i]? = none := by simp; omega
      rw [hnone, hshort]
      cases bs[i]? <;> simp [Nat.ne_of_lt hi]

theorem foldl_modify_eq_zip {β γ : Type} (f : γ → β → β) {cs : List γ} {bs : List β}
    (h : bs.length = cs.length) :
    cs.zipIdx.foldl (fun bs c => bs.modify c.2 (f c.1)) bs =
      (bs.zip cs).map fun p => f p.2 p.1 := by
  refine List.ext_getElem? fun i => ?_
  rw [foldl_modify_zipIdx, List.getElem?_map, List.zip, List.getElem?_zipWith]
  by_cases hi : i < bs.length
  · simp [hi, h ▸ hi]
  · simp [hi]

theorem foldl_moveNode (ps : List (Spot α × Nat)) (g : Graph α) :
    ps.foldl (fun g p => g.moveNode p.1 p.2) g =
      { g with nodes := ps.foldl (fun ns p => ns.modify p.2 (Box.moveTo p.1)) g.nodes } := by
  induction ps generalizing g with
  | nil => rfl
  | cons p ps ih => exact ih (g.moveNode p.1 p.2)

theorem foldl_bendEdge (ps : List (List (Spot α) × Nat)) (g : Graph α) :
    ps.foldl (fun g p => g.bendEdge p.1 p.2) g =
      { g with edges := ps.foldl (fun es p => es.modify p.2 (Link.bend p.1)) g.edges } := by
  induction ps generalizing g with
  | nil => rfl
  | cons p ps ih => exact ih (g.bendEdge p.1 p.2)

end Writing

section Drawing

variable {α : Type} [Scalar α]

def Graph.places (g : Graph α) (spots : Array (Spot α)) : List (Spot α) :=
  (List.range g.nodes.length).map fun v =>
    spots.getD v { x := Scalar.ofNat 0, y := Scalar.ofNat 0 }

omit [Scalar α] in
def Graph.bends (g : Graph α) (chains : List Chain) (spots : Array (Spot α)) (back : List Pair) :
    List (List (Spot α)) :=
  g.edges.zipIdx.map fun e => bendPoints chains spots back e.1 e.2

def Graph.unplaced? (g : Graph α) (places : List (Spot α)) (bends : List (List (Spot α))) :
    Option String :=
  (((g.nodes.zip places).find? fun p => !p.2.isFinite).map (·.1.key)).or
    (((g.edges.zip bends).find? fun p => !p.2.all Spot.isFinite).map (·.1.key))

namespace Method

/-- Draws a graph on the graph itself: everything is computed, then looked through, then written. -/
def drawInPlace (m : Method α) : InPlace LayeringError (Graph α) Summary := do
  let g ← get
  InPlace.answer g.check
  let back ← InPlace.answer (g.backEdges m.removeCycles)
  let ranks ← InPlace.answer (m.ranks g (g.orient back))
  let l := layering g ranks (g.orient back)
  let places := g.places (m.spots l)
  let bends := g.bends l.chains (m.spots l) back
  InPlace.answer <|
    match g.unplaced? places bends with
    | some key => .error (.nonFinite key)
    | none => .ok ()
  places.zipIdx.forM fun p => InPlace.write (Graph.moveNode p.1 p.2)
  bends.zipIdx.forM fun p => InPlace.write (Graph.bendEdge p.1 p.2)
  return {
    layers := l.layerCount
    crossings := (m.order l).2
    reversedEdges := (g.edges.filter (·.isReversed back)).length }

end Method

variable {g : Graph α} {chains : List Chain} {spots : Array (Spot α)} {back : List Pair}

theorem length_places (g : Graph α) (spots : Array (Spot α)) :
    (g.places spots).length = g.nodes.length := by
  simp [Graph.places]

omit [Scalar α] in
theorem length_bends (g : Graph α) (chains : List Chain) (spots : Array (Spot α))
    (back : List Pair) : (g.bends chains spots back).length = g.edges.length := by
  simp [Graph.bends]

theorem nodes_redraw (h : g.nodes.length ≤ spots.size) : (redraw g chains spots back).nodes =
    (g.nodes.zip (g.places spots)).map fun p => p.1.moveTo p.2 := by
  refine List.ext_getElem? fun v => ?_
  simp only [redraw, Graph.places, List.getElem?_map, List.getElem?_zipIdx, List.zip,
    List.getElem?_zipWith]
  by_cases hv : v < g.nodes.length
  · have hspot : v < spots.size := Nat.lt_of_lt_of_le hv h
    simp [hv, hspot, Box.moveTo]
  · simp [hv]

omit [Scalar α] in
theorem edges_redraw : (redraw g chains spots back).edges =
    (g.edges.zip (g.bends chains spots back)).map fun p => p.1.bend p.2 := by
  refine List.ext_getElem? fun i => ?_
  simp only [redraw, Graph.bends, List.getElem?_map, List.getElem?_zipIdx, List.zip,
    List.getElem?_zipWith]
  cases g.edges[i]? with
  | none => rfl
  | some e => rfl

theorem unplaced?_eq_nonFinite? (h : g.nodes.length ≤ spots.size) :
    g.unplaced? (g.places spots) (g.bends chains spots back) =
      (redraw g chains spots back).nonFinite? := by
  rw [Graph.nonFinite?, nodes_redraw h, edges_redraw, List.find?_map, List.find?_map,
    Option.map_map, Option.map_map]
  rfl

theorem write_eq_redraw (h : g.nodes.length ≤ spots.size) :
    (g.bends chains spots back).zipIdx.foldl (fun g p => g.bendEdge p.1 p.2)
        ((g.places spots).zipIdx.foldl (fun g p => g.moveNode p.1 p.2) g) =
      redraw g chains spots back := by
  have hnodes := foldl_modify_eq_zip Box.moveTo (length_places g spots).symm
  have hedges := foldl_modify_eq_zip Link.bend (length_bends g chains spots back).symm
  rw [foldl_moveNode, foldl_bendEdge, hnodes, hedges, ← nodes_redraw h, ← edges_redraw]

namespace Method

def drawOn (m : Method α) (g : Graph α) : Except LayeringError Summary × Graph α :=
  m.drawInPlace.on g

/-- In place a graph is drawn as at once: a refusal comes before anything is written. -/
theorem drawOn_eq (m : Method α) (g : Graph α) :
    m.drawOn g = match m.draw g with
      | .error cause => (.error cause, g)
      | .ok (drawn, summary) => (.ok summary, drawn) := by
  simp only [drawOn, drawInPlace, InPlace.on_bind, InPlace.on_get, InPlace.on_answer,
    InPlace.on_forM, InPlace.on_pure]
  simp only [draw, bind, Except.bind]
  cases g.check with
  | error cause => rfl
  | ok u =>
    dsimp only
    cases g.backEdges m.removeCycles with
    | error cause => rfl
    | ok back =>
      dsimp only
      cases m.ranks g (g.orient back) with
      | error cause => rfl
      | ok ranks =>
        have hspots : g.nodes.length ≤ (m.spots (layering g ranks (g.orient back))).size := by
          rw [spots, size_centres]
          exact length_le_size_layering g ranks (g.orient back)
        dsimp only [spots, order] at hspots ⊢
        rw [unplaced?_eq_nonFinite? hspots]
        cases (redraw g _ _ back).nonFinite? with
        | some key => rfl
        | none =>
          dsimp only
          rw [write_eq_redraw hspots]

variable {m : Method α} {g h after : Graph α} {summary : Summary} {cause : LayeringError}

theorem drawOn_error (hd : m.drawOn g = (.error cause, after)) :
    m.draw g = .error cause ∧ after = g := by
  rw [drawOn_eq] at hd
  cases hdraw : m.draw g with
  | error cause' =>
    simp only [hdraw, Prod.mk.injEq, Except.error.injEq] at hd
    exact ⟨by rw [hd.1], hd.2.symm⟩
  | ok result => simp [hdraw] at hd

theorem drawOn_eq_ok_iff :
    m.drawOn g = (.ok summary, after) ↔ m.draw g = .ok (after, summary) := by
  rw [drawOn_eq]
  cases hdraw : m.draw g with
  | error cause => simp
  | ok result =>
    simp only [Prod.mk.injEq, Except.ok.injEq]
    exact ⟨fun h => Prod.ext h.2 h.1, fun h => by simp [h]⟩

theorem fst_drawOn_congr (he : h.undrawn = g.undrawn) : (m.drawOn h).1 = (m.drawOn g).1 := by
  rw [drawOn_eq, drawOn_eq, draw_congr he]
  cases m.draw g <;> rfl

/-- The bend points of all edges are written anew, as many as there are layers between the ends. In
particular a loop and an edge to the next layer have none left. -/
structure Bent (g after : Graph α) (ranks : List Nat) : Prop where
  count : ∀ (i : Nat) (e : Link α), g.edges[i]? = some e → ∃ points : List (Spot α),
    after.edges[i]? = some { e with points := points } ∧
      points.length = ((ranks.getD e.source 0 : Int) - ranks.getD e.target 0).natAbs - 1
  straight : ∀ (i : Nat) (e : Link α), g.edges[i]? = some e →
    ((ranks.getD e.source 0 : Int) - ranks.getD e.target 0).natAbs ≤ 1 →
      after.edges[i]? = some e.straight

theorem Drawn.bent {l : Layering α} {ranks : List Nat} (h : m.Drawn l g after ranks) :
    Bent g after ranks := by
  have hcount : ∀ (i : Nat) (e : Link α), g.edges[i]? = some e → ∃ points : List (Spot α),
      after.edges[i]? = some { e with points := points } ∧
        points.length = ((ranks.getD e.source 0 : Int) - ranks.getD e.target 0).natAbs - 1 := by
    intro i e he
    obtain ⟨points, hpoints, hloop, hbends⟩ := h.edges i e he
    refine ⟨points, hpoints, ?_⟩
    by_cases hends : e.source = e.target
    · simp [hloop hends, hends]
    · exact (hbends hends).count
  refine ⟨hcount, fun i e he hshort => ?_⟩
  obtain ⟨points, hpoints, hlength⟩ := hcount i e he
  have hnil : points = [] := List.length_eq_zero_iff.mp (by omega)
  rw [hpoints, hnil, Link.straight]

/-- A graph is drawn completely or not at all, and without a look at where it was drawn before. -/
theorem draws_in_place (m : Method α) (g : Graph α) :
    (∀ cause after, m.drawOn g = (.error cause, after) → after = g) ∧
    (∀ summary after, m.drawOn g = (.ok summary, after) →
      g.DrawnAs after ∧ (∃ back ranks, m.Prepares g back ranks ∧ Bent g after ranks) ∧
        m.drawOn after = (.ok summary, after)) ∧
    ∀ h : Graph α, h.undrawn = g.undrawn →
      (m.drawOn h).1 = (m.drawOn g).1 ∧
        ∀ summary after, m.drawOn g = (.ok summary, after) →
          m.drawOn h = (.ok summary, after) := by
  refine ⟨fun cause after hd => (drawOn_error hd).2, fun summary after hd => ?_, fun h he => ?_⟩
  · have hdraw : m.draw g = .ok (after, summary) := drawOn_eq_ok_iff.mp hd
    refine ⟨drawnAs_of_draw hdraw, ?_, drawOn_eq_ok_iff.mpr (draw_drawn hdraw)⟩
    obtain ⟨back, ranks, hprepares, hafter, -, -⟩ := draw_eq_ok_iff.mp hdraw
    exact ⟨back, ranks, hprepares, hafter ▸ (drawn_redraw hprepares).bent⟩
  · refine ⟨fst_drawOn_congr he, fun summary after hd => ?_⟩
    rw [drawOn_eq_ok_iff, draw_congr he]
    exact drawOn_eq_ok_iff.mp hd

/-- A graph that was drawn at no finite places: three nodes in a row, an edge past the middle one,
and a loop, the last two with bend points of old. -/
def scrawled : Graph Float where
  nodes := [⟨"a", 40, 20, 0 / 0, 1 / 0⟩, ⟨"b", 40, 20, 7, 7⟩, ⟨"c", 30, 30, -1 / 0, 0⟩]
  edges := [⟨"ab", 0, 1, []⟩, ⟨"bc", 1, 2, [⟨3, 0 / 0⟩]⟩, ⟨"ac", 0, 2, []⟩, ⟨"cc", 2, 2, [⟨1, 1⟩]⟩]

def spaced (spacing : Float) : Method Float where
  removeCycles := false
  iterations := 4
  spacing := ⟨spacing, spacing⟩

theorem draws_in_place_scrawled :
    (∃ after, (spaced 20).drawOn scrawled = (.ok ⟨3, 0, 0⟩, after) ∧ scrawled.DrawnAs after ∧
      (spaced 20).drawOn after = (.ok ⟨3, 0, 0⟩, after)) ∧
    (spaced (0 / 0)).drawOn scrawled = (.error (.nonFinite "a"), scrawled) := by
  constructor
  · obtain ⟨after, hdraw⟩ : ∃ after, (spaced 20).draw scrawled = .ok (after, ⟨3, 0, 0⟩) :=
      exists_draw (by decide +kernel)
    have hon := drawOn_eq_ok_iff.mpr hdraw
    obtain ⟨-, hok, -⟩ := draws_in_place (spaced 20) scrawled
    obtain ⟨hdrawn, -, hagain⟩ := hok _ _ hon
    exact ⟨after, hon, hdrawn, hagain⟩
  · have hfst : ((spaced (0 / 0)).drawOn scrawled).1 = .error (.nonFinite "a") := by
      decide +kernel
    obtain ⟨herror, -, -⟩ := draws_in_place (spaced (0 / 0)) scrawled
    exact Prod.ext hfst (herror _ _ (Prod.ext hfst rfl))

end Method

end Drawing

end PagedNets.Layered
