import PagedNets.Layered.Drawing
import PagedNets.Proofs.Layered.LongestPath

/-!
Cycles of a graph that is drawn. Turning round the back edges of a search leaves none, so that the
ranks exist; each of them lies on a cycle, so that none is turned round without need.
-/

set_option autoImplicit false

namespace PagedNets.Layered

open Relation

variable {α : Type}

namespace Graph

variable {g : Graph α} {back : List Pair} {v w : Nat}

/-- An edge that is no loop leads from the first node to the second. -/
def Step (g : Graph α) (v w : Nat) : Prop :=
  v ≠ w ∧ ∃ e ∈ g.edges, e.source = v ∧ e.target = w

/-- The node is on a cycle. Loops are left out, so another node is on it as well. -/
def OnCycle (g : Graph α) (v : Nat) : Prop := TransGen g.Step v v

def Turned (g : Graph α) (back : List Pair) (v w : Nat) : Prop :=
  v ≠ w ∧ ∃ e ∈ g.edges,
    if e.isReversed back then e.target = v ∧ e.source = w else e.source = v ∧ e.target = w

theorem mem_pairs : (v, w) ∈ g.pairs ↔ g.Step v w := by
  simp only [pairs, Step, List.mem_map, List.mem_filter, bne_iff_ne, Prod.mk.injEq]
  constructor
  · rintro ⟨e, ⟨he, hne⟩, rfl, rfl⟩
    exact ⟨hne, e, he, rfl, rfl⟩
  · rintro ⟨hne, e, he, rfl, rfl⟩
    exact ⟨e, ⟨he, hne⟩, rfl, rfl⟩

theorem pairs_eq_step (g : Graph α) : (fun v w => (v, w) ∈ g.pairs) = g.Step := by
  funext v w
  exact propext mem_pairs

theorem mem_orient : (∃ o ∈ g.orient back, o.source = v ∧ o.target = w) ↔ g.Turned back v w := by
  have hmem : ∀ e, e ∈ g.edges ↔ ∃ i, (e, i) ∈ g.edges.zipIdx := by
    intro e
    rw [List.mem_iff_getElem?]
    simp only [List.mk_mem_zipIdx_iff_getElem?]
  simp only [orient, Turned, List.mem_map, List.mem_filter, bne_iff_ne]
  constructor
  · rintro ⟨o, ⟨⟨e, i⟩, ⟨he, hne⟩, rfl⟩, hv, hw⟩
    by_cases hrev : e.isReversed back = true
    · rw [if_pos hrev] at hv hw
      subst hv hw
      exact ⟨fun h => hne h.symm, e, (hmem e).mpr ⟨i, he⟩, by simp [hrev]⟩
    · rw [if_neg hrev] at hv hw
      subst hv hw
      exact ⟨hne, e, (hmem e).mpr ⟨i, he⟩, by simp [hrev]⟩
  · rintro ⟨hne, e, he, hends⟩
    obtain ⟨i, hi⟩ := (hmem e).mp he
    by_cases hrev : e.isReversed back = true
    · rw [if_pos hrev] at hends
      obtain ⟨rfl, rfl⟩ := hends
      exact ⟨_, ⟨(e, i), ⟨hi, fun h => hne h.symm⟩, rfl⟩, by simp [hrev]⟩
    · rw [if_neg hrev] at hends
      obtain ⟨rfl, rfl⟩ := hends
      exact ⟨_, ⟨(e, i), ⟨hi, hne⟩, rfl⟩, by simp [hrev]⟩

theorem backEdges_true (g : Graph α) :
    g.backEdges true = .ok (searchEdges g.nodes.length g.pairs).back := by
  simp [backEdges]

end Graph

theorem checkEdges_eq_ok {count : Nat} {edges : List (Link α)}
    (h : checkEdges count edges = .ok ()) :
    ∀ e ∈ edges, e.source < count ∧ e.target < count := by
  induction edges with
  | nil => simp
  | cons e edges ih =>
    rw [checkEdges] at h
    split at h
    · rename_i hsource
      split at h
      · rename_i htarget
        exact List.forall_mem_cons.mpr ⟨⟨hsource, htarget⟩, ih h⟩
      · cases h
    · cases h

namespace Graph

variable [Scalar α] {g : Graph α} {back : List Pair} {v w : Nat}

theorem check_ends (h : g.check = .ok ()) :
    ∀ e ∈ g.edges, e.source < g.nodes.length ∧ e.target < g.nodes.length := by
  rw [check] at h
  cases hnodes : checkNodes g.nodes with
  | error e =>
    rw [hnodes] at h
    cases h
  | ok u =>
    rw [hnodes] at h
    exact checkEdges_eq_ok h

theorem Step.lt (h : g.check = .ok ()) (hs : g.Step v w) :
    v < g.nodes.length ∧ w < g.nodes.length := by
  obtain ⟨-, e, he, rfl, rfl⟩ := hs
  exact check_ends h e he

theorem searched_pairs (h : g.check = .ok ()) :
    Searched g.pairs (searchEdges g.nodes.length g.pairs) := by
  refine searched fun e he => ?_
  have hs : g.Step e.1 e.2 := mem_pairs.mp he
  exact ⟨(hs.lt h).1, (hs.lt h).2, hs.1⟩

/-- The edges to be turned round are the right ones: turning them round leaves no cycle, and each of
them is on one. -/
structure Breaks (g : Graph α) (back : List Pair) : Prop where
  acyclic : ∀ v, ¬ TransGen (g.Turned back) v v
  onCycle : ∀ e ∈ g.edges, e.isReversed back = true →
    g.Step e.source e.target ∧ ReflTransGen g.Step e.target e.source
  empty_iff : (∀ e ∈ g.edges, e.isReversed back = false) ↔ ∀ v, ¬ g.OnCycle v

theorem breaks_back (h : g.check = .ok ()) :
    g.Breaks (searchEdges g.nodes.length g.pairs).back := by
  have hs := searched_pairs h
  have hback : ∀ e : Link α, e.isReversed (searchEdges g.nodes.length g.pairs).back = true ↔
      (e.source, e.target) ∈ (searchEdges g.nodes.length g.pairs).back :=
    fun e => List.contains_iff_mem
  constructor
  · refine Ahead.acyclic hs.distinct fun v w hturned => ?_
    obtain ⟨hne, e, he, hends⟩ := hturned
    split at hends
    · rename_i hrev
      obtain ⟨rfl, rfl⟩ := hends
      exact (hs.backward _ ((hback e).mp hrev)).2.1
    · rename_i hrev
      obtain ⟨rfl, rfl⟩ := hends
      exact (hs.forward _ (mem_pairs.mpr ⟨hne, e, he, rfl, rfl⟩)).resolve_left
        fun hmem => hrev ((hback e).mpr hmem)
  · intro e _ hrev
    obtain ⟨hedge, -, hreach⟩ := hs.backward _ ((hback e).mp hrev)
    rw [pairs_eq_step] at hreach
    exact ⟨mem_pairs.mp hedge, hreach⟩
  · have hnil := hs.back_eq_nil_iff
    rw [pairs_eq_step] at hnil
    refine Iff.trans ?_ hnil
    rw [List.eq_nil_iff_forall_not_mem]
    constructor
    · intro hall b hb
      -- Each back edge is an edge of the graph.
      obtain ⟨-, e, he, hsource, htarget⟩ := mem_pairs.mp (hs.backward b hb).1
      have hrev : e.isReversed (searchEdges g.nodes.length g.pairs).back = true := by
        rw [hback, hsource, htarget]
        exact hb
      rw [hall e he] at hrev
      cases hrev
    · intro hall e _
      rw [Bool.eq_false_iff, Ne, hback]
      exact hall _

omit [Scalar α] in
theorem mem_ends_orient : (v, w) ∈ (g.orient back).map Oriented.ends ↔ g.Turned back v w := by
  rw [← mem_orient]
  simp only [List.mem_map, Oriented.ends, Prod.mk.injEq]

theorem orient_lt (h : g.check = .ok ()) :
    ∀ o ∈ g.orient back, o.source < g.nodes.length ∧ o.target < g.nodes.length := by
  intro o ho
  obtain ⟨-, e, he, hends⟩ := mem_orient.mp ⟨o, ho, rfl, rfl⟩
  obtain ⟨hsource, htarget⟩ := check_ends h e he
  split at hends
  · rw [← hends.1, ← hends.2]
    exact ⟨htarget, hsource⟩
  · rw [← hends.1, ← hends.2]
    exact ⟨hsource, htarget⟩

theorem breaks_of_backEdges (h : g.check = .ok ()) {removeCycles : Bool}
    (hb : g.backEdges removeCycles = .ok back) : g.Breaks back := by
  have heq : (searchEdges g.nodes.length g.pairs).back = back := by
    simp only [backEdges] at hb
    split at hb
    · exact Except.ok.inj hb
    · cases hb
  exact heq ▸ breaks_back h

theorem Breaks.longest (h : g.check = .ok ()) (hb : g.Breaks back) :
    ∃ ranks, longestPathRanks g (g.orient back) = .ok ranks ∧
      Longest ((g.orient back).map Oriented.ends) g.nodes.length ranks := by
  have hrel : (fun v w => (v, w) ∈ (g.orient back).map Oriented.ends) = g.Turned back := by
    funext v w
    exact propext mem_ends_orient
  refine longestPathRanks_spec g (orient_lt h) ?_
  rw [hrel]
  exact hb.acyclic

theorem Breaks.ranks (h : g.check = .ok ()) (hb : g.Breaks back) :
    ∃ ranks, longestPathRanks g (g.orient back) = .ok ranks := by
  obtain ⟨ranks, hranks, -⟩ := hb.longest h
  exact ⟨ranks, hranks⟩

theorem backEdges_false (h : g.check = .ok ()) :
    (g.backEdges false = .ok [] ∧ ∀ v, ¬ g.OnCycle v) ∨
      ∃ v box, g.backEdges false = .error (.cyclic box.key) ∧ g.nodes[v]? = some box ∧
        g.OnCycle v := by
  have hs := searched_pairs h
  have hnil := hs.back_eq_nil_iff
  rw [pairs_eq_step] at hnil
  cases hback : (searchEdges g.nodes.length g.pairs).back with
  | nil => exact .inl ⟨by simp [backEdges, hback], hnil.mp hback⟩
  | cons b back =>
    right
    have hleast : ∃ e ∈ (searchEdges g.nodes.length g.pairs).back,
        leastTarget (searchEdges g.nodes.length g.pairs).back = e.2 := by
      obtain ⟨m, hm⟩ :
          ∃ m, ((searchEdges g.nodes.length g.pairs).back.map (·.2)).min? = some m := by
        rw [← Option.isSome_iff_exists, List.isSome_min?_iff, hback]
        simp
      have hmem := List.min?_mem hm
      obtain ⟨e, he, rfl⟩ := List.mem_map.mp hmem
      exact ⟨e, he, by simp [leastTarget, hm]⟩
    obtain ⟨e, he, hleast⟩ := hleast
    obtain ⟨hedge, -, hreach⟩ := hs.backward e he
    rw [pairs_eq_step] at hreach
    have hstep : g.Step e.1 e.2 := mem_pairs.mp hedge
    have hlt : e.2 < g.nodes.length := (hstep.lt h).2
    refine ⟨e.2, g.nodes[e.2], ?_, List.getElem?_eq_getElem hlt, TransGen.tail' hreach hstep⟩
    rw [backEdges, hleast]
    simp [hback, keyOf, List.getElem?_eq_getElem hlt]

end Graph

namespace Method

variable [Scalar α] {m : Method α} {g : Graph α} {key : String}

/-- A drawing fails by a cycle only where the cycles are to be broken. -/
theorem draw_eq_cyclic_iff (h : g.check = .ok ()) :
    m.draw g = .error (.cyclic key) ↔ g.backEdges m.removeCycles = .error (.cyclic key) := by
  simp only [draw, h]
  cases hback : g.backEdges m.removeCycles with
  | error e => simp [bind, Except.bind]
  | ok back =>
    have hb : g.Breaks back := Graph.breaks_of_backEdges h hback
    obtain ⟨ranks, hranks⟩ := hb.ranks h
    have hm : m.ranks g (g.orient back) = .ok ranks := by
      rw [Method.ranks]
      exact hranks
    refine ⟨fun hdraw => ?_, fun he => (by cases he)⟩
    simp only [hm, bind, Except.bind] at hdraw
    split at hdraw
    · cases hdraw
    · cases hdraw

/-- Cycles that are to be broken never make a drawing fail, and no edge is turned round but those on
a cycle. Where they are not to be broken, a drawing fails by one as soon as there is one, and names
a node on it. -/
theorem draws_cycles (m : Method α) (g : Graph α) (h : g.check = .ok ()) :
    (m.removeCycles = true → ∃ back ranks, g.backEdges m.removeCycles = .ok back ∧ g.Breaks back ∧
      longestPathRanks g (g.orient back) = .ok ranks ∧ ∀ key, m.draw g ≠ .error (.cyclic key)) ∧
    (m.removeCycles = false →
      ((∃ key, m.draw g = .error (.cyclic key)) ↔ ∃ v, g.OnCycle v) ∧
      ∀ key, m.draw g = .error (.cyclic key) →
        ∃ v box, g.nodes[v]? = some box ∧ box.key = key ∧ g.OnCycle v) := by
  constructor
  · intro hm
    have hb := Graph.breaks_back h
    obtain ⟨ranks, hranks⟩ := hb.ranks h
    rw [hm]
    refine ⟨_, ranks, g.backEdges_true, hb, hranks, fun key => ?_⟩
    rw [Ne, draw_eq_cyclic_iff h, hm, g.backEdges_true]
    exact fun hbad => by cases hbad
  · intro hm
    simp only [draw_eq_cyclic_iff h, hm]
    rcases Graph.backEdges_false h with ⟨hok, hno⟩ | ⟨v, box, herror, hbox, hv⟩
    · rw [hok]
      refine ⟨⟨fun ⟨key, hkey⟩ => (by cases hkey), fun ⟨v, hv⟩ => absurd hv (hno v)⟩, ?_⟩
      exact fun key hkey => by cases hkey
    · rw [herror]
      refine ⟨⟨fun _ => ⟨v, hv⟩, fun _ => ⟨box.key, rfl⟩⟩, fun key hkey => ?_⟩
      cases hkey
      exact ⟨v, box, hbox, rfl, hv⟩

instance exactScalar : Scalar Rat where
  ofNat n := n
  isFinite _ := true
  decLe _ _ := inferInstance
  precedes a b := decide (a ≤ b)
  precedes_trans _ _ _ hab hbc :=
    decide_eq_true (Rat.le_trans (of_decide_eq_true hab) (of_decide_eq_true hbc))
  precedes_total a b := by
    simp only [Bool.or_eq_true, decide_eq_true_eq]
    exact Rat.le_total

/-- Two nodes with edges both ways, one of them twice, and a third node with a loop. -/
def knot : Graph Rat where
  nodes := [⟨"a", 40, 20, 0, 0⟩, ⟨"b", 40, 20, 0, 0⟩, ⟨"c", 30, 30, 0, 0⟩]
  edges := [⟨"e", 0, 1, []⟩, ⟨"f", 0, 1, []⟩, ⟨"g", 1, 0, []⟩, ⟨"h", 1, 2, []⟩, ⟨"l", 2, 2, []⟩]

def plainMethod (removeCycles : Bool) : Method Rat where
  removeCycles := removeCycles
  iterations := 4
  spacing := ⟨30, 50⟩

theorem draws_cycles_knot :
    knot.check = .ok () ∧ (∃ key, (plainMethod false).draw knot = .error (.cyclic key)) ∧
      ∀ key, (plainMethod true).draw knot ≠ .error (.cyclic key) := by
  have hcheck : knot.check = .ok () := by decide +kernel
  have hcycle : knot.OnCycle 0 :=
    .tail (.single ⟨by decide, _, List.mem_cons_self, rfl, rfl⟩)
      ⟨by decide, ⟨"g", 1, 0, []⟩, by simp [knot], rfl, rfl⟩
  obtain ⟨-, hkept⟩ := draws_cycles (plainMethod false) knot hcheck
  obtain ⟨hbroken, -⟩ := draws_cycles (plainMethod true) knot hcheck
  obtain ⟨-, -, -, -, -, hnever⟩ := hbroken rfl
  exact ⟨hcheck, (hkept rfl).1.mpr ⟨0, hcycle⟩, hnever⟩

end Method

end PagedNets.Layered
