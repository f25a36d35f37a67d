import Mathlib.Order.Bounds.Basic
import Mathlib.Order.MinMax
import PagedNets.Layered.Rank
import PagedNets.Proofs.Layered.Search

/-!
Ranks are lengths of longest paths. Following the edges once, vertex after vertex, is enough if
every vertex comes after all those that edges lead from: then a vertex has its final rank when its
turn comes, and no rank is changed behind it.
-/

set_option autoImplicit false

namespace PagedNets.Layered

open Relation

def Oriented.ends (o : Oriented) : Pair := (o.source, o.target)

inductive EndsAt (edges : List Pair) : Nat → Nat → Prop
  | start (v : Nat) : EndsAt edges 0 v
  | step {length u v : Nat} (path : EndsAt edges length u) (edge : (u, v) ∈ edges) :
      EndsAt edges (length + 1) v

/-- Each vertex stands once in the order, and each edge leads further behind. -/
structure Topological (edges : List Pair) (n : Nat) (order : List Nat) : Prop where
  distinct : order.Nodup
  all : ∀ v < n, v ∈ order
  forward : ∀ e ∈ edges, Ahead order e.1 e.2

structure Longest (edges : List Pair) (n : Nat) (ranks : List Nat) : Prop where
  length : ranks.length = n
  greatest : ∀ v, IsGreatest {k | EndsAt edges k v} (ranks.getD v 0)

def relax (edges : List Pair) (ranks : List Nat) (v : Nat) : List Nat :=
  (edges.filter fun e => e.1 == v).foldl
    (fun ranks e => raise ranks e.2 (ranks.getD v 0 + 1)) ranks

variable {edges : List Pair} {n v w : Nat} {order done rest ranks : List Nat}

theorem ranksAlong_eq_foldl (edges : List Pair) (n : Nat) (order : List Nat) :
    ranksAlong edges n order = order.foldl (relax edges) (List.replicate n 0) := rfl

section Relax

theorem length_raise (ranks : List Nat) (v rank : Nat) :
    (raise ranks v rank).length = ranks.length := List.length_set

theorem getD_raise (ranks : List Nat) (v rank w : Nat) : (raise ranks v rank).getD w 0 =
    if w = v ∧ w < ranks.length then max (ranks.getD w 0) rank else ranks.getD w 0 := by
  simp only [raise, List.getD_eq_getElem?_getD, List.getElem?_set]
  by_cases hv : v = w
  · subst hv
    by_cases hlt : v < ranks.length <;> simp [hlt]
  · simp [hv, Ne.symm hv]

/-- Raising the ends of some edges from `v` does not touch the rank of `v` itself. -/
theorem getD_foldl_raise {followed : List Pair} (hv : ∀ e ∈ followed, e.2 ≠ v) (w : Nat) :
    (followed.foldl (fun ranks e => raise ranks e.2 (ranks.getD v 0 + 1)) ranks).getD w 0 =
      if w ∈ followed.map (·.2) ∧ w < ranks.length then
        max (ranks.getD w 0) (ranks.getD v 0 + 1)
      else ranks.getD w 0 := by
  induction followed generalizing ranks with
  | nil => simp
  | cons e followed ih =>
    obtain ⟨he, hfollowed⟩ := List.forall_mem_cons.mp hv
    have hsame : (raise ranks e.2 (ranks.getD v 0 + 1)).getD v 0 = ranks.getD v 0 := by
      rw [getD_raise, if_neg fun h => he h.1.symm]
    rw [List.foldl_cons, ih hfollowed, hsame, getD_raise, length_raise]
    by_cases hlt : w < ranks.length
    · by_cases hw : w = e.2
      · subst hw
        by_cases hm : e.2 ∈ followed.map (·.2) <;> simp [hlt]
      · simp only [hw, false_and, if_false, List.map_cons, List.mem_cons, false_or]
    · simp [hlt]

theorem getD_relax (hloop : (v, v) ∉ edges) (w : Nat) : (relax edges ranks v).getD w 0 =
    if (v, w) ∈ edges ∧ w < ranks.length then max (ranks.getD w 0) (ranks.getD v 0 + 1)
    else ranks.getD w 0 := by
  have hends : ∀ u, u ∈ (edges.filter fun e => e.1 == v).map (·.2) ↔ (v, u) ∈ edges := by
    intro u
    simp only [List.mem_map, List.mem_filter, beq_iff_eq]
    constructor
    · rintro ⟨⟨a, b⟩, ⟨he, rfl⟩, rfl⟩
      exact he
    · exact fun he => ⟨(v, u), ⟨he, rfl⟩, rfl⟩
  have hv : ∀ e ∈ edges.filter fun e => e.1 == v, e.2 ≠ v := by
    rintro e he rfl
    exact hloop ((hends _).mp (List.mem_map_of_mem he))
  rw [relax, getD_foldl_raise hv]
  simp only [hends]

theorem length_relax (edges : List Pair) (ranks : List Nat) (v : Nat) :
    (relax edges ranks v).length = ranks.length := by
  unfold relax
  generalize edges.filter _ = followed
  induction followed generalizing ranks with
  | nil => rfl
  | cons e followed ih => rw [List.foldl_cons, ih, length_raise]

end Relax

structure Relaxed (edges : List Pair) (n : Nat) (done ranks : List Nat) : Prop where
  length : ranks.length = n
  attained : ∀ v, EndsAt edges (ranks.getD v 0) v
  rising : ∀ e ∈ edges, e.1 ∈ done → ranks.getD e.1 0 < ranks.getD e.2 0

namespace Topological

theorem not_loop (h : Topological edges n order) : (v, v) ∉ edges :=
  fun hv => (h.forward _ hv).ne h.distinct rfl

theorem not_back (h : Topological edges n (done ++ v :: rest)) (hw : w ∈ done) :
    (v, w) ∉ edges := by
  intro hback
  have hahead : Ahead (done ++ v :: rest) w v := .of_append hw List.mem_cons_self
  exact (hahead.trans h.distinct (h.forward _ hback)).ne h.distinct rfl

theorem relaxed_relax (h : Topological edges n (done ++ v :: rest))
    (hends : ∀ e ∈ edges, e.2 < n) (hr : Relaxed edges n done ranks) :
    Relaxed edges n (done ++ [v]) (relax edges ranks v) := by
  have hloop : (v, v) ∉ edges := h.not_loop
  constructor
  · rw [length_relax, hr.length]
  · intro w
    rw [getD_relax hloop]
    split
    · next hvw =>
      rcases max_choice (ranks.getD w 0) (ranks.getD v 0 + 1) with hmax | hmax
      · rw [hmax]
        exact hr.attained w
      · rw [hmax]
        exact .step (hr.attained v) hvw.1
    · exact hr.attained w
  · intro e he hdone
    rcases List.mem_append.mp hdone with hdone | hv
    · -- The rank of a vertex that had its turn stands, and the others only rise.
      have hstands : (relax edges ranks v).getD e.1 0 = ranks.getD e.1 0 := by
        rw [getD_relax hloop, if_neg fun hback => h.not_back hdone hback.1]
      have hgrows : ranks.getD e.2 0 ≤ (relax edges ranks v).getD e.2 0 := by
        rw [getD_relax hloop]
        split
        · exact Nat.le_max_left _ _
        · exact Nat.le_refl _
      rw [hstands]
      exact Nat.lt_of_lt_of_le (hr.rising e he hdone) hgrows
    · obtain rfl := List.mem_singleton.mp hv
      have hlt : e.2 < ranks.length := hr.length ▸ hends e he
      rw [getD_relax hloop, getD_relax hloop, if_neg fun hback => hloop hback.1,
        if_pos ⟨he, hlt⟩]
      exact Nat.lt_of_succ_le (Nat.le_max_right _ _)

theorem relaxed_foldl (h : Topological edges n (done ++ rest)) (hends : ∀ e ∈ edges, e.2 < n)
    (hr : Relaxed edges n done ranks) :
    Relaxed edges n (done ++ rest) (rest.foldl (relax edges) ranks) := by
  induction rest generalizing done ranks with
  | nil => rwa [List.append_nil]
  | cons v rest ih =>
    have hsplit : done ++ v :: rest = done ++ [v] ++ rest := by simp
    have hstep := h.relaxed_relax hends hr
    rw [hsplit] at h ⊢
    exact ih h hstep

theorem longest_ranksAlong (h : Topological edges n order) (hends : ∀ e ∈ edges, e.2 < n) :
    Longest edges n (ranksAlong edges n order) := by
  have hstart : Relaxed edges n [] (List.replicate n 0) := by
    refine ⟨List.length_replicate, fun v => ?_, fun e _ hnil => by cases hnil⟩
    have hzero : (List.replicate n 0).getD v 0 = 0 := by
      rw [List.getD_eq_getElem?_getD, List.getElem?_replicate]
      split <;> rfl
    rw [hzero]
    exact .start v
  have hend : Relaxed edges n order (ranksAlong edges n order) := by
    rw [ranksAlong_eq_foldl]
    exact h.relaxed_foldl hends hstart
  refine ⟨hend.length, fun v => ⟨hend.attained v, fun k hk => ?_⟩⟩
  induction hk with
  | start v => exact Nat.zero_le _
  | step _ hedge ih =>
    have hfirst := (h.forward _ hedge).subset List.mem_cons_self
    exact Nat.succ_le_of_lt (Nat.lt_of_le_of_lt ih (hend.rising _ hedge hfirst))

end Topological

namespace Longest

variable (h : Longest edges n ranks)
include h

theorem le_of_endsAt {k : Nat} (hk : EndsAt edges k v) : k ≤ ranks.getD v 0 := (h.greatest v).2 hk

theorem lt_of_mem (he : (v, w) ∈ edges) : ranks.getD v 0 < ranks.getD w 0 :=
  h.le_of_endsAt (.step (h.greatest v).1 he)

/-- A vertex that is not on the first layer has one before it on the layer above. -/
theorem exists_before {rank : Nat} (hv : ranks.getD v 0 = rank + 1) :
    ∃ u, (u, v) ∈ edges ∧ ranks.getD u 0 = rank := by
  have hpath : EndsAt edges (ranks.getD v 0) v := (h.greatest v).1
  rw [hv] at hpath
  cases hpath with
  | @step _ u _ hbefore hedge =>
    have hle := h.le_of_endsAt hbefore
    have hlt := h.lt_of_mem hedge
    exact ⟨u, hedge, by omega⟩

theorem unique {other : List Nat} (ho : Longest edges n other) : other = ranks := by
  refine List.ext_getElem (ho.length.trans h.length.symm) fun i hi hj => ?_
  have heq : other.getD i 0 = ranks.getD i 0 :=
    IsGreatest.unique (ho.greatest i) (h.greatest i)
  simpa [List.getD_eq_getElem?_getD, hi, hj] using heq

end Longest

/-- Without cycles, the search finishes the vertices in a topological order. -/
theorem topological_finished (hends : ∀ e ∈ edges, e.1 < n ∧ e.2 < n)
    (hacyclic : ∀ v, ¬ TransGen (fun v w => (v, w) ∈ edges) v v) :
    (searchEdges n edges).back = [] ∧ Topological edges n (searchEdges n edges).finished := by
  have hproper : ∀ e ∈ edges, e.1 < n ∧ e.2 < n ∧ e.1 ≠ e.2 := by
    rintro ⟨v, w⟩ he
    refine ⟨(hends _ he).1, (hends _ he).2, fun hloop => ?_⟩
    obtain rfl : v = w := hloop
    exact hacyclic v (.single he)
  have hs := searched hproper
  have hnil := hs.back_eq_nil_iff.mpr hacyclic
  refine ⟨hnil, hs.distinct, fun v hv => mem_finished hproper hv, fun e he => ?_⟩
  refine (hs.forward e he).resolve_left fun hback => ?_
  rw [hnil] at hback
  cases hback

theorem longestPathRanks_spec {α : Type} (g : Graph α) {oriented : List Oriented}
    (hends : ∀ o ∈ oriented, o.source < g.nodes.length ∧ o.target < g.nodes.length)
    (hacyclic : ∀ v, ¬ TransGen (fun v w => (v, w) ∈ oriented.map Oriented.ends) v v) :
    ∃ ranks, longestPathRanks g oriented = .ok ranks ∧
      Longest (oriented.map Oriented.ends) g.nodes.length ranks := by
  have hpairs : ∀ e ∈ oriented.map Oriented.ends,
      e.1 < g.nodes.length ∧ e.2 < g.nodes.length := List.forall_mem_map.mpr hends
  obtain ⟨hnil, htopological⟩ := topological_finished hpairs hacyclic
  have horder : topologicalOrder g.nodes.length (oriented.map Oriented.ends) =
      .ok (searchEdges g.nodes.length (oriented.map Oriented.ends)).finished := by
    simp only [topologicalOrder, hnil, List.isEmpty_nil, if_true]
  have hranks : longestPathRanks g oriented =
      .ok (ranksAlong (oriented.map Oriented.ends) g.nodes.length
        (searchEdges g.nodes.length (oriented.map Oriented.ends)).finished) := by
    unfold longestPathRanks
    rw [show (oriented.map fun e => (e.source, e.target)) = oriented.map Oriented.ends from rfl]
    simp only [horder]
  exact ⟨_, hranks, htopological.longest_ranksAlong fun e he => (hpairs e he).2⟩

end PagedNets.Layered
