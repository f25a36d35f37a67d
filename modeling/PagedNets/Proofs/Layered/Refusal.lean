import PagedNets.Proofs.Layered.Cycles

/-!
Why a graph is not drawn. Its sizes are looked at first, then the ends of its edges, then its
cycles; a graph that has passed all this is drawn, or turns out to have no finite drawing.
-/

set_option autoImplicit false

namespace PagedNets.Layered

open Float.Model (UnpackedFloat)

section Sign

theorem le_iff_unpack {x y : Float} : x ≤ y ↔ x.toModel.unpack.le y.toModel.unpack = true :=
  decide_eq_true_iff

theorem lt_iff_unpack {x y : Float} : x < y ↔ x.toModel.unpack.lt y.toModel.unpack = true :=
  decide_eq_true_iff

theorem unpack_zero : (0 : Float).toModel.unpack = .zero .positive := rfl

/-- A finite double is not negative or less than zero; the zeros are not negative. -/
theorem zero_le_iff {x : Float} (h : x.isFinite = true) : 0 ≤ x ↔ ¬ x < 0 := by
  have hfinite : x.toModel.unpack.isFinite = true := h
  rw [le_iff_unpack, lt_iff_unpack, unpack_zero]
  cases hx : x.toModel.unpack with
  | zero s => cases s <;> decide
  | finite s m e hm =>
    cases s with
    | negative => exact iff_of_false Bool.false_ne_true (not_not_intro rfl)
    | positive => exact iff_of_true rfl Bool.false_ne_true
  | infinity s =>
    rw [hx] at hfinite
    cases hfinite
  | notANumber =>
    rw [hx] at hfinite
    cases hfinite

theorem zero_le_of_lt {x : Float} (h : 0 < x) : 0 ≤ x := by
  rw [lt_iff_unpack] at h
  rw [le_iff_unpack]
  simp only [UnpackedFloat.lt, beq_iff_eq] at h
  simp only [UnpackedFloat.le, h]
  rfl

theorem isLength_eq_false_iff {x : Float} :
    isLength x = false ↔ x < 0 ∨ x.isFinite = false := by
  have hlength : isLength x = (x.isFinite && decide (0 ≤ x)) := rfl
  cases hx : x.isFinite with
  | false => simp [hlength, hx]
  | true => simp [hlength, hx, zero_le_iff hx]

theorem isLength_of_pos {x : Float} (hx : 0 < x) (hfinite : x.isFinite = true) :
    isLength x = true := by
  have hlength : isLength x = (x.isFinite && decide (0 ≤ x)) := rfl
  simp [hlength, hfinite, zero_le_of_lt hx]

end Sign

variable {α : Type} [Scalar α]

def Box.IsMalformed (n : Box α) : Prop := ¬ (isLength n.width = true ∧ isLength n.height = true)

theorem checkNodes_eq_ok_iff {ns : List (Box α)} :
    checkNodes ns = .ok () ↔ ∀ n ∈ ns, ¬ n.IsMalformed := by
  induction ns with
  | nil => simp [checkNodes]
  | cons n ns ih =>
    rw [checkNodes, List.forall_mem_cons, ← ih, Box.IsMalformed, not_not, ← Bool.and_eq_true]
    split
    · next hsize => simp [hsize]
    · next hsize => simp [hsize]

theorem invalidSize_of_checkNodes {ns : List (Box α)} {cause : LayeringError}
    (h : checkNodes ns = .error cause) : ∃ key, cause = .invalidSize key := by
  induction ns with
  | nil => cases h
  | cons n ns ih =>
    rw [checkNodes] at h
    split at h
    · exact ih h
    · cases h
      exact ⟨n.key, rfl⟩

omit [Scalar α] in
theorem checkEdges_of_lt {count : Nat} {es : List (Link α)}
    (h : ∀ e ∈ es, e.source < count ∧ e.target < count) : checkEdges count es = .ok () := by
  induction es with
  | nil => rfl
  | cons e es ih =>
    obtain ⟨⟨hsource, htarget⟩, hrest⟩ := List.forall_mem_cons.mp h
    rw [checkEdges, if_pos hsource, if_pos htarget]
    exact ih hrest

def Graph.Anchored (g : Graph α) : Prop :=
  ∀ e ∈ g.edges, e.source < g.nodes.length ∧ e.target < g.nodes.length

variable {g : Graph α} {m : Method α}

theorem Graph.Anchored.check (h : g.Anchored) : g.check = checkNodes g.nodes := by
  rw [Graph.check, checkEdges_of_lt h]
  cases checkNodes g.nodes <;> rfl

theorem Graph.backEdges_true_or_acyclic (h : g.check = .ok ()) (removeCycles : Bool) :
    (∃ back, g.backEdges removeCycles = .ok back ∧
      (removeCycles = true ∨ ∀ v, ¬ g.OnCycle v)) ∨
    ∃ key v, g.backEdges removeCycles = .error (.cyclic key) ∧ removeCycles = false ∧
      g.OnCycle v := by
  cases removeCycles with
  | true => exact .inl ⟨_, g.backEdges_true, .inl rfl⟩
  | false =>
    rcases Graph.backEdges_false h with ⟨hok, hno⟩ | ⟨v, box, herror, -, hv⟩
    · exact .inl ⟨[], hok, .inr hno⟩
    · exact .inr ⟨box.key, v, herror, rfl, hv⟩

namespace Method

/-- All that can come of drawing a graph whose edges run between its nodes, with the reason for
each. -/
inductive Fate (m : Method α) (g : Graph α) : Except LayeringError (Graph α × Summary) → Prop
  | malformed (key : String) (n : Box α) : n ∈ g.nodes → n.IsMalformed →
      Fate m g (.error (.invalidSize key))
  | cyclic (key : String) (v : Nat) : (∀ n ∈ g.nodes, ¬ n.IsMalformed) →
      m.removeCycles = false → g.OnCycle v → Fate m g (.error (.cyclic key))
  | infinite (key : String) : (∀ n ∈ g.nodes, ¬ n.IsMalformed) →
      (m.removeCycles = true ∨ ∀ v, ¬ g.OnCycle v) → Fate m g (.error (.nonFinite key))
  | drawn (result : Graph α × Summary) : (∀ n ∈ g.nodes, ¬ n.IsMalformed) →
      (m.removeCycles = true ∨ ∀ v, ¬ g.OnCycle v) → Fate m g (.ok result)

theorem fate_draw (m : Method α) (h : g.Anchored) : m.Fate g (m.draw g) := by
  cases hnodes : checkNodes g.nodes with
  | error cause =>
    obtain ⟨key, rfl⟩ := invalidSize_of_checkNodes hnodes
    have hmalformed : ¬ ∀ n ∈ g.nodes, ¬ n.IsMalformed := by
      rw [← checkNodes_eq_ok_iff, hnodes]
      simp
    push Not at hmalformed
    obtain ⟨n, hn, hsize⟩ := hmalformed
    have hdraw : m.draw g = .error (.invalidSize key) := by
      rw [draw, h.check, hnodes]
      rfl
    rw [hdraw]
    exact .malformed key n hn hsize
  | ok u =>
    have hsizes : ∀ n ∈ g.nodes, ¬ n.IsMalformed := checkNodes_eq_ok_iff.mp hnodes
    have hcheck : g.check = .ok () := h.check.trans hnodes
    rcases Graph.backEdges_true_or_acyclic hcheck m.removeCycles with
      ⟨back, hback, hcycles⟩ | ⟨key, v, hback, hkept, hv⟩
    · obtain ⟨ranks, hranks⟩ := (Graph.breaks_of_backEdges hcheck hback).ranks hcheck
      have hm : m.ranks g (g.orient back) = .ok ranks := by
        rw [Method.ranks]
        exact hranks
      simp only [draw, hcheck, hback, hm, bind, Except.bind]
      split
      · exact .infinite _ hsizes hcycles
      · exact .drawn _ hsizes hcycles
    · have hdraw : m.draw g = .error (.cyclic key) := (draw_eq_cyclic_iff hcheck).mpr hback
      rw [hdraw]
      exact .cyclic key v hsizes hkept hv

end Method

end PagedNets.Layered
