import Mathlib
import PagedNets.Proofs.Layered.Cycles
import PagedNets.Proofs.Layered.Stages
import PagedNets.Proofs.Layered.Turns

set_option autoImplicit false

namespace PagedNets.Layered

section Sweeps

variable (α : Type) [Scalar α] (above below : Array (List Nat)) {layers : List Layer}

def swept (layers : List Layer) : Nat → List Layer
  | 0 => layers
  | number + 1 => pass α above below number (swept layers number)

def crossed (layers : List Layer) (number : Nat) : Nat :=
  crossings below (swept α above below layers number)

theorem reordered_swept (number : Nat) : Reordered (swept α above below layers number) layers := by
  induction number with
  | zero => exact List.forall₂_same.mpr fun layer _ => .refl layer
  | succ number ih => exact reordered_pass α above below number ih

/-- Of the given order and those after the first `last` sweeps, the one after `kept` sweeps has the
fewest crossings, and is the first that has so few. -/
structure Fewest (layers : List Layer) (last kept : Nat) : Prop where
  met : kept ≤ last
  fewest : ∀ k ≤ last, crossed α above below layers kept ≤ crossed α above below layers k
  first : ∀ k < kept, crossed α above below layers kept < crossed α above below layers k

/-- Sweeps are made until one leaves no crossings, and not more than `iterations`. -/
structure Sweeps (layers : List Layer) (iterations last : Nat) : Prop where
  allowed : last ≤ iterations
  needed : ∀ k < last, crossed α above below layers k ≠ 0
  ended : last = iterations ∨ crossed α above below layers last = 0

structure Ordered (layers : List Layer) (iterations : Nat) (chosen : List Layer × Nat) : Prop where
  reordered : Reordered chosen.1 layers
  counted : chosen.2 = crossings below chosen.1
  best : ∃ last kept, Sweeps α above below layers iterations last ∧
    Fewest α above below layers last kept ∧ chosen.1 = swept α above below layers kept

end Sweeps

section Improve

variable {α : Type} [Scalar α] {above below : Array (List Nat)} {layers : List Layer}
  {number kept left last more few many : Nat}

theorem Fewest.better (h : Fewest α above below layers number kept)
    (hlt : crossed α above below layers (number + 1) < crossed α above below layers kept) :
    Fewest α above below layers (number + 1) (number + 1) := by
  refine ⟨Nat.le_refl _, fun k hk => ?_, fun k hk => ?_⟩
  · rcases Nat.lt_or_eq_of_le hk with hk | rfl
    · exact Nat.le_trans (Nat.le_of_lt hlt) (h.fewest k (Nat.le_of_lt_succ hk))
    · exact Nat.le_refl _
  · exact Nat.lt_of_lt_of_le hlt (h.fewest k (Nat.le_of_lt_succ hk))

theorem Fewest.worse (h : Fewest α above below layers number kept)
    (hge : ¬ crossed α above below layers (number + 1) < crossed α above below layers kept) :
    Fewest α above below layers (number + 1) kept := by
  refine ⟨Nat.le_succ_of_le h.met, fun k hk => ?_, h.first⟩
  rcases Nat.lt_or_eq_of_le hk with hk | rfl
  · exact h.fewest k (Nat.le_of_lt_succ hk)
  · exact Nat.le_of_not_lt hge

theorem improve_succ (left number kept : Nat) :
    improve α above below (left + 1) number (swept α above below layers number)
        (swept α above below layers kept) (crossed α above below layers kept) =
      if crossed α above below layers kept = 0 then
        (swept α above below layers kept, crossed α above below layers kept)
      else if crossed α above below layers (number + 1) < crossed α above below layers kept then
        improve α above below left (number + 1) (swept α above below layers (number + 1))
          (swept α above below layers (number + 1)) (crossed α above below layers (number + 1))
      else
        improve α above below left (number + 1) (swept α above below layers (number + 1))
          (swept α above below layers kept) (crossed α above below layers kept) := rfl

/-- The loop goes on from any number of sweeps with the best order so far. -/
theorem improve_spec (left : Nat) (h : Fewest α above below layers number kept)
    (hneeded : ∀ k < number, crossed α above below layers k ≠ 0) :
    ∃ last best, Sweeps α above below layers (number + left) last ∧
      Fewest α above below layers last best ∧
      improve α above below left number (swept α above below layers number)
        (swept α above below layers kept) (crossed α above below layers kept) =
          (swept α above below layers best, crossed α above below layers best) := by
  induction left generalizing number kept with
  | zero => exact ⟨number, kept, ⟨Nat.le_refl _, hneeded, .inl rfl⟩, h, rfl⟩
  | succ left ih =>
    rw [improve_succ]
    by_cases hzero : crossed α above below layers kept = 0
    · -- Only the last order can be without crossings, so the best one is the last.
      have hlast : kept = number := by
        by_contra hne
        exact hneeded kept (Nat.lt_of_le_of_ne h.met hne) hzero
      rw [if_pos hzero]
      exact ⟨number, kept, ⟨Nat.le_add_right _ _, hneeded, .inr (hlast ▸ hzero)⟩, h, rfl⟩
    · have hmore : ∀ k < number + 1, crossed α above below layers k ≠ 0 := by
        intro k hk
        have hle := h.fewest k (Nat.le_of_lt_succ hk)
        omega
      have hcount : number + (left + 1) = number + 1 + left := by omega
      rw [if_neg hzero, hcount]
      split
      · next hlt => exact ih (h.better hlt) hmore
      · next hge => exact ih (h.worse hge) hmore

theorem Sweeps.mono (h : Sweeps α above below layers few last)
    (hm : Sweeps α above below layers many more) (hle : few ≤ many) : last ≤ more := by
  by_contra hlt
  rcases hm.ended with heq | hzero
  · have hallowed := h.allowed
    omega
  · exact h.needed more (by omega) hzero

theorem Fewest.mono (h : Fewest α above below layers last kept) {best : Nat}
    (hm : Fewest α above below layers more best) (hle : last ≤ more) :
    crossed α above below layers best ≤ crossed α above below layers kept :=
  hm.fewest kept (Nat.le_trans h.met hle)

variable (α above below)

theorem orderLayers_spec (iterations : Nat) (layers : List Layer) :
    Ordered α above below layers iterations (orderLayers α above below iterations layers) := by
  have hstart : Fewest α above below layers 0 0 := by
    refine ⟨Nat.le_refl _, fun k hk => ?_, fun k hk => absurd hk (Nat.not_lt_zero k)⟩
    obtain rfl := Nat.le_zero.mp hk
    exact Nat.le_refl _
  obtain ⟨last, kept, hsweeps, hfewest, hchosen⟩ :=
    improve_spec iterations hstart fun k hk => absurd hk (Nat.not_lt_zero k)
  have horder : orderLayers α above below iterations layers =
      (swept α above below layers kept, crossed α above below layers kept) := hchosen
  rw [Nat.zero_add] at hsweeps
  rw [horder]
  exact ⟨reordered_swept α above below kept, rfl, last, kept, hsweeps, hfewest, rfl⟩

end Improve

namespace Method

section

variable {α : Type} [Scalar α]

end

end Method

end PagedNets.Layered
