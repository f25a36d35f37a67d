import Mathlib.Data.List.Nodup
import Mathlib.Logic.Relation
import PagedNets.Proofs.Document.View

/-!
Chains of references. Where no chain leads back to its start, a chain visits no node twice, so that
it is over after as many links as there are objects.
-/

set_option autoImplicit false

namespace PagedNets.Document

def refersTo? (d : Document) (i : ObjectId) : Option ObjectId :=
  (d.object? i).bind Object.reference?

def RefersTo (d : Document) (a b : ObjectId) : Prop := d.refersTo? a = some b

/-- Following references from any node ends. -/
def Grounded (d : Document) : Prop := WellFounded fun b a => d.RefersTo a b

variable {d : Document} {i j : ObjectId}

theorem refersTo?_eq : d.refersTo? i = (d.node? i).bind (·.reference) := by
  simp only [refersTo?, node?]
  cases d.object? i <;> rfl

theorem mem_keys_of_refersTo (h : d.RefersTo i j) : i ∈ d.keys := by
  obtain ⟨o, ho, _⟩ := Option.bind_eq_some_iff.mp h
  exact mem_keys_of_object? ho

theorem Grounded.not_reaches (h : d.Grounded) (hij : d.RefersTo i j) :
    ¬ Relation.ReflTransGen d.RefersTo j i := by
  induction i using h.induction generalizing j with
  | _ i ih =>
    intro hji
    rcases Relation.ReflTransGen.cases_head hji with rfl | ⟨k, hjk, hki⟩
    · exact ih j hij hij .refl
    · exact ih j hij hjk (hki.tail hij)

/-- Giving one node a referent from which no chain leads back keeps all chains finite. -/
theorem Grounded.update {e : Document} (h : d.Grounded)
    (hsame : ∀ a, a ≠ i → e.refersTo? a = d.refersTo? a)
    (hnew : ∀ t, e.RefersTo i t → ¬ Relation.ReflTransGen d.RefersTo t i) : e.Grounded := by
  have haway : ∀ a, ¬ Relation.ReflTransGen d.RefersTo a i →
      Acc (fun b a => e.RefersTo a b) a := by
    intro a
    induction a using h.induction with
    | _ a ih =>
      intro ha
      have hne : a ≠ i := by
        rintro rfl
        exact ha .refl
      refine ⟨a, fun b hb => ?_⟩
      have hab : d.RefersTo a b := (hsame a hne).symm.trans hb
      exact ih b hab fun hbi => ha (hbi.head hab)
  have hi : Acc (fun b a => e.RefersTo a b) i := ⟨i, fun t ht => haway t (hnew t ht)⟩
  refine ⟨fun a => ?_⟩
  induction a using h.induction with
  | _ a ih =>
    by_cases ha : a = i
    · rw [ha]
      exact hi
    · exact ⟨a, fun b hb => ih b ((hsame a ha).symm.trans hb)⟩

theorem referenceChain_of_none {fuel : Nat} (h : d.refersTo? i = none) :
    d.referenceChain fuel i = [i] := by
  cases fuel with
  | zero => rfl
  | succ fuel =>
    rw [referenceChain, ← refersTo?_eq, h]

theorem referenceChain_of_some {fuel : Nat} (h : d.RefersTo i j) :
    d.referenceChain (fuel + 1) i = i :: d.referenceChain fuel j := by
  have hj : d.refersTo? i = some j := h
  rw [referenceChain, ← refersTo?_eq, hj]

theorem referenceChain_eq_cons (d : Document) (fuel : Nat) (i : ObjectId) :
    ∃ rest, d.referenceChain fuel i = i :: rest := by
  cases fuel with
  | zero => exact ⟨[], rfl⟩
  | succ fuel =>
    cases hr : d.refersTo? i with
    | none => exact ⟨[], referenceChain_of_none hr⟩
    | some j => exact ⟨_, referenceChain_of_some hr⟩

theorem getLastD_referenceChain (d : Document) (fuel : Nat) (i j : ObjectId) :
    (i :: d.referenceChain fuel j).getLastD i = (d.referenceChain fuel j).getLastD j := by
  obtain ⟨rest, hr⟩ := d.referenceChain_eq_cons fuel j
  simp only [hr, List.getLastD_cons]

theorem reaches_of_mem_referenceChain {fuel : Nat} (h : j ∈ d.referenceChain fuel i) :
    Relation.ReflTransGen d.RefersTo i j := by
  induction fuel generalizing i with
  | zero =>
    rw [List.mem_singleton.mp h]
  | succ fuel ih =>
    cases hr : d.refersTo? i with
    | none =>
      rw [referenceChain_of_none hr] at h
      rw [List.mem_singleton.mp h]
    | some k =>
      rw [referenceChain_of_some hr] at h
      rcases List.mem_cons.mp h with rfl | h
      · exact .refl
      · exact (ih h).head hr

theorem nodup_referenceChain (hg : d.Grounded) (fuel : Nat) (i : ObjectId) :
    (d.referenceChain fuel i).Nodup := by
  induction fuel generalizing i with
  | zero => exact List.nodup_singleton i
  | succ fuel ih =>
    cases hr : d.refersTo? i with
    | none =>
      rw [referenceChain_of_none hr]
      exact List.nodup_singleton i
    | some k =>
      rw [referenceChain_of_some hr]
      have hi : i ∉ d.referenceChain fuel k :=
        fun hm => hg.not_reaches hr (reaches_of_mem_referenceChain hm)
      exact List.nodup_cons.mpr ⟨hi, ih k⟩

def ChainEnds (d : Document) (fuel : Nat) (i : ObjectId) : Prop :=
  d.refersTo? ((d.referenceChain fuel i).getLastD i) = none

theorem chainEnds_of_none {fuel : Nat} (h : d.refersTo? i = none) : d.ChainEnds fuel i := by
  rw [ChainEnds, referenceChain_of_none h]
  exact h

theorem chainEnds_succ_iff {fuel : Nat} (h : d.RefersTo i j) :
    d.ChainEnds (fuel + 1) i ↔ d.ChainEnds fuel j := by
  rw [ChainEnds, referenceChain_of_some h, getLastD_referenceChain, ChainEnds]

/-- A chain that is not over has used all its links, and all its nodes are registered. -/
theorem full_of_not_chainEnds {fuel : Nat} (h : ¬ d.ChainEnds fuel i) :
    (d.referenceChain fuel i).length = fuel + 1 ∧ ∀ k ∈ d.referenceChain fuel i, k ∈ d.keys := by
  induction fuel generalizing i with
  | zero =>
    refine ⟨rfl, fun k hk => ?_⟩
    rw [List.mem_singleton.mp hk]
    cases hr : d.refersTo? i with
    | none => exact absurd (chainEnds_of_none hr) h
    | some j => exact mem_keys_of_refersTo hr
  | succ fuel ih =>
    cases hr : d.refersTo? i with
    | none => exact absurd (chainEnds_of_none hr) h
    | some j =>
      rw [chainEnds_succ_iff hr] at h
      obtain ⟨hlength, hkeys⟩ := ih h
      rw [referenceChain_of_some hr]
      refine ⟨by simp [hlength], fun k hk => ?_⟩
      rcases List.mem_cons.mp hk with rfl | hk
      · exact mem_keys_of_refersTo hr
      · exact hkeys k hk

theorem chainEnds (hg : d.Grounded) {fuel : Nat} (hf : d.size ≤ fuel) (i : ObjectId) :
    d.ChainEnds fuel i := by
  by_contra h
  obtain ⟨hlength, hkeys⟩ := full_of_not_chainEnds h
  have hle : (d.referenceChain fuel i).length ≤ d.keys.length :=
    List.Nodup.length_le_of_subset (nodup_referenceChain hg fuel i) hkeys
  rw [length_keys] at hle
  omega

theorem referenceChain_of_chainEnds {fuel more : Nat} (h : d.ChainEnds fuel i)
    (hm : fuel ≤ more) : d.referenceChain more i = d.referenceChain fuel i := by
  induction fuel generalizing i more with
  | zero =>
    have hr : d.refersTo? i = none := h
    rw [referenceChain_of_none hr, referenceChain_of_none hr]
  | succ fuel ih =>
    obtain ⟨rest, rfl⟩ : ∃ rest, more = rest + 1 := ⟨more - 1, by omega⟩
    cases hr : d.refersTo? i with
    | none => rw [referenceChain_of_none hr, referenceChain_of_none hr]
    | some j =>
      rw [chainEnds_succ_iff hr] at h
      rw [referenceChain_of_some hr, referenceChain_of_some hr, ih h (by omega)]

theorem mem_referenceChain_of_chainEnds {fuel : Nat} (h : d.ChainEnds fuel i)
    (hij : Relation.ReflTransGen d.RefersTo i j) : j ∈ d.referenceChain fuel i := by
  induction fuel generalizing i with
  | zero =>
    have hr : d.refersTo? i = none := h
    rcases Relation.ReflTransGen.cases_head hij with rfl | ⟨k, hik, _⟩
    · exact List.mem_singleton_self _
    · rw [RefersTo, hr] at hik
      cases hik
  | succ fuel ih =>
    obtain ⟨rest, hrest⟩ := d.referenceChain_eq_cons (fuel + 1) i
    rcases Relation.ReflTransGen.cases_head hij with rfl | ⟨k, hik, hkj⟩
    · rw [hrest]
      exact List.mem_cons_self
    · rw [chainEnds_succ_iff hik] at h
      rw [referenceChain_of_some hik]
      exact List.mem_cons_of_mem _ (ih h hkj)

theorem mem_referents (hg : d.Grounded) :
    j ∈ d.referents i ↔ Relation.ReflTransGen d.RefersTo i j :=
  ⟨reaches_of_mem_referenceChain,
    mem_referenceChain_of_chainEnds (chainEnds hg (Nat.le_refl _) i)⟩

end PagedNets.Document
