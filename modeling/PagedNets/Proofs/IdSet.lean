import PagedNets.Net.Element

set_option autoImplicit false

namespace PagedNets

namespace ObjectId

theorem lt_irrefl (i : ObjectId) : ¬ i < i := String.lt_irrefl i.text

theorem lt_trans {i j k : ObjectId} (h : i < j) (h' : j < k) : i < k := String.lt_trans h h'

theorem lt_of_not_lt {i j : ObjectId} (h : ¬ i < j) (hne : i ≠ j) : j < i := by
  by_cases hj : j < i
  · exact hj
  · have he : i.text = j.text := String.le_antisymm (String.not_lt.mp hj) (String.not_lt.mp h)
    exact absurd (congrArg mk he) hne

end ObjectId

namespace IdSet

def Ascending (s : IdSet) : Prop := List.Pairwise (· < ·) s

theorem mem_insert {s : IdSet} {i j : ObjectId} : j ∈ s.insert i ↔ j = i ∨ j ∈ s := by
  induction s with
  | nil => simp [insert]
  | cons k s ih =>
    unfold insert
    split
    · simp
    split
    · next he =>
      subst he
      simp
    · simp only [List.mem_cons, ih]
      exact or_left_comm

theorem ascending_insert {s : IdSet} (h : s.Ascending) (i : ObjectId) :
    (s.insert i).Ascending := by
  induction s with
  | nil => exact List.pairwise_singleton _ _
  | cons k s ih =>
    obtain ⟨hk, hs⟩ := List.pairwise_cons.mp h
    unfold insert
    split
    · next hlt =>
      refine List.pairwise_cons.mpr ⟨fun j hj => ?_, h⟩
      rcases List.mem_cons.mp hj with rfl | hj
      · exact hlt
      · exact ObjectId.lt_trans hlt (hk j hj)
    split
    · exact h
    · next hlt hne =>
      refine List.pairwise_cons.mpr ⟨fun j hj => ?_, ih hs⟩
      rcases mem_insert.mp hj with rfl | hj
      · exact ObjectId.lt_of_not_lt hlt hne
      · exact hk j hj

theorem mem_erase {s : IdSet} {i j : ObjectId} : j ∈ s.erase i ↔ j ∈ s ∧ j ≠ i := by
  simp [erase]

theorem ascending_erase {s : IdSet} (h : s.Ascending) (i : ObjectId) :
    (s.erase i).Ascending := h.sublist List.filter_sublist

theorem ext_of_ascending {s t : IdSet} (hs : s.Ascending) (ht : t.Ascending)
    (h : ∀ i, i ∈ s ↔ i ∈ t) : s = t := by
  induction s generalizing t with
  | nil =>
    cases t with
    | nil => rfl
    | cons j t => exact absurd ((h j).mpr List.mem_cons_self) List.not_mem_nil
  | cons i s ih =>
    cases t with
    | nil => exact absurd ((h i).mp List.mem_cons_self) List.not_mem_nil
    | cons j t =>
      obtain ⟨hi, hss⟩ := List.pairwise_cons.mp hs
      obtain ⟨hj, htt⟩ := List.pairwise_cons.mp ht
      -- Each head is the least member of both sets.
      have he : i = j := by
        rcases List.mem_cons.mp ((h i).mp List.mem_cons_self) with he | hit
        · exact he
        rcases List.mem_cons.mp ((h j).mpr List.mem_cons_self) with he | hjs
        · exact he.symm
        exact absurd (ObjectId.lt_trans (hi j hjs) (hj i hit)) (ObjectId.lt_irrefl i)
      subst he
      have hst : ∀ k, k ∈ s ↔ k ∈ t := by
        intro k
        have hk := h k
        simp only [List.mem_cons] at hk
        constructor
        · intro hks
          rcases hk.mp (.inr hks) with rfl | hkt
          · exact absurd (hi k hks) (ObjectId.lt_irrefl k)
          · exact hkt
        · intro hkt
          rcases hk.mpr (.inr hkt) with rfl | hks
          · exact absurd (hj k hkt) (ObjectId.lt_irrefl k)
          · exact hks
      exact congrArg (i :: ·) (ih hss htt hst)

end IdSet

end PagedNets
