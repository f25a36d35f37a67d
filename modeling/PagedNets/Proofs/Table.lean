import Mathlib.Data.List.Nodup
import PagedNets.Table

set_option autoImplicit false

namespace PagedNets.Table

variable {κ α β : Type} [DecidableEq κ]

@[simp] theorem find?_empty (k : κ) : (empty : Table κ α).find? k = none := rfl

theorem find?_cons (e : κ × α) (es : List (κ × α)) (k : κ) :
    (⟨e :: es⟩ : Table κ α).find? k =
      if e.1 = k then some e.2 else (⟨es⟩ : Table κ α).find? k := by
  by_cases h : e.1 = k <;> simp [find?, h]

theorem find?_append (es fs : List (κ × α)) (k : κ) :
    (⟨es ++ fs⟩ : Table κ α).find? k =
      ((⟨es⟩ : Table κ α).find? k).or ((⟨fs⟩ : Table κ α).find? k) := by
  simp only [find?, List.find?_append]
  cases List.find? (fun e => decide (e.1 = k)) es <;> rfl

theorem find?_modify (t : Table κ α) (k j : κ) (f : α → α) :
    (t.modify k f).find? j = if j = k then (t.find? j).map f else t.find? j := by
  obtain ⟨es⟩ := t
  induction es with
  | nil => simp [modify, find?]
  | cons e es ih =>
    have hc : (⟨e :: es⟩ : Table κ α).modify k f =
        ⟨(if e.1 = k then (e.1, f e.2) else e) :: ((⟨es⟩ : Table κ α).modify k f).entries⟩ := rfl
    rw [hc, find?_cons, find?_cons, ih]
    by_cases hk : e.1 = k <;> by_cases hj : j = k <;> by_cases he : e.1 = j <;> grind

theorem contains_eq_false (t : Table κ α) (k : κ) : t.contains k = false ↔ t.find? k = none := by
  rw [← find?_isSome, Option.isSome_eq_false_iff, Option.isNone_iff_eq_none]

theorem contains_iff_exists (t : Table κ α) (k : κ) :
    t.contains k = true ↔ ∃ a, t.find? k = some a := by
  rw [← find?_isSome, Option.isSome_iff_exists]

theorem find?_insert (t : Table κ α) (k j : κ) (a : α) :
    (t.insert k a).find? j = if j = k then some a else t.find? j := by
  unfold insert
  split
  · next h =>
    obtain ⟨b, hb⟩ := (contains_iff_exists t k).mp h
    rw [find?_modify]
    by_cases hj : j = k
    · subst hj; simp [hb]
    · simp [hj]
  · next h =>
    rw [Bool.not_eq_true, contains_eq_false] at h
    rw [find?_append, find?_cons]
    by_cases hj : j = k
    · subst hj; simp [h]
    · have hk : k ≠ j := fun e => hj e.symm
      simp [hj, hk, find?]

theorem find?_erase (t : Table κ α) (k j : κ) :
    (t.erase k).find? j = if j = k then none else t.find? j := by
  obtain ⟨es⟩ := t
  induction es with
  | nil => simp [erase, find?]
  | cons e es ih =>
    have hc : (⟨e :: es⟩ : Table κ α).erase k =
        ⟨(if e.1 = k then [] else [e]) ++ ((⟨es⟩ : Table κ α).erase k).entries⟩ := by
      by_cases hk : e.1 = k <;> simp [erase, hk]
    rw [hc, find?_append, ih, find?_cons]
    by_cases hk : e.1 = k <;> by_cases hj : j = k <;> by_cases he : e.1 = j <;>
      simp_all [find?, List.find?]

theorem mem_entries_of_find? {t : Table κ α} {k : κ} {a : α} (h : t.find? k = some a) :
    (k, a) ∈ t.entries := by
  obtain ⟨e, he, rfl⟩ := Option.map_eq_some_iff.mp h
  have hk : e.1 = k := by simpa using List.find?_some he
  have hm := List.mem_of_find?_eq_some he
  rwa [← hk]

theorem find?_of_mem_entries {t : Table κ α} (hn : t.keys.Nodup) {k : κ} {a : α}
    (h : (k, a) ∈ t.entries) : t.find? k = some a := by
  obtain ⟨es⟩ := t
  induction es with
  | nil => simp at h
  | cons e es ih =>
    obtain ⟨hnot, hn⟩ := List.nodup_cons.mp hn
    rw [find?_cons]
    rcases List.mem_cons.mp h with rfl | h
    · simp
    · have hk : e.1 ≠ k := fun he => hnot (List.mem_map.mpr ⟨(k, a), h, he.symm⟩)
      rw [if_neg hk]
      exact ih hn h

theorem find?_eq_some_iff {t : Table κ α} (hn : t.keys.Nodup) {k : κ} {a : α} :
    t.find? k = some a ↔ (k, a) ∈ t.entries :=
  ⟨mem_entries_of_find?, find?_of_mem_entries hn⟩

/-- With distinct keys the entries are what is found under the keys, in their order. -/
theorem entries_eq_filterMap {t : Table κ α} (hn : t.keys.Nodup) :
    t.entries = t.keys.filterMap fun k => (t.find? k).map (k, ·) := by
  rw [keys, List.filterMap_map]
  have hfound : ∀ e ∈ t.entries, ((t.find? e.1).map (e.1, ·)) = some e := by
    intro e he
    rw [find?_of_mem_entries hn he]
    rfl
  exact ((List.filterMap_congr hfound).trans List.filterMap_some).symm

theorem mem_keys_iff {t : Table κ α} {k : κ} : k ∈ t.keys ↔ ∃ a, t.find? k = some a := by
  rw [← contains_iff_mem_keys, contains_iff_exists]

theorem insert_of_contains_eq_false {t : Table κ α} {k : κ} (h : t.contains k = false) (a : α) :
    t.insert k a = ⟨t.entries ++ [(k, a)]⟩ := by
  simp [insert, h]

omit [DecidableEq κ] in
theorem sublist_of_pairs (f : κ → Option α) (keys : List κ) :
    ((keys.filterMap fun k => (f k).map (k, ·)).map (·.1)).Sublist keys := by
  have hkept : (fun k => ((f k).map (k, ·)).map (·.1)) = Option.guard fun k => (f k).isSome := by
    funext k
    cases hf : f k <;> simp [Option.guard, hf]
  rw [List.map_filterMap, hkept, List.filterMap_eq_filter]
  exact List.filter_sublist

end PagedNets.Table
