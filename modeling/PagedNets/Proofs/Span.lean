set_option autoImplicit false

namespace PagedNets

variable {α : Type} {p : α → Bool} {word rest : List α}

theorem takeWhile_append_stop (h : ∀ c ∈ word, p c = true) (hr : ∀ c ∈ rest.head?, p c = false) :
    (word ++ rest).takeWhile p = word ∧ (word ++ rest).dropWhile p = rest := by
  rw [List.takeWhile_append_of_pos h, List.dropWhile_append_of_pos h]
  cases rest with
  | nil => simp
  | cons c rest =>
    have hc := hr c rfl
    simp [hc]

theorem takeWhile_self (h : ∀ c ∈ word, p c = true) :
    word.takeWhile p = word ∧ word.dropWhile p = [] := by
  have hend : ∀ c ∈ ([] : List α).head?, p c = false := by simp
  have hwhole := takeWhile_append_stop h hend
  rwa [List.append_nil] at hwhole

end PagedNets
