import PagedNets.Proofs.Decimal.Bits

set_option autoImplicit false

namespace PagedNets.Decimal

variable {ds cs : List Char} {m : ℕ} {q : ℤ}

def IsPlain (c : Char) : Prop := isDigit c = true ∨ c = '.'

section Characters

theorem isPlain_positionalText (h : ∀ c ∈ ds, isDigit c = true) (e : ℤ) :
    ∀ c ∈ positionalText false ds e, IsPlain c := by
  have hzeros := all_isDigit_replicate
  intro c hc
  unfold positionalText at hc
  simp only [Bool.false_eq_true, if_false, List.append_nil] at hc
  split at hc
  · rcases List.mem_append.mp hc with hc | hc
    · exact .inl (h c hc)
    · exact .inl (hzeros _ c hc)
  · split at hc
    · rcases List.mem_append.mp hc with hc | hc
      · exact .inl (h c (List.mem_of_mem_take hc))
      · rcases List.mem_cons.mp hc with rfl | hc
        · exact .inr rfl
        · exact .inl (h c (List.mem_of_mem_drop hc))
    · simp only [List.cons_append, List.mem_cons, List.mem_append] at hc
      rcases hc with rfl | rfl | hc | hc
      · exact .inl (by decide)
      · exact .inr rfl
      · exact .inl (hzeros _ c hc)
      · exact .inl (h c hc)

theorem positionalText_eq_cons (h : ∀ c ∈ ds, isDigit c = true) (hne : ds ≠ []) (e : ℤ) :
    ∃ c rest, positionalText false ds e = c :: rest ∧ isDigit c = true := by
  obtain ⟨c, ds, rfl⟩ := List.exists_cons_of_ne_nil hne
  have hc := h c List.mem_cons_self
  unfold positionalText
  dsimp only
  split
  · exact ⟨c, _, rfl, hc⟩
  · split
    · next hw =>
      obtain ⟨n, hn⟩ : ∃ n, (((c :: ds).length : ℤ) + e).toNat = n + 1 :=
        ⟨(((c :: ds).length : ℤ) + e).toNat - 1, by omega⟩
      rw [hn]
      exact ⟨c, _, rfl, hc⟩
    · exact ⟨'0', _, rfl, by decide⟩

theorem magnitude_eq (hc : m = 0 ∧ q = -1074 ∨ Canonical m q) : ∃ ds e, plain.magnitude m q =
    positionalText false ds e ∧ ds ≠ [] ∧ ∀ c ∈ ds, isDigit c = true := by
  rcases hc with ⟨rfl, rfl⟩ | hc
  · exact ⟨['0'], 0, rfl, List.cons_ne_nil _ _, all_isDigit_replicate 1⟩
  · obtain ⟨hne, _⟩ := shortest_spec (t := .up) hc
    obtain ⟨hnil, hdigits, _⟩ := digits_dropZeros hne (shortest .up m q).2
    exact ⟨_, _, magnitude_of_ne_zero hc.pos.ne', hnil, hdigits⟩

theorem toNat_of_isDigit {c : Char} (h : isDigit c = true) : 48 ≤ c.toNat ∧ c.toNat ≤ 57 := by
  simp only [isDigit, Bool.and_eq_true, decide_eq_true_eq, Char.le_def, UInt32.le_iff_toNat_le,
    Char.reduceVal, UInt32.reduceToNat] at h
  exact h

theorem toLower_of_isDigit {c : Char} (h : isDigit c = true) : c.toLower = c := by
  have hupper : ¬ ('A' ≤ c ∧ c ≤ 'Z') := by
    simp only [isDigit, Bool.and_eq_true, decide_eq_true_eq] at h
    intro hc
    exact absurd (hc.1.trans h.2) (by decide)
  simp only [Char.toLower]
  exact dif_neg hupper

end Characters

theorem special?_of_isDigit {c : Char} (h : isDigit c = true) : special? (c :: cs) = none := by
  have hname : ∀ name : String, (∀ x ∈ name.toList.head?, isDigit x = false) →
      String.ofList ((c :: cs).map Char.toLower) ≠ name := by
    intro name hx he
    have hlist : (c :: cs).map Char.toLower = name.toList := by
      rw [← he, String.toList_ofList]
    rw [← hlist, List.map_cons, toLower_of_isDigit h] at hx
    have := hx c rfl
    rw [h] at this
    cases this
  have hinf := hname "inf" (by simp; decide)
  have hinfinity := hname "infinity" (by simp; decide)
  have hnan := hname "nan" (by simp; decide)
  simp only [special?, hinf, hinfinity, hnan, decide_false, Bool.or_self, Bool.false_eq_true,
    if_false]

theorem takeSign_of_isDigit {c : Char} (h : isDigit c = true) :
    takeSign (c :: cs) = (false, c :: cs) := by
  unfold takeSign
  split
  · next heq =>
    rw [(List.cons.inj heq).1] at h
    cases h
  · next heq =>
    rw [(List.cons.inj heq).1] at h
    cases h
  · rfl

theorem unsigned?_magnitude_of_zero (q : ℤ) :
    unsigned? (plain.magnitude 0 q) = some (ofBits 0) := by
  have htext : plain.magnitude 0 q = List.replicate 1 '0' := rfl
  have hzero : (0 : Float) = ofBits 0 := by decide
  rw [htext, unsigned?_whole (all_isDigit_replicate 1) (List.cons_ne_nil _ _),
    value_replicate_zero, ofScientific]
  simp [hzero]

/-- A finite double is read back from its text. -/
theorem float?_text {x : Float} (h : x.isFinite = true) : float? (plain.text x) = some x := by
  obtain ⟨negative, m, q, hdecode, hc, hx⟩ := exists_decode h
  obtain ⟨ds, e, htext, hne, hdigits⟩ := magnitude_eq hc
  obtain ⟨c, rest, hcons, hdigit⟩ := positionalText_eq_cons hdigits hne e
  have hread : unsigned? (plain.magnitude m q) =
      some (ofBits (m + (q + 1074).toNat * hiddenBit)) := by
    rcases hc with ⟨rfl, rfl⟩ | hc
    · exact unsigned?_magnitude_of_zero _
    · exact unsigned?_magnitude hc
  rw [htext, hcons] at hread
  have hplain : plain.text x = String.ofList ((if negative then ['-'] else []) ++ c :: rest) := by
    simp only [Style.text, hdecode, htext, hcons]
  rw [float?, hplain, String.toList_ofList]
  cases negative with
  | true =>
    have hsign : takeSign (['-'] ++ c :: rest) = (true, c :: rest) := rfl
    rw [if_pos rfl] at hx ⊢
    simp only [hsign, special?_of_isDigit hdigit, hread, Option.none_or, Option.map_some, if_true]
    rw [← hx]
  | false =>
    rw [if_neg Bool.false_ne_true] at hx ⊢
    rw [List.nil_append]
    simp only [takeSign_of_isDigit hdigit, special?_of_isDigit hdigit, hread, Option.none_or,
      Option.map_some, Bool.false_eq_true, if_false]
    rw [← hx]

theorem mem_toList_text {x : Float} (h : x.isFinite = true) {c : Char}
    (hc : c ∈ (plain.text x).toList) : c = '-' ∨ IsPlain c := by
  obtain ⟨negative, m, q, hdecode, hm, _⟩ := exists_decode h
  obtain ⟨ds, e, htext, _, hdigits⟩ := magnitude_eq hm
  simp only [Style.text, hdecode, htext, String.toList_ofList] at hc
  rcases List.mem_append.mp hc with hc | hc
  · cases negative with
    | true => exact .inl (List.mem_singleton.mp hc)
    | false => cases hc
  · exact .inr (isPlain_positionalText hdigits e c hc)

theorem isDigit_of_mem_natText {n : ℕ} {c : Char} (h : c ∈ (natText n).toList) :
    isDigit c = true := by
  rw [natText, String.toList_ofList] at h
  exact isDigit_of_mem_digits h

theorem count?_natText (n : UInt64) : count? (natText n.toNat) = some n := by
  have hplus : ∀ cs, digits n.toNat ≠ '+' :: cs := by
    intro cs he
    have hplus : '+' ∈ digits n.toNat := by
      rw [he]
      exact List.mem_cons_self
    exact absurd (isDigit_of_mem_digits hplus) (by decide)
  have hall : (digits n.toNat).all isDigit = true :=
    List.all_eq_true.mpr fun c hc => isDigit_of_mem_digits hc
  have hlimit : n.toNat < countLimit := n.toNat_lt
  unfold count?
  rw [natText, String.toList_ofList]
  extract_lets ds
  have hds : ds = digits n.toNat := by
    unfold ds
    split
    · next heq => exact absurd heq (hplus _)
    · rfl
  simp [hds, digits_ne_nil, hall, value_digits, hlimit]

end PagedNets.Decimal
