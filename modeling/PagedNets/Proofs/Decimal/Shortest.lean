import PagedNets.Proofs.Decimal.Nearest

/-!
The search for the shortest digits ends within seventeen: with as many, the decimal grid is finer
than the interval of the double is wide.
-/

set_option autoImplicit false

namespace PagedNets.Decimal

variable {m num den n : ℕ} {q e : ℤ} {t : Tie}

theorem ten_zpow_pos (e : ℤ) : (0 : ℚ) < 10 ^ e := by positivity

section Digits

theorem length_digits_pos (n : ℕ) : 0 < (digits n).length := by
  rw [digits]
  split <;> simp

theorem pow_length_digits_le (hn : 0 < n) : 10 ^ ((digits n).length - 1) ≤ n := by
  induction n using Nat.strongRecOn with
  | ind n ih =>
    rw [digits]
    split
    · exact Nat.one_le_iff_ne_zero.mpr hn.ne'
    · next hten =>
      have hpos := length_digits_pos (n / 10)
      have hle := ih (n / 10) (by omega) (by omega)
      rw [List.length_append, List.length_singleton, Nat.add_sub_cancel]
      obtain ⟨k, hk⟩ : ∃ k, (digits (n / 10)).length = k + 1 := ⟨_, (Nat.sub_add_cancel hpos).symm⟩
      rw [hk, Nat.add_sub_cancel] at hle
      rw [hk, pow_succ]
      omega

theorem lt_pow_length_digits (n : ℕ) : n < 10 ^ (digits n).length := by
  induction n using Nat.strongRecOn with
  | ind n ih =>
    rw [digits]
    split
    · simpa
    · have hlt := ih (n / 10) (by omega)
      rw [List.length_append, List.length_singleton, pow_succ]
      omega

end Digits

section Interval

theorem den_around_pos (m : ℕ) (q : ℤ) : 0 < (Interval.around m q).den :=
  Nat.mul_pos (by norm_num) (Nat.pow_pos (by norm_num))

theorem quarters_div (k : ℕ) (q : ℤ) : ((k * Nat.pow 2 q.toNat : ℕ) : ℚ) /
    (4 * Nat.pow 2 (-q).toNat : ℕ) = k / 4 * 2 ^ q := by
  rw [← zpow_toNat_div (by norm_num : (2 : ℚ) ≠ 0) q, Nat.cast_mul, Nat.cast_mul, cast_natPow,
    cast_natPow, mul_div_mul_comm]
  norm_num

theorem around_low (hm : 0 < m) (q : ℤ) : ((Interval.around m q).low : ℚ) /
    (Interval.around m q).den = (m - gapBelow m q) * 2 ^ q := by
  unfold Interval.around gapBelow
  dsimp only
  rw [quarters_div, Nat.cast_sub (by split <;> omega)]
  congr 1
  split <;> push_cast <;> ring

theorem around_mid (m : ℕ) (q : ℤ) : ((Interval.around m q).mid : ℚ) /
    (Interval.around m q).den = m * 2 ^ q := by
  unfold Interval.around
  dsimp only
  rw [quarters_div]
  push_cast
  ring

theorem around_high (m : ℕ) (q : ℤ) : ((Interval.around m q).high : ℚ) /
    (Interval.around m q).den = (m + 1 / 2) * 2 ^ q := by
  unfold Interval.around
  dsimp only
  rw [quarters_div]
  push_cast
  ring

theorem holds_iff (hm : 0 < m) (hd : 0 < den) :
    (Interval.around m q).holds n num den = true ↔ Near m q (n * (num / den)) := by
  have hden : (0 : ℚ) < den := by exact_mod_cast hd
  have hiden : (0 : ℚ) < (Interval.around m q).den := by exact_mod_cast den_around_pos m q
  have hvalue : (n : ℚ) * (num / den) = (n * num : ℕ) / (den : ℚ) := by
    push_cast
    ring
  unfold Near Interval.holds
  rw [← around_low hm q, ← around_high m q, hvalue, div_le_div_iff₀ hiden hden,
    div_le_div_iff₀ hden hiden, div_lt_div_iff₀ hiden hden, div_lt_div_iff₀ hden hiden]
  have hclosed : (Interval.around m q).closed = (m % 2 == 0) := rfl
  rw [hclosed]
  by_cases heven : m % 2 = 0
  · simp only [heven, beq_self_eq_true, if_true, Bool.and_eq_true, decide_eq_true_eq]
    norm_cast
  · have hodd : (m % 2 == 0) = false := by simpa using heven
    simp only [heven, hodd, if_false, Bool.false_eq_true, Bool.and_eq_true, decide_eq_true_eq]
    norm_cast

end Interval

section Pick

variable {i : Interval} {d : ℕ}

theorem pick?_eq_some (h : i.pick? t num den = some d) :
    i.holds d num den = true ∧ d ≠ 0 := by
  simp only [Interval.pick?] at h
  generalize hb : i.mid * den / (num * i.den) = below at h
  split at h
  · cases h
  · next hlow _ =>
    cases h
    simpa using hlow
  · next hhigh =>
    cases h
    exact ⟨hhigh, Nat.succ_ne_zero _⟩
  · next hlow hhigh =>
    have hlow : i.holds below num den = true ∧ below ≠ 0 := by simpa using hlow
    have hhigh : i.holds (below + 1) num den = true ∧ below + 1 ≠ 0 :=
      ⟨hhigh, Nat.succ_ne_zero _⟩
    split at h
    · cases h
      exact hlow
    · split at h
      · cases h
        exact hhigh
      · split at h
        · cases h
          exact hhigh
        · split at h
          · cases h
            exact hlow
          · cases h
            exact hhigh

theorem exists_pick? (h : (i.holds (i.mid * den / (num * i.den)) num den = true ∧
      i.mid * den / (num * i.den) ≠ 0) ∨
    i.holds (i.mid * den / (num * i.den) + 1) num den = true) :
    ∃ d, i.pick? t num den = some d := by
  simp only [Interval.pick?]
  generalize i.mid * den / (num * i.den) = below at h ⊢
  split
  · next hlow hhigh =>
    rcases h with ⟨h, hne⟩ | h
    · simp [h, hne] at hlow
    · rw [h] at hhigh
      cases hhigh
  · exact ⟨_, rfl⟩
  · exact ⟨_, rfl⟩
  · split
    · exact ⟨_, rfl⟩
    · split
      · exact ⟨_, rfl⟩
      · split <;> exact ⟨_, rfl⟩

theorem search_spec {left : ℕ} (h : ∃ j < left, ∃ d, i.pick? t (Nat.pow 10 (e - j).toNat)
      (Nat.pow 10 (-(e - j)).toNat) = some d) :
    ∃ d f, i.search t e left = (d, f) ∧
      i.pick? t (Nat.pow 10 f.toNat) (Nat.pow 10 (-f).toNat) = some d := by
  induction left generalizing e with
  | zero =>
    obtain ⟨j, hj, _⟩ := h
    omega
  | succ left ih =>
    rw [Interval.search]
    split
    · next d hd => exact ⟨d, e, rfl, hd⟩
    · next hnone =>
      obtain ⟨j, hj, d, hd⟩ := h
      cases j with
      | zero =>
        rw [Nat.cast_zero, sub_zero, hnone] at hd
        cases hd
      | succ j =>
        refine ih ⟨j, by omega, d, ?_⟩
        have hexponent : e - (j + 1 : ℕ) = e - 1 - j := by
          push_cast
          ring
        rwa [hexponent] at hd

end Pick

section Lead

theorem leadingZeros_spec {bound : ℕ} (h : den ≤ num * 10 ^ bound) :
    den ≤ num * 10 ^ leadingZeros num den bound := by
  induction bound generalizing num with
  | zero => exact h
  | succ bound ih =>
    rw [leadingZeros]
    split
    · next hle => simpa using hle
    · rw [pow_succ, mul_comm _ 10, ← mul_assoc, mul_comm num 10]
      refine ih ?_
      rw [pow_succ] at h
      linarith

theorem ten_zpow_leadingExponent_le (hd : 0 < den) (h : den ≤ num * 10 ^ 400) :
    (10 : ℚ) ^ leadingExponent num den ≤ num / den := by
  have hden : (0 : ℚ) < den := by exact_mod_cast hd
  unfold leadingExponent
  split
  · next hle =>
    have hpos : 0 < num / den := Nat.div_pos hle hd
    have hdigits := pow_length_digits_le hpos
    have hlength := length_digits_pos (num / den)
    have hexponent : ((digits (num / den)).length : ℤ) - 1 =
        (((digits (num / den)).length - 1 : ℕ) : ℤ) := by omega
    rw [hexponent, zpow_natCast]
    calc (10 : ℚ) ^ ((digits (num / den)).length - 1) ≤ (num / den : ℕ) := by
          exact_mod_cast hdigits
      _ ≤ num / den := Nat.cast_div_le
  · rw [zpow_neg, zpow_natCast, inv_le_iff_one_le_mul₀ (by positivity), div_mul_eq_mul_div,
      one_le_div hden]
    exact_mod_cast leadingZeros_spec h

theorem two_pow_le_ten_pow (n : ℕ) : 2 ^ (3 * n) ≤ 10 ^ n := by
  rw [pow_mul]
  exact Nat.pow_le_pow_left (by norm_num) n

theorem den_around_le (hc : Canonical m q) {bound : ℕ} (hb : (-q).toNat ≤ 3 * bound) :
    (Interval.around m q).den ≤ (Interval.around m q).mid * 10 ^ bound := by
  have hmid : 4 ≤ (Interval.around m q).mid := by
    have hm := hc.pos
    have hup : 0 < Nat.pow 2 q.toNat := Nat.pow_pos (by norm_num)
    exact Nat.le_trans (by omega) (Nat.le_mul_of_pos_right (4 * m) hup)
  calc (Interval.around m q).den = 4 * 2 ^ (-q).toNat := rfl
    _ ≤ 4 * 2 ^ (3 * bound) := Nat.mul_le_mul_left 4 (Nat.pow_le_pow_right (by norm_num) hb)
    _ ≤ 4 * 10 ^ bound := Nat.mul_le_mul_left 4 (two_pow_le_ten_pow bound)
    _ ≤ (Interval.around m q).mid * 10 ^ bound := Nat.mul_le_mul_right _ hmid

theorem ten_zpow_lead_le (hc : Canonical m q) :
    (10 : ℚ) ^ leadingExponent (Interval.around m q).mid (Interval.around m q).den ≤
      m * 2 ^ q := by
  have hleast := hc.least
  rw [← around_mid m q]
  exact ten_zpow_leadingExponent_le (den_around_pos m q) (den_around_le hc (by omega))

end Lead

/-- A grid of steps that small has a point in the interval, right below the middle or above it. -/
theorem near_of_grid (hc : Canonical m q) {g : ℚ} (hg : g * 10 ^ 16 ≤ m * 2 ^ q) {k : ℕ}
    (hlow : k * g ≤ m * 2 ^ q) (hhigh : m * 2 ^ q < (k + 1) * g) :
    Near m q (k * g) ∨ Near m q ((k + 1) * g) := by
  have hpos := two_zpow_pos q
  have hwidth : g < (gapBelow m q + 1 / 2) * 2 ^ q := by
    have hfine : g * 10 ^ 16 < (gapBelow m q + 1 / 2) * 10 ^ 16 * 2 ^ q := by
      refine hg.trans_lt (mul_lt_mul_of_pos_right ?_ hpos)
      unfold gapBelow
      split
      · next h =>
        rw [h.1]
        norm_num [hiddenBit]
      · have hlt : (m : ℚ) < 2 * hiddenBit := by exact_mod_cast hc.lt
        have hbound : (2 : ℚ) * hiddenBit ≤ (1 / 2 + 1 / 2) * 10 ^ 16 := by norm_num [hiddenBit]
        linarith
    nlinarith
  have hnear : ∀ {x : ℚ}, (m - gapBelow m q) * 2 ^ q < x → x < (m + 1 / 2) * 2 ^ q →
      Near m q x := by
    intro x hx hxm
    unfold Near
    split
    · exact ⟨hx.le, hxm.le⟩
    · exact ⟨hx, hxm⟩
  have hgap : 0 < gapBelow m q := by
    unfold gapBelow
    split <;> norm_num
  by_cases h : (m - gapBelow m q) * 2 ^ q < k * g
  · refine .inl (hnear h ?_)
    nlinarith
  · refine .inr (hnear ?_ ?_)
    · nlinarith
    · nlinarith

theorem exists_pick?_of_fine (hc : Canonical m q) (he : (10 : ℚ) ^ (e + 16) ≤ m * 2 ^ q) :
    ∃ d, (Interval.around m q).pick? t (Nat.pow 10 e.toNat) (Nat.pow 10 (-e).toNat) = some d := by
  set num := Nat.pow 10 e.toNat with hnum
  set den := Nat.pow 10 (-e).toNat with hden
  have hd : 0 < den := Nat.pow_pos (by norm_num)
  have hn : 0 < num := Nat.pow_pos (by norm_num)
  have hg : (num : ℚ) / den = 10 ^ e := by
    rw [hnum, hden, cast_natPow, cast_natPow, Nat.cast_ofNat]
    exact zpow_toNat_div (by norm_num) e
  have hfine : (10 : ℚ) ^ e * 10 ^ 16 ≤ m * 2 ^ q := by
    rw [zpow_add₀ (by norm_num : (10 : ℚ) ≠ 0)] at he
    exact_mod_cast he
  set i := Interval.around m q with hi
  set k := i.mid * den / (num * i.den) with hk
  have hiden : 0 < i.den := den_around_pos m q
  have hstep : (0 : ℚ) < num * i.den := by exact_mod_cast Nat.mul_pos hn hiden
  have hdq : (0 : ℚ) < den := by exact_mod_cast hd
  have hidq : (0 : ℚ) < i.den := by exact_mod_cast hiden
  have hmid : (i.mid : ℚ) / i.den = m * 2 ^ q := around_mid m q
  have hlow : (k : ℚ) * 10 ^ e ≤ m * 2 ^ q := by
    have hle : k * (num * i.den) ≤ i.mid * den := Nat.div_mul_le_self _ _
    have hle : (k : ℚ) * (num * i.den) ≤ i.mid * den := by exact_mod_cast hle
    rw [← hg, ← hmid, ← mul_div_assoc, div_le_div_iff₀ hdq hidq]
    linarith
  have hhigh : (m : ℚ) * 2 ^ q < (k + 1) * 10 ^ e := by
    have hlt : i.mid * den < (k + 1) * (num * i.den) := by
      rw [← Nat.div_lt_iff_lt_mul (Nat.mul_pos hn hiden)]
      exact Nat.lt_succ_self _
    have hlt : (i.mid : ℚ) * den < (k + 1) * (num * i.den) := by exact_mod_cast hlt
    rw [← hg, ← hmid, ← mul_div_assoc, div_lt_div_iff₀ hidq hdq]
    linarith
  have hne : k ≠ 0 := by
    intro hzero
    have hpos := ten_zpow_pos e
    rw [hzero, Nat.cast_zero, zero_add, one_mul] at hhigh
    linarith
  refine exists_pick? ?_
  rw [← hk, hi, holds_iff hc.pos hd, holds_iff hc.pos hd, hg]
  rcases near_of_grid hc hfine hlow hhigh with h | h
  · exact .inl ⟨h, hne⟩
  · right
    push_cast
    exact h

/-- The shortest digits read as a number in the interval of the double. -/
theorem shortest_spec (hc : Canonical m q) :
    (shortest t m q).1 ≠ 0 ∧
      Near m q ((shortest t m q).1 * 10 ^ (shortest t m q).2) := by
  set lead := leadingExponent (Interval.around m q).mid (Interval.around m q).den with hlead
  have hfine : (10 : ℚ) ^ (lead - ((16 : ℕ) : ℤ) + 16) ≤ m * 2 ^ q := by
    rw [Nat.cast_ofNat, sub_add_cancel]
    exact ten_zpow_lead_le hc
  have hgrid : ∃ j : ℕ, j < 17 ∧ ∃ d, (Interval.around m q).pick? t (Nat.pow 10 (lead - j).toNat)
      (Nat.pow 10 (-(lead - j)).toNat) = some d :=
    ⟨16, by norm_num, exists_pick?_of_fine hc hfine⟩
  obtain ⟨d, f, hsearch, hpick⟩ := search_spec hgrid
  have hresult : shortest t m q = (d, f) := hsearch
  obtain ⟨hholds, hne⟩ := pick?_eq_some hpick
  have hden : 0 < Nat.pow 10 (-f).toNat := Nat.pow_pos (by norm_num)
  rw [holds_iff hc.pos hden, cast_natPow, cast_natPow, Nat.cast_ofNat,
    zpow_toNat_div (by norm_num)] at hholds
  rw [hresult]
  exact ⟨hne, hholds⟩

end PagedNets.Decimal
