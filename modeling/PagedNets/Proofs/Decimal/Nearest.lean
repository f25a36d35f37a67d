import Mathlib
import PagedNets.Decimal.Nearest

set_option autoImplicit false

namespace PagedNets.Decimal

/-- `m · 2 ^ q` as the doubles have it: 53 binary digits, or fewer at the least exponent. -/
structure Canonical (m : ℕ) (q : ℤ) : Prop where
  pos : 0 < m
  lt : m < 2 * hiddenBit
  least : -1074 ≤ q
  greatest : q ≤ 971
  full : hiddenBit ≤ m ∨ q = -1074

/-- How far below `m · 2 ^ q` its interval begins, in units of `2 ^ q`. -/
def gapBelow (m : ℕ) (q : ℤ) : ℚ := if m = hiddenBit ∧ -1074 < q then 1 / 4 else 1 / 2

def Near (m : ℕ) (q : ℤ) (x : ℚ) : Prop :=
  if m % 2 = 0 then (m - gapBelow m q) * 2 ^ q ≤ x ∧ x ≤ (m + 1 / 2) * 2 ^ q
  else (m - gapBelow m q) * 2 ^ q < x ∧ x < (m + 1 / 2) * 2 ^ q

variable {m num den : ℕ} {q : ℤ} {x : ℚ}

theorem two_zpow_pos (q : ℤ) : (0 : ℚ) < 2 ^ q := by positivity

theorem two_zpow_lt_iff {a b : ℤ} : (2 : ℚ) ^ a < 2 ^ b ↔ a < b :=
  zpow_lt_zpow_iff_right₀ (by norm_num)

theorem hiddenBit_eq : (hiddenBit : ℚ) = 2 ^ (52 : ℤ) := by norm_num [hiddenBit]

theorem gapBelow_le (m : ℕ) (q : ℤ) : gapBelow m q ≤ 1 / 2 := by
  unfold gapBelow
  split <;> norm_num

theorem Near.low (h : Near m q x) : (m - gapBelow m q) * 2 ^ q ≤ x := by
  unfold Near at h
  split at h
  · exact h.1
  · exact h.1.le

theorem Near.high (h : Near m q x) : x ≤ (m + 1 / 2) * 2 ^ q := by
  unfold Near at h
  split at h
  · exact h.2
  · exact h.2.le

theorem Near.pos (hm : 0 < m) (h : Near m q x) : 0 < x := by
  have hone : (1 : ℚ) ≤ m := by exact_mod_cast hm
  have hgap := gapBelow_le m q
  have hlow : 0 < ((m : ℚ) - gapBelow m q) * 2 ^ q := mul_pos (by linarith) (two_zpow_pos q)
  exact hlow.trans_le h.low

section Scale

theorem cast_natPow (b n : ℕ) : ((Nat.pow b n : ℕ) : ℚ) = (b : ℚ) ^ (n : ℤ) := by
  rw [zpow_natCast]
  exact_mod_cast rfl

theorem zpow_toNat_div {b : ℚ} (hb : b ≠ 0) (k : ℤ) :
    b ^ (k.toNat : ℤ) / b ^ ((-k).toNat : ℤ) = b ^ k := by
  rw [← zpow_sub₀ hb]
  congr 1
  omega

theorem scaleByTwo_eq (num den : ℕ) (k : ℤ) :
    ((scaleByTwo num den k).1 : ℚ) / (scaleByTwo num den k).2 = num / den * 2 ^ k := by
  rw [← zpow_toNat_div (by norm_num : (2 : ℚ) ≠ 0) k]
  simp only [scaleByTwo, Nat.cast_mul, cast_natPow, Nat.cast_ofNat]
  rw [mul_div_mul_comm]

theorem scaleByTwo_pos (hd : 0 < den) (num : ℕ) (k : ℤ) : 0 < (scaleByTwo num den k).2 :=
  Nat.mul_pos hd (Nat.pow_pos (by norm_num))

theorem two_zpow_log2_le (hn : 0 < num) : (2 : ℚ) ^ (num.log2 : ℤ) ≤ num := by
  rw [zpow_natCast]
  exact_mod_cast Nat.log2_self_le hn.ne'

theorem lt_two_zpow_log2 (num : ℕ) : (num : ℚ) < 2 ^ ((num.log2 : ℤ) + 1) := by
  rw [← Nat.cast_succ, zpow_natCast]
  exact_mod_cast Nat.lt_log2_self

theorem binaryExponent_spec (hn : 0 < num) (hd : 0 < den) :
    (2 : ℚ) ^ binaryExponent num den ≤ num / den ∧
      (num : ℚ) / den < 2 ^ (binaryExponent num den + 1) := by
  have hden : (0 : ℚ) < den := by exact_mod_cast hd
  have htwo : (2 : ℚ) ≠ 0 := by norm_num
  set k : ℤ := (num.log2 : ℤ) - den.log2 with hk
  have hbelow : (2 : ℚ) ^ (k - 1) ≤ num / den := by
    rw [le_div_iff₀ hden]
    calc (2 : ℚ) ^ (k - 1) * den ≤ 2 ^ (k - 1) * 2 ^ ((den.log2 : ℤ) + 1) :=
          mul_le_mul_of_nonneg_left (lt_two_zpow_log2 den).le (two_zpow_pos _).le
      _ = 2 ^ (num.log2 : ℤ) := by
          rw [← zpow_add₀ htwo]
          congr 1
          omega
      _ ≤ num := two_zpow_log2_le hn
  have habove : (num : ℚ) / den < 2 ^ (k + 1) := by
    rw [div_lt_iff₀ hden]
    calc (num : ℚ) < 2 ^ ((num.log2 : ℤ) + 1) := lt_two_zpow_log2 num
      _ = 2 ^ (k + 1) * 2 ^ (den.log2 : ℤ) := by
          rw [← zpow_add₀ htwo]
          congr 1
          omega
      _ ≤ 2 ^ (k + 1) * den :=
          mul_le_mul_of_nonneg_left (two_zpow_log2_le hd) (two_zpow_pos _).le
  -- The test decides between the two candidates.
  have htest : (scaleByTwo num den (-k)).2 ≤ (scaleByTwo num den (-k)).1 ↔
      (2 : ℚ) ^ k ≤ num / den := by
    have hpos : (0 : ℚ) < (scaleByTwo num den (-k)).2 := by
      exact_mod_cast scaleByTwo_pos hd num (-k)
    rw [← Nat.cast_le (α := ℚ), ← one_le_div hpos, scaleByTwo_eq, zpow_neg, ← div_eq_mul_inv,
      one_le_div (two_zpow_pos k)]
  have hdef : binaryExponent num den = if (scaleByTwo num den (-k)).2 ≤
      (scaleByTwo num den (-k)).1 then k else k - 1 := rfl
  rw [hdef]
  split
  · next h => exact ⟨htest.mp h, habove⟩
  · next h =>
    have hlt := lt_of_not_ge fun hle => h (htest.mpr hle)
    exact ⟨hbelow, by simpa using hlt⟩

end Scale

/-- What lies at most half way from a whole number, and there only if that is even, is rounded to
it. -/
theorem roundHalfEven_eq (hd : 0 < den) (hlow : 2 * (m * den) ≤ 2 * num + den)
    (hhigh : 2 * num ≤ 2 * (m * den) + den)
    (htie : 2 * (m * den) = 2 * num + den ∨ 2 * num = 2 * (m * den) + den → m % 2 = 0) :
    roundHalfEven num den = m := by
  have hsplit := Nat.div_add_mod num den
  have hlt := Nat.mod_lt num hd
  unfold roundHalfEven
  generalize num / den = n at hsplit ⊢
  generalize num % den = r at hsplit hlt ⊢
  have hle : n ≤ m := by
    by_contra hn
    have hmul := Nat.mul_le_mul_left den (show m + 1 ≤ n by omega)
    rw [Nat.mul_add, Nat.mul_one, Nat.mul_comm den m] at hmul
    omega
  have hge : m ≤ n + 1 := by
    by_contra hn
    have hmul := Nat.mul_le_mul_left den (show n + 2 ≤ m by omega)
    rw [Nat.mul_add, Nat.mul_comm den m] at hmul
    omega
  dsimp only
  rcases (by omega : m = n ∨ m = n + 1) with rfl | rfl
  · rw [Nat.mul_comm] at hsplit
    split
    · rfl
    · split
      · omega
      · have := htie (.inr (by omega))
        omega
  · rw [Nat.add_mul, Nat.one_mul, Nat.mul_comm n den] at hlow hhigh htie
    split
    · omega
    · split
      · rfl
      · have := htie (.inl (by omega))
        omega

theorem roundHalfEven_of_near (hd : 0 < den) (hlow : (m : ℚ) - 1 / 2 ≤ num / den)
    (hhigh : (num : ℚ) / den ≤ m + 1 / 2)
    (htie : (num : ℚ) / den = m - 1 / 2 ∨ (num : ℚ) / den = m + 1 / 2 → m % 2 = 0) :
    roundHalfEven num den = m := by
  have hden : (0 : ℚ) < den := by exact_mod_cast hd
  rw [le_div_iff₀ hden] at hlow
  rw [div_le_iff₀ hden] at hhigh
  rw [div_eq_iff hden.ne', div_eq_iff hden.ne'] at htie
  refine roundHalfEven_eq hd ?_ ?_ fun h => htie ?_
  · have h : 2 * ((m : ℚ) * den) ≤ 2 * num + den := by linarith
    exact_mod_cast h
  · have h : 2 * (num : ℚ) ≤ 2 * (m * den) + den := by linarith
    exact_mod_cast h
  · rcases h with h | h
    · have h : 2 * ((m : ℚ) * den) = 2 * num + den := by exact_mod_cast h
      exact .inl (by linarith)
    · have h : 2 * (num : ℚ) = 2 * (m * den) + den := by exact_mod_cast h
      exact .inr (by linarith)

theorem num_pos_of_near (hc : Canonical m q) (h : Near m q (num / den)) : 0 < num := by
  have hx := h.pos hc.pos
  by_contra hn
  rw [Nat.eq_zero_of_not_pos hn, Nat.cast_zero, zero_div] at hx
  exact lt_irrefl _ hx

theorem nearestBits_eq (hc : Canonical m q) (h : Near m q (num / den)) (s : ℤ)
    (hs : spacing num den = s) :
    nearestBits num den = min (roundHalfEven (scaleByTwo num den (-s)).1
      (scaleByTwo num den (-s)).2 + (s + 1074).toNat * hiddenBit) infinityBits := by
  rw [nearestBits, if_neg (num_pos_of_near hc h).ne', hs]

theorem binaryExponent_le (hc : Canonical m q) (hd : 0 < den) (h : Near m q (num / den)) :
    binaryExponent num den ≤ 52 + q := by
  obtain ⟨hlow, _⟩ := binaryExponent_spec (num_pos_of_near hc h) hd
  have hm : (m : ℚ) + 1 ≤ 2 * hiddenBit := by exact_mod_cast hc.lt
  have hlt : (num : ℚ) / den < 2 ^ (53 + q) := by
    calc (num : ℚ) / den ≤ (m + 1 / 2) * 2 ^ q := h.high
      _ < (2 * hiddenBit) * 2 ^ q :=
          mul_lt_mul_of_pos_right (by linarith) (two_zpow_pos q)
      _ = 2 ^ (53 + q) := by
          rw [hiddenBit_eq, zpow_add₀ (by norm_num : (2 : ℚ) ≠ 0)]
          norm_num
  have := two_zpow_lt_iff.mp (hlow.trans_lt hlt)
  omega

theorem roundHalfEven_of_canonical (hd : 0 < den) (h : Near m q (num / den)) :
    roundHalfEven (scaleByTwo num den (-q)).1 (scaleByTwo num den (-q)).2 = m := by
  have hpos := two_zpow_pos q
  have hvalue : ((scaleByTwo num den (-q)).1 : ℚ) / (scaleByTwo num den (-q)).2 =
      num / den / 2 ^ q := by
    rw [scaleByTwo_eq, zpow_neg, div_eq_mul_inv _ ((2 : ℚ) ^ q)]
  have hgap := gapBelow_le m q
  have hlow := h.low
  have hhigh := h.high
  rw [← le_div_iff₀ hpos] at hlow
  rw [← div_le_iff₀ hpos] at hhigh
  refine roundHalfEven_of_near (scaleByTwo_pos hd num _) ?_ ?_ fun htie => ?_
  · rw [hvalue]
    linarith
  · rw [hvalue]
    exact hhigh
  · by_contra hodd
    unfold Near at h
    rw [if_neg hodd, ← lt_div_iff₀ hpos, ← div_lt_iff₀ hpos] at h
    rw [hvalue] at htie
    rcases htie with htie | htie <;> linarith [h.1, h.2]

/-- Right below a power of two the doubles lie twice as close. -/
theorem roundHalfEven_below (hd : 0 < den) (h : Near m q (num / den)) (hm : m = hiddenBit)
    (hq : -1074 < q) (hx : (num : ℚ) / den < hiddenBit * 2 ^ q) :
    roundHalfEven (scaleByTwo num den (-(q - 1))).1 (scaleByTwo num den (-(q - 1))).2 =
      2 * hiddenBit := by
  have hpos := two_zpow_pos q
  have hvalue : ((scaleByTwo num den (-(q - 1))).1 : ℚ) / (scaleByTwo num den (-(q - 1))).2 =
      2 * (num / den / 2 ^ q) := by
    rw [scaleByTwo_eq, neg_sub, zpow_sub₀ (by norm_num : (2 : ℚ) ≠ 0), zpow_one]
    ring
  have hlow := h.low
  rw [← le_div_iff₀ hpos, gapBelow, if_pos ⟨hm, hq⟩, hm] at hlow
  rw [← div_lt_iff₀ hpos] at hx
  refine roundHalfEven_of_near (scaleByTwo_pos hd num _) ?_ ?_ fun _ => by decide
  · rw [hvalue]
    push_cast
    linarith
  · rw [hvalue]
    push_cast
    linarith

theorem Canonical.bits_le (hc : Canonical m q) :
    m + (q + 1074).toNat * hiddenBit ≤ infinityBits := by
  have hle : (q + 1074).toNat ≤ 2045 := by
    have := hc.greatest
    omega
  calc m + (q + 1074).toNat * hiddenBit ≤ 2 * hiddenBit + 2045 * hiddenBit :=
        Nat.add_le_add hc.lt.le (Nat.mul_le_mul_right _ hle)
    _ = infinityBits := by
        unfold infinityBits
        ring

theorem eq_hiddenBit_of_below (hc : Canonical m q) (h : Near m q (num / den)) (hq : -1074 < q)
    (hx : (num : ℚ) / den < hiddenBit * 2 ^ q) : m = hiddenBit := by
  have hpos := two_zpow_pos q
  have hfull : hiddenBit ≤ m := hc.full.resolve_right (by omega)
  have hlow := h.low
  have hgap := gapBelow_le m q
  rw [← le_div_iff₀ hpos] at hlow
  rw [← div_lt_iff₀ hpos] at hx
  have hlt : (m : ℚ) < hiddenBit + 1 := by linarith
  have hlt : m < hiddenBit + 1 := by exact_mod_cast hlt
  omega

theorem spacing_below (hc : Canonical m q) (hd : 0 < den) (h : Near m q (num / den))
    (hm : m = hiddenBit) (hq : -1074 < q) (hx : (num : ℚ) / den < hiddenBit * 2 ^ q) :
    spacing num den = q - 1 := by
  obtain ⟨hklow, hkhigh⟩ := binaryExponent_spec (num_pos_of_near hc h) hd
  have htwo : (2 : ℚ) ≠ 0 := by norm_num
  have hbelow : binaryExponent num den < 52 + q := by
    rw [hiddenBit_eq, ← zpow_add₀ htwo] at hx
    exact two_zpow_lt_iff.mp (hklow.trans_lt hx)
  have habove : 51 + q < binaryExponent num den + 1 := by
    have hlow := h.low
    rw [gapBelow, if_pos ⟨hm, hq⟩, hm] at hlow
    have hhalf : (2 : ℚ) ^ (51 + q) ≤ (hiddenBit - 1 / 4) * 2 ^ q := by
      rw [zpow_add₀ htwo]
      exact mul_le_mul_of_nonneg_right (by norm_num [hiddenBit]) (two_zpow_pos q).le
    exact two_zpow_lt_iff.mp ((hhalf.trans hlow).trans_lt hkhigh)
  unfold spacing
  omega

theorem spacing_of_canonical (hc : Canonical m q) (hd : 0 < den) (h : Near m q (num / den))
    (hx : -1074 < q → hiddenBit * (2 : ℚ) ^ q ≤ num / den) : spacing num den = q := by
  obtain ⟨_, hkhigh⟩ := binaryExponent_spec (num_pos_of_near hc h) hd
  have hkle := binaryExponent_le hc hd h
  have hleast := hc.least
  unfold spacing
  by_cases hq : q = -1074
  · omega
  · have hge := hx (by omega)
    rw [hiddenBit_eq, ← zpow_add₀ (by norm_num : (2 : ℚ) ≠ 0)] at hge
    have := two_zpow_lt_iff.mp (hge.trans_lt hkhigh)
    omega

/-- Every fraction in the interval around a double is rounded to it. -/
theorem nearestBits_of_near (hc : Canonical m q) (hd : 0 < den) (h : Near m q (num / den)) :
    nearestBits num den = m + (q + 1074).toNat * hiddenBit := by
  by_cases hx : (num : ℚ) / den < hiddenBit * 2 ^ q ∧ -1074 < q
  · obtain ⟨hx, hq⟩ := hx
    have hm := eq_hiddenBit_of_below hc h hq hx
    have hs := spacing_below hc hd h hm hq hx
    -- The rounded significand is full, so that it is carried into the exponent.
    have hsucc : (q + 1074).toNat = (q - 1 + 1074).toNat + 1 := by omega
    have hcarry : 2 * hiddenBit + (q - 1 + 1074).toNat * hiddenBit =
        m + (q + 1074).toNat * hiddenBit := by
      rw [hm, hsucc]
      ring
    rw [nearestBits_eq hc h _ hs, roundHalfEven_below hd h hm hq hx, hcarry,
      Nat.min_eq_left hc.bits_le]
  · have hs := spacing_of_canonical hc hd h fun hq => by
      by_contra hlt
      exact hx ⟨lt_of_not_ge hlt, hq⟩
    rw [nearestBits_eq hc h _ hs, roundHalfEven_of_canonical hd h, Nat.min_eq_left hc.bits_le]

end PagedNets.Decimal
