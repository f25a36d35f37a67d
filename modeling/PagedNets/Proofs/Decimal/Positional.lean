import PagedNets.Decimal.Reading
import PagedNets.Decimal.Style
import PagedNets.Proofs.Decimal.Shortest
import PagedNets.Proofs.Span

set_option autoImplicit false

namespace PagedNets.Decimal

variable {ds : List Char} {e : ℤ}

section Digits

theorem isDigit_digitChar {d : ℕ} (h : d < 10) : isDigit (digitChar d) = true := by
  interval_cases d <;> decide

theorem isDigit_of_mem_digits {n : ℕ} {c : Char} (h : c ∈ digits n) : isDigit c = true := by
  induction n using Nat.strongRecOn with
  | ind n ih =>
    rw [digits] at h
    split at h
    · next hn =>
      rw [List.mem_singleton.mp h]
      exact isDigit_digitChar hn
    · rcases List.mem_append.mp h with h | h
      · exact ih (n / 10) (by omega) h
      · rw [List.mem_singleton.mp h]
        exact isDigit_digitChar (Nat.mod_lt _ (by norm_num))

theorem digits_ne_nil (n : ℕ) : digits n ≠ [] :=
  List.ne_nil_of_length_pos (length_digits_pos n)

theorem value_append (xs ys : List Char) :
    value (xs ++ ys) = value xs * 10 ^ ys.length + value ys := by
  induction ys using List.reverseRecOn with
  | nil => simp [value]
  | append_singleton ys c ih =>
    rw [← List.append_assoc, value_append_digit, ih, value_append_digit, List.length_append,
      List.length_singleton, pow_succ]
    ring

theorem value_replicate_zero (n : ℕ) : value (List.replicate n '0') = 0 := by
  induction n with
  | zero => rfl
  | succ n ih =>
    rw [List.replicate_succ', value_append_digit, ih]
    decide

theorem all_isDigit_replicate (n : ℕ) : ∀ c ∈ List.replicate n '0', isDigit c = true := by
  intro c hc
  rw [List.eq_of_mem_replicate hc]
  decide

end Digits

section Reading

theorem unsigned?_whole (h : ∀ c ∈ ds, isDigit c = true) (hne : ds ≠ []) :
    unsigned? ds = some (ofScientific (value ds) 0) := by
  obtain ⟨htake, hdrop⟩ := takeWhile_self h
  simp [unsigned?, htake, hdrop, hne, exponent?]

theorem unsigned?_point {whole fraction : List Char} (hw : ∀ c ∈ whole, isDigit c = true)
    (hf : ∀ c ∈ fraction, isDigit c = true) (hne : whole ≠ []) :
    unsigned? (whole ++ '.' :: fraction) =
      some (ofScientific (value (whole ++ fraction)) (-(fraction.length : ℤ))) := by
  have hpoint : ∀ c ∈ ('.' :: fraction).head?, isDigit c = false := by
    intro c hc
    cases hc
    decide
  obtain ⟨htake, hdrop⟩ := takeWhile_append_stop hw hpoint
  obtain ⟨htakef, hdropf⟩ := takeWhile_self hf
  simp [unsigned?, htake, hdrop, htakef, hdropf, hne, exponent?]

/-- Where the point stands in the text does not matter. -/
theorem unsigned?_positionalText (h : ∀ c ∈ ds, isDigit c = true) (hne : ds ≠ []) (e : ℤ) :
    unsigned? (positionalText false ds e) =
      some (ofScientific (value ds * 10 ^ e.toNat) (-((-e).toNat : ℤ))) := by
  unfold positionalText
  dsimp only
  split
  · next he =>
    have hdigits : ∀ c ∈ ds ++ List.replicate e.toNat '0', isDigit c = true := by
      intro c hc
      exact (List.mem_append.mp hc).elim (h c) (all_isDigit_replicate _ c)
    have hzero : (-e).toNat = 0 := by omega
    simp only [Bool.false_eq_true, if_false, List.append_nil]
    rw [unsigned?_whole hdigits (List.append_ne_nil_of_left_ne_nil hne _), value_append,
      value_replicate_zero, List.length_replicate, Nat.add_zero, hzero]
    rfl
  · next he =>
    have hzero : e.toNat = 0 := by omega
    rw [hzero, pow_zero, Nat.mul_one]
    split
    · next hw =>
      rw [unsigned?_point (fun c hc => h c (List.mem_of_mem_take hc))
        (fun c hc => h c (List.mem_of_mem_drop hc)) ?_, List.take_append_drop, List.length_drop]
      · congr 3
        omega
      · rw [← List.length_pos_iff, List.length_take]
        omega
    · next hw =>
      have hdigits : ∀ c ∈ List.replicate (-((ds.length : ℤ) + e)).toNat '0' ++ ds,
          isDigit c = true := by
        intro c hc
        exact (List.mem_append.mp hc).elim (all_isDigit_replicate _ c) (h c)
      have hvalue : value (List.replicate 1 '0' ++
          (List.replicate (-((ds.length : ℤ) + e)).toNat '0' ++ ds)) = value ds := by
        rw [value_append, value_append, value_replicate_zero, value_replicate_zero]
        simp
      have hlength : (List.replicate (-((ds.length : ℤ) + e)).toNat '0' ++ ds).length =
          (-e).toNat := by
        rw [List.length_append, List.length_replicate]
        omega
      have hread := unsigned?_point (all_isDigit_replicate 1) hdigits (List.cons_ne_nil _ _)
      rw [hvalue, hlength] at hread
      exact hread

end Reading

section Magnitude

variable {m : ℕ} {q : ℤ}

theorem two_zpow_le {a b : ℤ} (h : a ≤ b) : (2 : ℚ) ^ a ≤ 2 ^ b :=
  zpow_le_zpow_right₀ (by norm_num) h

theorem two_zpow_le_ten_zpow {a b : ℕ} (h : 2 ^ a ≤ 10 ^ b) (n : ℕ) :
    (2 : ℚ) ^ ((a : ℤ) * n) ≤ 10 ^ ((b : ℤ) * n) := by
  rw [zpow_mul, zpow_mul, zpow_natCast, zpow_natCast, zpow_natCast, zpow_natCast]
  exact pow_le_pow_left₀ (by positivity) (by exact_mod_cast h) n

/-- No double but zero is so small that its digits begin behind the 330th place. -/
theorem ten_zpow_le_of_near (hc : Canonical m q) {x : ℚ} (h : Near m q x) :
    (10 : ℚ) ^ (-330 : ℤ) ≤ x := by
  have hpos := two_zpow_pos q
  have hone : (1 : ℚ) ≤ m := by exact_mod_cast hc.pos
  have hgap := gapBelow_le m q
  have hpowers := two_zpow_le_ten_zpow (by norm_num : 2 ^ 215 ≤ 10 ^ 66) 5
  have hten : (10 : ℚ) ^ (-330 : ℤ) ≤ 2 ^ (-1 + q) := by
    have hinv := inv_anti₀ (two_zpow_pos _) hpowers
    rw [← zpow_neg, ← zpow_neg] at hinv
    refine hinv.trans (two_zpow_le ?_)
    have := hc.least
    push_cast
    omega
  calc (10 : ℚ) ^ (-330 : ℤ) ≤ 1 / 2 * 2 ^ q := by
        rw [zpow_add₀ (by norm_num : (2 : ℚ) ≠ 0)] at hten
        simpa using hten
    _ ≤ (m - gapBelow m q) * 2 ^ q := mul_le_mul_of_nonneg_right (by linarith) hpos.le
    _ ≤ x := h.low

theorem lt_ten_zpow_of_near (hc : Canonical m q) {x : ℚ} (h : Near m q x) :
    x < (10 : ℚ) ^ (310 : ℤ) := by
  have hpos := two_zpow_pos q
  have hlt : (m : ℚ) + 1 ≤ 2 * hiddenBit := by exact_mod_cast hc.lt
  have hpowers := two_zpow_le_ten_zpow (by norm_num : 2 ^ 205 ≤ 10 ^ 62) 5
  calc x ≤ (m + 1 / 2) * 2 ^ q := h.high
    _ < (2 * hiddenBit) * 2 ^ q := mul_lt_mul_of_pos_right (by linarith) hpos
    _ = 2 ^ (53 + q) := by
        rw [hiddenBit_eq, zpow_add₀ (by norm_num : (2 : ℚ) ≠ 0)]
        norm_num
    _ ≤ 2 ^ (((205 : ℕ) : ℤ) * (5 : ℕ)) := by
        refine two_zpow_le ?_
        have := hc.greatest
        push_cast
        omega
    _ ≤ 10 ^ (310 : ℤ) := hpowers

theorem ten_zpow_lt_iff {a b : ℤ} : (10 : ℚ) ^ a < 10 ^ b ↔ a < b :=
  zpow_lt_zpow_iff_right₀ (by norm_num)

theorem ofScientific_of_near (hc : Canonical m q) {n k : ℕ} (hn : n ≠ 0)
    (h : Near m q (n * 10 ^ (-(k : ℤ)))) :
    ofScientific n (-(k : ℤ)) = ofBits (m + (q + 1074).toNat * hiddenBit) := by
  have hpos : 0 < n := Nat.pos_of_ne_zero hn
  have hten : (10 : ℚ) ≠ 0 := by norm_num
  have hlength := length_digits_pos n
  have hdigits : (10 : ℚ) ^ ((digits n).length - 1 : ℤ) ≤ n := by
    have hle := pow_length_digits_le hpos
    rw [show ((digits n).length - 1 : ℤ) = ((digits n).length - 1 : ℕ) by omega, zpow_natCast]
    exact_mod_cast hle
  have hlarge : (n : ℚ) < 10 ^ ((digits n).length : ℤ) := by
    rw [zpow_natCast]
    exact_mod_cast lt_pow_length_digits n
  have hlow : ¬ -(k : ℤ) + (digits n).length < -330 := by
    have hlt : (10 : ℚ) ^ (-330 : ℤ) < 10 ^ (-(k : ℤ) + (digits n).length) := by
      refine (ten_zpow_le_of_near hc h).trans_lt ?_
      rw [zpow_add₀ hten, mul_comm]
      exact mul_lt_mul_of_pos_left hlarge (ten_zpow_pos _)
    have := ten_zpow_lt_iff.mp hlt
    omega
  have hhigh : ¬ 310 < -(k : ℤ) + (digits n).length := by
    have hlt : (10 : ℚ) ^ (-(k : ℤ) + ((digits n).length - 1)) < 10 ^ (310 : ℤ) := by
      refine lt_of_le_of_lt ?_ (lt_ten_zpow_of_near hc h)
      rw [zpow_add₀ hten, mul_comm]
      exact mul_le_mul_of_nonneg_right hdigits (ten_zpow_pos _).le
    have := ten_zpow_lt_iff.mp hlt
    omega
  have hden : 0 < Nat.pow 10 (-(-(k : ℤ))).toNat := Nat.pow_pos (by norm_num)
  have hvalue : (n : ℚ) * 10 ^ (-(k : ℤ)) =
      (n * Nat.pow 10 (-(k : ℤ)).toNat : ℕ) / (Nat.pow 10 (-(-(k : ℤ))).toNat : ℕ) := by
    rw [← zpow_toNat_div hten (-(k : ℤ)), Nat.cast_mul, cast_natPow, cast_natPow,
      Nat.cast_ofNat, mul_div_assoc]
  rw [hvalue] at h
  unfold ofScientific
  simp only [hn, hlow, hhigh, decide_false, Bool.or_self, Bool.false_eq_true, if_false]
  rw [nearest, nearestBits_of_near hc hden h]

theorem dropZeros_spec (ds : List Char) (e : ℤ) :
    ∃ n, ds = (dropZeros ds e).1 ++ List.replicate n '0' ∧ (dropZeros ds e).2 = e + n := by
  have hsplit := List.takeWhile_append_dropWhile (p := (· == '0')) (l := ds.reverse)
  have hzeros : ds.reverse.takeWhile (· == '0') =
      List.replicate (ds.reverse.takeWhile (· == '0')).length '0' := by
    refine List.eq_replicate_of_mem fun c hc => ?_
    simpa using List.mem_takeWhile_imp hc
  have hds : ds = (ds.reverse.dropWhile (· == '0')).reverse ++
      List.replicate (ds.reverse.takeWhile (· == '0')).length '0' := by
    have hreverse := congrArg List.reverse hsplit
    rw [List.reverse_append, List.reverse_reverse, hzeros, List.reverse_replicate] at hreverse
    exact hreverse.symm
  refine ⟨_, hds, ?_⟩
  have hlength := congrArg List.length hds
  rw [List.length_append, List.length_replicate] at hlength
  simp only [dropZeros]
  omega

theorem magnitude_of_ne_zero (hm : m ≠ 0) : plain.magnitude m q =
    positionalText false (dropZeros (digits (shortest .up m q).1) (shortest .up m q).2).1
      (dropZeros (digits (shortest .up m q).1) (shortest .up m q).2).2 := by
  rw [Style.magnitude, if_neg hm]
  rfl

theorem digits_dropZeros {d : ℕ} (hd : d ≠ 0) (e : ℤ) :
    (dropZeros (digits d) e).1 ≠ [] ∧ (∀ c ∈ (dropZeros (digits d) e).1, isDigit c = true) ∧
      (value (dropZeros (digits d) e).1 : ℚ) * 10 ^ (dropZeros (digits d) e).2 = d * 10 ^ e := by
  obtain ⟨n, hdigits, hexponent⟩ := dropZeros_spec (digits d) e
  have hvalue : d = value (dropZeros (digits d) e).1 * 10 ^ n := by
    have hread := value_digits d
    rw [hdigits, value_append, value_replicate_zero, List.length_replicate] at hread
    exact hread.symm
  refine ⟨fun hnil => hd ?_, fun c hc => ?_, ?_⟩
  · rw [hvalue, hnil]
    exact Nat.zero_mul _
  · have hmem : c ∈ digits d := by
      rw [hdigits]
      exact List.mem_append_left _ hc
    exact isDigit_of_mem_digits hmem
  · rw [hexponent, zpow_add₀ (by norm_num : (10 : ℚ) ≠ 0), zpow_natCast]
    have hcast : (d : ℚ) = value (dropZeros (digits d) e).1 * 10 ^ n := by exact_mod_cast hvalue
    rw [hcast]
    ring

theorem unsigned?_magnitude (hc : Canonical m q) : unsigned? (plain.magnitude m q) =
    some (ofBits (m + (q + 1074).toNat * hiddenBit)) := by
  obtain ⟨hne, hnear⟩ := shortest_spec (t := .up) hc
  obtain ⟨hnil, hdigits, hvalue⟩ := digits_dropZeros hne (shortest .up m q).2
  rw [magnitude_of_ne_zero hc.pos.ne', unsigned?_positionalText hdigits hnil]
  generalize (dropZeros (digits (shortest .up m q).1) (shortest .up m q).2).1 = ds at *
  generalize (dropZeros (digits (shortest .up m q).1) (shortest .up m q).2).2 = e at *
  rw [← hvalue] at hnear
  have hscale : (value ds : ℚ) * 10 ^ e =
      (value ds * 10 ^ e.toNat : ℕ) * 10 ^ (-((-e).toNat : ℤ)) := by
    rw [← zpow_toNat_div (by norm_num : (10 : ℚ) ≠ 0) e, zpow_neg, zpow_natCast, zpow_natCast]
    push_cast
    rw [mul_assoc, div_eq_mul_inv]
  have hpos := hnear.pos hc.pos
  rw [hscale] at hnear hpos
  rw [ofScientific_of_near hc ?_ hnear]
  intro hzero
  rw [hzero, Nat.cast_zero, zero_mul] at hpos
  exact lt_irrefl _ hpos

end Magnitude

end PagedNets.Decimal
