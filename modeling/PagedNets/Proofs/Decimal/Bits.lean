import PagedNets.Proofs.Decimal.Positional

set_option autoImplicit false

namespace PagedNets.Decimal

open Float.Model (Format UnpackedFloat)
open Float.Model.UnpackedFloat (Sign packComponents)

def bitsOf (s : Sign) (e : BitVec 11) (m : BitVec 52) : BitVec 64 :=
  packComponents Format.binary64 s e m

variable {s : Sign} {e : BitVec 11} {m : BitVec 52}

theorem toNat_bitsOf (s : Sign) (e : BitVec 11) (m : BitVec 52) :
    (bitsOf s e m).toNat = (s.toBitVec.toNat * 2 ^ 11 + e.toNat) * 2 ^ 52 + m.toNat := by
  have hsplit : (bitsOf s e m).toNat = ((s.toBitVec ++ e) ++ m).toNat := rfl
  rw [hsplit, BitVec.toNat_append, BitVec.toNat_append, ← Nat.shiftLeft_add_eq_or_of_lt e.isLt,
    ← Nat.shiftLeft_add_eq_or_of_lt m.isLt, Nat.shiftLeft_eq, Nat.shiftLeft_eq]

theorem exists_bitsOf (b : BitVec 64) : ∃ s e m, b = bitsOf s e m := by
  have hb := b.isLt
  refine ⟨if b.toNat / 2 ^ 63 = 0 then .positive else .negative,
    BitVec.ofNat 11 (b.toNat / 2 ^ 52), BitVec.ofNat 52 b.toNat, BitVec.eq_of_toNat_eq ?_⟩
  rw [toNat_bitsOf, BitVec.toNat_ofNat, BitVec.toNat_ofNat]
  split
  · have hsign : Sign.positive.toBitVec.toNat = 0 := rfl
    omega
  · have hsign : Sign.negative.toBitVec.toNat = 1 := rfl
    omega

section Unpack

theorem unpackMantissa_bitsOf (s : Sign) (e : BitVec 11) (m : BitVec 52) :
    @UnpackedFloat.unpackMantissa Format.binary64 (bitsOf s e m) = m :=
  UnpackedFloat.unpackMantissa_packComponents

theorem unpackExponent_bitsOf (s : Sign) (e : BitVec 11) (m : BitVec 52) :
    @UnpackedFloat.unpackExponent Format.binary64 (bitsOf s e m) = e :=
  UnpackedFloat.unpackExponent_packComponents

theorem unpackSign_bitsOf (s : Sign) (e : BitVec 11) (m : BitVec 52) :
    Sign.ofBitVec (@UnpackedFloat.unpackSign Format.binary64 (bitsOf s e m)) = s := by
  have hbit : @UnpackedFloat.unpackSign Format.binary64 (bitsOf s e m) = s.toBitVec := by
    refine BitVec.eq_of_toNat_eq ?_
    have he := e.isLt
    have hm := m.isLt
    have hs := s.toBitVec.isLt
    simp only [UnpackedFloat.unpackSign, BitVec.toNat_cast, BitVec.extractLsb_toNat,
      toNat_bitsOf, Nat.shiftRight_eq_div_pow]
    omega
  rw [hbit]
  cases s <;> rfl

def unpacked (s : Sign) (e : BitVec 11) (m : BitVec 52) : UnpackedFloat :=
  UnpackedFloat.unpack Format.binary64 (bitsOf s e m)

theorem isFinite_unpacked : (unpacked s e m).isFinite = true ↔ e ≠ -1#11 := by
  unfold unpacked UnpackedFloat.unpack
  simp only [unpackMantissa_bitsOf, unpackExponent_bitsOf, unpackSign_bitsOf]
  split
  · next he =>
    split <;> exact ⟨fun h => (by cases h), fun h => absurd he h⟩
  · next he =>
    split
    · split <;> exact ⟨fun _ => he, fun _ => rfl⟩
    · exact ⟨fun _ => he, fun _ => rfl⟩

theorem neg_unpacked : (unpacked s e m).neg = unpacked (-s) e m := by
  unfold unpacked UnpackedFloat.unpack
  simp only [unpackMantissa_bitsOf, unpackExponent_bitsOf, unpackSign_bitsOf]
  split
  · split <;> rfl
  · split
    · split <;> rfl
    · rfl

theorem toNat_one_append (m : BitVec 52) : (1#1 ++ m).toNat = 2 ^ 52 + m.toNat := by
  rw [BitVec.toNat_append, ← Nat.shiftLeft_add_eq_or_of_lt m.isLt]
  simp [Nat.shiftLeft_eq]

theorem pack_finite (s : Sign) {n : ℕ} (k : ℤ) (hn : 0 < n) (hk : (k + 1075).toNat < 2047) :
    UnpackedFloat.pack Format.binary64 (.finite s n k hn) =
      if n.log2 = 52 then bitsOf s (BitVec.ofNat 11 (k + 1075).toNat) (BitVec.ofNat 52 n)
      else bitsOf s 0#11 (BitVec.ofNat 52 n) := by
  have hbias : (k + Format.exponentBias Format.binary64 + (52 : ℕ)).toNat = (k + 1075).toNat := by
    have hbias : Format.exponentBias Format.binary64 = 1023 := by decide
    rw [hbias]
    omega
  have hbits : Format.mantissaBits Format.binary64 = 53 := by decide
  simp only [UnpackedFloat.pack, hbias, hbits]
  rw [if_neg (by omega)]
  simp only [Nat.reduceEqDiff]
  rfl

theorem pack_unpacked (he : e ≠ -1#11) :
    UnpackedFloat.pack Format.binary64 (unpacked s e m) = bitsOf s e m := by
  have hbias : Format.exponentBias Format.binary64 = 1023 := by decide
  have hlt := m.isLt
  have he2047 : e.toNat ≠ 2047 := by
    intro h
    exact he (BitVec.eq_of_toNat_eq (h.trans (by decide)))
  have hele := e.isLt
  unfold unpacked UnpackedFloat.unpack
  simp only [unpackMantissa_bitsOf, unpackExponent_bitsOf, unpackSign_bitsOf, hbias]
  rw [if_neg he]
  split
  · next hzero =>
    subst hzero
    split
    · next hm =>
      subst hm
      rfl
    · next hm =>
      have hpos : 0 < m.toNat := by
        rw [Nat.pos_iff_ne_zero]
        exact fun h => hm (BitVec.eq_of_toNat_eq h)
      have hlog : m.toNat.log2 ≠ 52 := by
        have := (Nat.log2_lt hpos.ne').mpr hlt
        omega
      rw [pack_finite s _ hpos (by decide), if_neg hlog, BitVec.ofNat_toNat, BitVec.setWidth_eq]
  · next hne =>
    have hpos : e.toNat ≠ 0 := fun h => hne (BitVec.eq_of_toNat_eq h)
    have hlog : (2 ^ 52 + m.toNat).log2 = 52 := by
      refine (Nat.log2_eq_iff (by omega)).mpr ⟨by omega, by omega⟩
    have hone : 0 < (1#1 ++ m).toNat := by
      rw [toNat_one_append]
      omega
    have hk : ((e.toNat : ℤ) - ((1023 : ℕ) + (52 : ℕ)) + 1075).toNat = e.toNat := by omega
    rw [pack_finite s _ hone (by omega), toNat_one_append, if_pos hlog, hk]
    have hmantissa : BitVec.ofNat 52 (2 ^ 52 + m.toNat) = m := by
      refine BitVec.eq_of_toNat_eq ?_
      rw [BitVec.toNat_ofNat, Nat.add_mod_left, Nat.mod_eq_of_lt hlt]
    rw [BitVec.ofNat_toNat, BitVec.setWidth_eq, hmantissa]

end Unpack

section Float

theorem float_ext {x y : Float} (h : x.toModel.toBits.toBitVec = y.toModel.toBits.toBitVec) :
    x = y := by
  obtain ⟨⟨a, ha⟩⟩ := x
  obtain ⟨⟨b, hb⟩⟩ := y
  have hab : a = b := UInt64.toBitVec_inj.mp h
  subst hab
  rfl

theorem exists_bitsOf_of_isFinite {x : Float} (h : x.isFinite = true) :
    ∃ s e m, e ≠ -1#11 ∧ x.toModel.toBits.toBitVec = bitsOf s e m := by
  obtain ⟨s, e, m, hb⟩ := exists_bitsOf x.toModel.toBits.toBitVec
  refine ⟨s, e, m, ?_, hb⟩
  have hfinite : (UnpackedFloat.unpack Format.binary64 x.toModel.toBits.toBitVec).isFinite = true :=
    h
  rw [hb] at hfinite
  exact isFinite_unpacked.mp hfinite

theorem toBitVec_ofBits (he : e ≠ -1#11) :
    (ofBits (e.toNat * 2 ^ 52 + m.toNat)).toModel.toBits.toBitVec = bitsOf .positive e m := by
  have hbits : (UInt64.ofNat (e.toNat * 2 ^ 52 + m.toNat)).toBitVec = bitsOf .positive e m := by
    refine BitVec.eq_of_toNat_eq ?_
    have hsign : Sign.positive.toBitVec.toNat = 0 := rfl
    have helt := e.isLt
    have hmlt := m.isLt
    rw [toNat_bitsOf, hsign, UInt64.toNat_toBitVec, UInt64.toNat_ofNat',
      Nat.mod_eq_of_lt (by omega)]
    omega
  have hpack : (ofBits (e.toNat * 2 ^ 52 + m.toNat)).toModel.toBits.toBitVec =
      UnpackedFloat.pack Format.binary64 (UnpackedFloat.unpack Format.binary64
        (UInt64.ofNat (e.toNat * 2 ^ 52 + m.toNat)).toBitVec) := rfl
  rw [hpack, hbits]
  exact pack_unpacked he

theorem toBitVec_neg {x : Float} (he : e ≠ -1#11)
    (hx : x.toModel.toBits.toBitVec = bitsOf s e m) :
    (-x).toModel.toBits.toBitVec = bitsOf (-s) e m := by
  have hpack : (-x).toModel.toBits.toBitVec = UnpackedFloat.pack Format.binary64
      (UnpackedFloat.unpack Format.binary64 x.toModel.toBits.toBitVec).neg := rfl
  have hneg : (UnpackedFloat.unpack Format.binary64 (bitsOf s e m)).neg = unpacked (-s) e m :=
    neg_unpacked
  rw [hpack, hx, hneg]
  exact pack_unpacked he

def isNegative : Sign → Bool
  | .negative => true
  | .positive => false

theorem eq_of_toBitVec {x : Float} (he : e ≠ -1#11)
    (hx : x.toModel.toBits.toBitVec = bitsOf s e m) :
    x = if isNegative s then -ofBits (e.toNat * 2 ^ 52 + m.toNat)
      else ofBits (e.toNat * 2 ^ 52 + m.toNat) := by
  have hmagnitude := toBitVec_ofBits (m := m) he
  refine float_ext ?_
  cases s with
  | negative => exact hx.trans (toBitVec_neg he hmagnitude).symm
  | positive => exact hx.trans hmagnitude.symm

theorem decode_eq {x : Float} (he : e ≠ -1#11) (hx : x.toModel.toBits.toBitVec = bitsOf s e m) :
    decode x = if e.toNat = 0 then .finite (isNegative s) m.toNat (-1074)
      else .finite (isNegative s) (hiddenBit + m.toNat) (e.toNat - 1075) := by
  have he2047 : e.toNat ≠ 2047 := fun h => he (BitVec.eq_of_toNat_eq (h.trans (by decide)))
  have helt := e.isLt
  have hmlt := m.isLt
  have hbits : x.toBits.toNat = (s.toBitVec.toNat * 2 ^ 11 + e.toNat) * 2 ^ 52 + m.toNat := by
    rw [← toNat_bitsOf, ← hx]
    rfl
  have hsign : (s.toBitVec.toNat == 1) = isNegative s := by cases s <;> rfl
  have hslt := s.toBitVec.isLt
  have hnegative : x.toBits.toNat / hiddenBit / 2048 % 2 = s.toBitVec.toNat := by
    rw [hbits]
    unfold hiddenBit
    omega
  have hbiased : x.toBits.toNat / hiddenBit % 2048 = e.toNat := by
    rw [hbits]
    unfold hiddenBit
    omega
  have hfraction : x.toBits.toNat % hiddenBit = m.toNat := by
    rw [hbits]
    unfold hiddenBit
    omega
  simp only [decode, decodeBits, hnegative, hbiased, hfraction, hsign, if_neg he2047]

/-- A finite double is its magnitude with its sign. -/
theorem exists_decode {x : Float} (h : x.isFinite = true) :
    ∃ negative m q, decode x = .finite negative m q ∧ (m = 0 ∧ q = -1074 ∨ Canonical m q) ∧
      x = if negative then -ofBits (m + (q + 1074).toNat * hiddenBit)
        else ofBits (m + (q + 1074).toNat * hiddenBit) := by
  obtain ⟨s, e, m, he, hx⟩ := exists_bitsOf_of_isFinite h
  have hvalue := eq_of_toBitVec he hx
  have hdecode := decode_eq he hx
  have helt := e.isLt
  have hmlt : m.toNat < hiddenBit := m.isLt
  by_cases hzero : e.toNat = 0
  · rw [if_pos hzero] at hdecode
    refine ⟨_, _, _, hdecode, ?_, ?_⟩
    · by_cases hm : m.toNat = 0
      · exact .inl ⟨hm, rfl⟩
      · exact .inr ⟨by omega, by omega, by norm_num, by norm_num, .inr rfl⟩
    · have hbits : m.toNat + (-1074 + 1074 : ℤ).toNat * hiddenBit =
          e.toNat * 2 ^ 52 + m.toNat := by simp [hzero]
      rw [hbits]
      exact hvalue
  · rw [if_neg hzero] at hdecode
    have he2047 : e.toNat ≠ 2047 := fun h => he (BitVec.eq_of_toNat_eq (h.trans (by decide)))
    refine ⟨_, _, _, hdecode, ?_, ?_⟩
    · exact .inr ⟨by omega, by omega, by omega, by omega, .inl (by omega)⟩
    · have hk : ((e.toNat : ℤ) - 1075 + 1074).toNat = e.toNat - 1 := by omega
      have hbits : hiddenBit + m.toNat + ((e.toNat : ℤ) - 1075 + 1074).toNat * hiddenBit =
          e.toNat * 2 ^ 52 + m.toNat := by
        rw [hk]
        unfold hiddenBit
        omega
      rw [hbits]
      exact hvalue

end Float

end PagedNets.Decimal
