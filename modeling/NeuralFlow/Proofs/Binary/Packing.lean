import Mathlib
import NeuralFlow.Proofs.Binary.Rounding

/-! Packed and unpacked floats. Packing loses nothing of a canonical number whose exponent fits, and
what was unpacked is canonical and packs to the bits it came from. -/

namespace NeuralFlow.Binary

open Float.Model (Format)
open Float.Model.UnpackedFloat

variable {spec : Format}

def maxExponent (spec : Format) : ℤ := spec.exponentBias - spec.mantissaBitsWithoutImplicit

theorem mantissaBits_binary32 : Format.binary32.mantissaBits = 24 := rfl

theorem mantissaBits_binary64 : Format.binary64.mantissaBits = 53 := rfl

theorem minExponent_binary64 : Format.binary64.minExponent = -1074 := rfl

theorem maxExponent_binary64 : maxExponent .binary64 = 971 := rfl

theorem minExponent_eq (spec : Format) :
    spec.minExponent = 1 - (spec.exponentBias : ℤ) - spec.mantissaBitsWithoutImplicit := by
  have hone : 1 ≤ 2 ^ (spec.exponentBits - 1) := Nat.one_le_two_pow
  rw [Format.minExponent, Format.exponentBias, Format.mantissaBits, Nat.cast_sub hone]
  push_cast
  ring

theorem two_pow_exponentBits (spec : Format) :
    2 ^ spec.exponentBits = 2 * spec.exponentBias + 2 := by
  have hone : 1 ≤ 2 ^ (spec.exponentBits - 1) := Nat.one_le_two_pow
  have hsplit : 2 ^ spec.exponentBits = 2 * 2 ^ (spec.exponentBits - 1) := by
    rw [← pow_succ']
    congr 1
    have := spec.he
    omega
  rw [hsplit, Format.exponentBias]
  omega

theorem toNat_allOnes_exponent (spec : Format) :
    (-1#(spec.exponentBits)).toNat = 2 * spec.exponentBias + 1 := by
  have := two_pow_exponentBits spec
  rw [BitVec.neg_one_eq_allOnes, BitVec.toNat_allOnes]
  omega

/-- The hidden bit stands before the stored ones. -/
theorem toNat_hidden_append {w : ℕ} (x : BitVec w) : (1#1 ++ x).toNat = 2 ^ w + x.toNat := by
  rw [BitVec.toNat_append, ← Nat.shiftLeft_add_eq_or_of_lt x.isLt]
  simp [Nat.shiftLeft_eq]

@[simp] theorem unpackSign_packComponents (s : Sign) (e : BitVec spec.exponentBits)
    (m : BitVec spec.mantissaBitsWithoutImplicit) :
    unpackSign (packComponents spec s e m) = s.toBitVec := by
  refine BitVec.eq_of_getLsbD_eq fun i hi => ?_
  obtain rfl : i = 0 := by omega
  simp [unpackSign, packComponents, BitVec.getLsbD_append, BitVec.getElem_append]

@[simp] theorem ofBitVec_toBitVec (s : Sign) : Sign.ofBitVec s.toBitVec = s := by
  cases s <;> rfl

theorem toBitVec_ofBitVec (b : BitVec 1) : (Sign.ofBitVec b).toBitVec = b := by
  rcases BitVec.eq_zero_or_eq_one b with rfl | rfl <;> rfl

/-- The bits of a float are its sign, its exponent and its mantissa. -/
theorem packComponents_unpack (b : BitVec spec.numBits) :
    packComponents spec (Sign.ofBitVec (unpackSign b)) (unpackExponent b)
      (unpackMantissa b) = b := by
  have hm := spec.hm
  have he := spec.he
  refine BitVec.eq_of_getLsbD_eq fun i hi => ?_
  rw [packComponents, toBitVec_ofBitVec, BitVec.getLsbD_append, BitVec.getLsbD_append]
  simp only [unpackMantissa, unpackExponent, unpackSign, BitVec.getLsbD_cast,
    BitVec.getLsbD_extractLsb]
  simp only [Format.numBits] at hi
  split_ifs with hmant hexp
  · simp; omega
  · rw [show spec.mantissaBitsWithoutImplicit + (i - spec.mantissaBitsWithoutImplicit) = i by omega]
    simp; omega
  · rw [show spec.mantissaBitsWithoutImplicit + spec.exponentBits +
      (i - spec.mantissaBitsWithoutImplicit - spec.exponentBits) = i by omega]
    simp; omega

theorem zero_ne_allOnes (spec : Format) : 0#(spec.exponentBits) ≠ -1#(spec.exponentBits) := by
  intro h
  have := congrArg BitVec.toNat h
  rw [toNat_allOnes_exponent] at this
  simp at this

theorem finite_congr {s : Sign} {m m' : ℕ} {q q' : ℤ} {hm : 0 < m} {hm' : 0 < m'} (h : m = m')
    (h' : q = q') : finite s m q hm = finite s m' q' hm' := by
  subst h h'
  rfl

/-! The two kinds of bits that stand for numbers other than zero. -/

theorem unpack_normal (s : Sign) {e : BitVec spec.exponentBits} (hones : e ≠ -1#_) (hzero : e ≠ 0#_)
    (x : BitVec spec.mantissaBitsWithoutImplicit) : ∃ h, unpack spec (packComponents spec s e x) =
      .finite s (2 ^ spec.mantissaBitsWithoutImplicit + x.toNat)
        (e.toNat - (spec.exponentBias + spec.mantissaBitsWithoutImplicit)) h := by
  refine ⟨by positivity, ?_⟩
  simp only [unpack, unpackMantissa_packComponents, unpackExponent_packComponents,
    unpackSign_packComponents, ofBitVec_toBitVec, if_neg hones, if_neg hzero]
  exact finite_congr (toNat_hidden_append x) rfl

theorem unpack_subnormal (s : Sign) {x : BitVec spec.mantissaBitsWithoutImplicit} (hx : x ≠ 0#_) :
    ∃ h, unpack spec (packComponents spec s 0#_ x) = .finite s x.toNat spec.minExponent h := by
  have hpos : 0 < x.toNat :=
    Nat.pos_of_ne_zero fun h => hx (BitVec.eq_of_toNat_eq (by simpa using h))
  refine ⟨hpos, ?_⟩
  simp only [unpack, unpackMantissa_packComponents, unpackExponent_packComponents,
    unpackSign_packComponents, ofBitVec_toBitVec, if_neg (zero_ne_allOnes spec), if_true,
    dif_neg hx]
  refine finite_congr rfl ?_
  rw [minExponent_eq, BitVec.toNat_zero]
  push_cast
  ring

section Pack

variable {s : Sign} {m : ℕ} {q : ℤ} {hm : 0 < m} {k : ℕ}
  (hk : (q + spec.exponentBias + spec.mantissaBitsWithoutImplicit).toNat = k)
  (hroom : k + 1 < 2 ^ spec.exponentBits)

include hk hroom

theorem pack_normal (hfull : 2 ^ spec.mantissaBitsWithoutImplicit ≤ m)
    (hlt : m < 2 ^ spec.mantissaBits) :
    pack spec (.finite s m q hm) = packComponents spec s (.ofNat _ k) (.ofNat _ m) := by
  have hlog : m.log2 + 1 = spec.mantissaBits := by
    have hlow := (Nat.le_log2 hm.ne').2 hfull
    have hhigh := (Nat.log2_lt hm.ne').2 hlt
    rw [mantissaBits_eq] at hhigh ⊢
    omega
  simp only [pack, hk, if_neg (not_le.2 hroom), if_pos hlog]

theorem pack_subnormal (hlt : m < 2 ^ spec.mantissaBitsWithoutImplicit) :
    pack spec (.finite s m q hm) = packComponents spec s 0#_ (.ofNat _ m) := by
  have hlog : ¬ m.log2 + 1 = spec.mantissaBits := by
    have := (Nat.log2_lt hm.ne').2 hlt
    rw [mantissaBits_eq]
    omega
  simp only [pack, hk, if_neg (not_le.2 hroom), if_neg hlog]

end Pack

theorem unpack_pack_normal {s : Sign} {m : ℕ} {q : ℤ} (hc : Canonical spec m q)
    (hq : q ≤ maxExponent spec) (hfull : 2 ^ spec.mantissaBitsWithoutImplicit ≤ m) (hm : 0 < m) :
    unpack spec (pack spec (.finite s m q hm)) = .finite s m q hm := by
  have hmin := hc.min
  have hlt := hc.lt
  have hones := toNat_allOnes_exponent spec
  have hcap := two_pow_exponentBits spec
  have hbits := two_pow_mantissaBits spec
  rw [minExponent_eq] at hmin
  rw [maxExponent] at hq
  obtain ⟨k, hk⟩ : ∃ k, (q + spec.exponentBias + spec.mantissaBitsWithoutImplicit).toNat = k :=
    ⟨_, rfl⟩
  have htoNat : (BitVec.ofNat spec.exponentBits k).toNat = k := by
    rw [BitVec.toNat_ofNat, Nat.mod_eq_of_lt (by omega)]
  have hnotOnes : BitVec.ofNat spec.exponentBits k ≠ -1#(spec.exponentBits) := by
    intro h
    have := congrArg BitVec.toNat h
    omega
  have hnotZero : BitVec.ofNat spec.exponentBits k ≠ 0#(spec.exponentBits) := by
    intro h
    have := congrArg BitVec.toNat h
    rw [htoNat, BitVec.toNat_zero] at this
    omega
  obtain ⟨h, heq⟩ := unpack_normal s hnotOnes hnotZero (.ofNat _ m)
  rw [pack_normal hk (by omega) hfull hlt, heq]
  refine finite_congr ?_ (by omega)
  rw [BitVec.toNat_ofNat, Nat.mod_eq_sub_mod hfull, Nat.mod_eq_of_lt (by omega)]
  omega

theorem unpack_pack_subnormal {s : Sign} {m : ℕ} {q : ℤ} (hc : Canonical spec m q)
    (hq : q ≤ maxExponent spec) (hshort : m < 2 ^ spec.mantissaBitsWithoutImplicit) (hm : 0 < m) :
    unpack spec (pack spec (.finite s m q hm)) = .finite s m q hm := by
  have hmin := hc.min
  have hcap := two_pow_exponentBits spec
  rw [minExponent_eq] at hmin
  rw [maxExponent] at hq
  have hmant : (BitVec.ofNat spec.mantissaBitsWithoutImplicit m).toNat = m := by
    rw [BitVec.toNat_ofNat, Nat.mod_eq_of_lt hshort]
  have hmant' : BitVec.ofNat spec.mantissaBitsWithoutImplicit m ≠ 0#_ := by
    intro h
    have := congrArg BitVec.toNat h
    rw [hmant, BitVec.toNat_zero] at this
    omega
  obtain ⟨h, heq⟩ := unpack_subnormal s hmant'
  rw [pack_subnormal rfl (by omega) hshort, heq]
  exact finite_congr hmant (hc.full.resolve_right (not_le.2 hshort)).symm

/-- Packing loses nothing. -/
theorem unpack_pack {s : Sign} {m : ℕ} {q : ℤ} (hc : Canonical spec m q) (hq : q ≤ maxExponent spec)
    (hm : 0 < m) : unpack spec (pack spec (.finite s m q hm)) = .finite s m q hm := by
  rcases le_or_gt (2 ^ spec.mantissaBitsWithoutImplicit) m with hfull | hshort
  · exact unpack_pack_normal hc hq hfull hm
  · exact unpack_pack_subnormal hc hq hshort hm

/-! What is packed beside numbers that fit. -/

theorem unpack_pack_zero (s : Sign) : unpack spec (pack spec (.zero s)) = .zero s := by
  simp [pack, packedZero, unpack, spec.he.ne']

theorem unpack_pack_infinity (s : Sign) : unpack spec (pack spec (.infinity s)) = .infinity s := by
  simp [pack, packedInfinity, unpack]

theorem unpack_pack_notANumber : unpack spec (pack spec .notANumber) = .notANumber := by
  have hne : 1#(spec.mantissaBitsWithoutImplicit) <<< (spec.mantissaBitsWithoutImplicit - 1) ≠ 0#_ := by
    intro h
    have hbit := congrArg (·.getLsbD (spec.mantissaBitsWithoutImplicit - 1)) h
    have := spec.hm
    simp [this] at hbit
  simp [pack, packedNaN, unpack, hne]

/-- A number whose exponent is too large becomes infinite. -/
theorem unpack_pack_of_gt {s : Sign} {m : ℕ} {q : ℤ} {hm : 0 < m} (hq : maxExponent spec < q) :
    unpack spec (pack spec (.finite s m q hm)) = .infinity s := by
  have hcap := two_pow_exponentBits spec
  rw [maxExponent] at hq
  have hlarge :
      2 ^ spec.exponentBits ≤ (q + spec.exponentBias + spec.mantissaBitsWithoutImplicit).toNat + 1 := by
    omega
  simp only [pack, if_pos hlarge]
  exact unpack_pack_infinity s

section Unpacked

variable {b : BitVec spec.numBits} {s : Sign} {m : ℕ} {q : ℤ} {hm : 0 < m}

/-- Without a hidden bit the mantissa is short, and the exponent is the least one. -/
theorem of_unpack_subnormal (hexp : 2 ≤ spec.exponentBits) (hexpZero : unpackExponent b = 0#_)
    (hmant : unpackMantissa b ≠ 0#_) (h : unpack spec b = .finite s m q hm) :
    Canonical spec m q ∧ q ≤ maxExponent spec ∧ pack spec (.finite s m q hm) = b := by
  have hcap := two_pow_exponentBits spec
  have hbits := two_pow_mantissaBits spec
  have hbias : 1 ≤ spec.exponentBias := by
    have := Nat.pow_le_pow_right (n := 2) (by norm_num) hexp
    omega
  have hlt := (unpackMantissa b).isLt
  have hb := packComponents_unpack b
  obtain ⟨h', heq⟩ := unpack_subnormal (Sign.ofBitVec (unpackSign b)) hmant
  rw [hexpZero] at hb
  rw [hb, h] at heq
  obtain ⟨rfl, rfl, rfl⟩ := finite.inj heq
  refine ⟨⟨hm, by omega, le_rfl, Or.inl rfl⟩, by rw [minExponent_eq, maxExponent]; omega, ?_⟩
  have hk :
      (spec.minExponent + spec.exponentBias + spec.mantissaBitsWithoutImplicit).toNat = 1 := by
    rw [minExponent_eq]
    omega
  rw [pack_subnormal hk (by omega) hlt, BitVec.ofNat_toNat, BitVec.setWidth_eq]
  exact hb

theorem of_unpack_normal (hexpOnes : unpackExponent b ≠ -1#_) (hexpZero : unpackExponent b ≠ 0#_)
    (h : unpack spec b = .finite s m q hm) :
    Canonical spec m q ∧ q ≤ maxExponent spec ∧ pack spec (.finite s m q hm) = b := by
  have hones := toNat_allOnes_exponent spec
  have hcap := two_pow_exponentBits spec
  have hbits := two_pow_mantissaBits spec
  have hlt := (unpackMantissa b).isLt
  have hexpLt := (unpackExponent b).isLt
  have hb := packComponents_unpack b
  obtain ⟨h', heq⟩ := unpack_normal (Sign.ofBitVec (unpackSign b)) hexpOnes hexpZero
    (unpackMantissa b)
  rw [hb, h] at heq
  obtain ⟨rfl, rfl, rfl⟩ := finite.inj heq
  have hnotOnes : (unpackExponent b).toNat ≠ 2 * spec.exponentBias + 1 := fun heq =>
    hexpOnes (BitVec.eq_of_toNat_eq (heq.trans hones.symm))
  have hnotZero : (unpackExponent b).toNat ≠ 0 := fun heq =>
    hexpZero (BitVec.eq_of_toNat_eq (by simpa using heq))
  refine ⟨⟨hm, by omega, by rw [minExponent_eq]; omega, Or.inr (Nat.le_add_right _ _)⟩,
    by rw [maxExponent]; omega, ?_⟩
  have hmant : BitVec.ofNat spec.mantissaBitsWithoutImplicit
      (2 ^ spec.mantissaBitsWithoutImplicit + (unpackMantissa b).toNat) = unpackMantissa b := by
    refine BitVec.eq_of_toNat_eq ?_
    rw [BitVec.toNat_ofNat, Nat.add_mod_left, Nat.mod_eq_of_lt hlt]
  rw [pack_normal (k := (unpackExponent b).toNat) (by omega) (by omega) (Nat.le_add_right _ _)
    (by omega), hmant, BitVec.ofNat_toNat, BitVec.setWidth_eq]
  exact hb

/-- What is unpacked is canonical, and packs to the same bits. -/
theorem of_unpack_eq_finite (hexp : 2 ≤ spec.exponentBits) (h : unpack spec b = .finite s m q hm) :
    Canonical spec m q ∧ q ≤ maxExponent spec ∧ pack spec (.finite s m q hm) = b := by
  by_cases hexpOnes : unpackExponent b = -1#_
  · simp only [unpack, if_pos hexpOnes] at h
    split_ifs at h
  by_cases hexpZero : unpackExponent b = 0#_
  · by_cases hmant : unpackMantissa b = 0#_
    · simp only [unpack, if_neg hexpOnes, if_pos hexpZero, dif_pos hmant] at h
      cases h
    · exact of_unpack_subnormal hexp hexpZero hmant h
  · exact of_unpack_normal hexpOnes hexpZero h

end Unpacked

theorem pack_of_unpack_eq_zero {b : BitVec spec.numBits} {s : Sign} (h : unpack spec b = .zero s) :
    pack spec (.zero s) = b := by
  have hb := packComponents_unpack b
  unfold unpack at h
  dsimp only at h
  split_ifs at h with hexpOnes hmantZero hexpZero hmantZero
  injection h with hs
  rwa [hexpZero, hmantZero, hs] at hb

end NeuralFlow.Binary
