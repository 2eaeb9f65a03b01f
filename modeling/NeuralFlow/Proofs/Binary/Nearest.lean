import Mathlib
import NeuralFlow.Proofs.Binary.Order

/-! Correct rounding. Sums, products and quotients of finite floats are the floats nearest to the exact
results, where a result beyond the limit is nearest to infinity. So rounding keeps to the same side of
every float, and is off by no more than half a unit. -/

namespace NeuralFlow.Binary

open Float.Model (Format)
open Float.Model.UnpackedFloat
open Float.Model

variable {spec : Format} {s : Sign} {m n r : ℕ} {q q' e t : ℤ} {acc : Accuracy} {v w : ℚ}
  {x y u : UnpackedFloat}

/-- A defined float that is as near to a number as any other. -/
structure Nearest (spec : Format) (v : ℚ) (u : UnpackedFloat) : Prop where
  proper : Proper spec u
  near : ∀ y, Proper spec y → |value spec u - v| ≤ |value spec y - v|

namespace Nearest

theorem self (h : Proper spec u) : Nearest spec (value spec u) u where
  proper := h
  near y _ := by
    rw [sub_self, abs_zero]
    exact abs_nonneg _

/-- Nothing rounds past a float. -/
theorem value_le (h : Nearest spec v u) (hy : Proper spec y) (hv : v ≤ value spec y) :
    value spec u ≤ value spec y := by
  by_contra! hlt
  have hnear := h.near y hy
  rw [abs_of_nonneg (by linarith), abs_of_nonneg (by linarith)] at hnear
  linarith

theorem le_value (h : Nearest spec v u) (hy : Proper spec y) (hv : value spec y ≤ v) :
    value spec y ≤ value spec u := by
  by_contra! hlt
  have hnear := h.near y hy
  rw [abs_of_nonpos (by linarith), abs_of_nonpos (by linarith)] at hnear
  linarith

/-- A number that is a float rounds to it. -/
theorem value_eq (h : Nearest spec (value spec y) u) (hy : Proper spec y) :
    value spec u = value spec y := le_antisymm (h.value_le hy le_rfl) (h.le_value hy le_rfl)

end Nearest

/-! The values of defined floats. -/

theorem abs_signed (s : Sign) (hv : 0 ≤ v) : |signed s v| = v := by
  cases s
  · rw [signed, abs_neg, abs_of_nonneg hv]
  · exact abs_of_nonneg hv

theorem abs_signed_sub (s : Sign) (v w : ℚ) : |signed s v - signed s w| = |v - w| := by
  cases s
  · rw [signed, signed, neg_sub_neg, abs_sub_comm]
  · rfl

/-- The limit would be the next canonical number. -/
theorem canonical_limit (spec : Format) :
    Canonical spec (2 ^ spec.mantissaBitsWithoutImplicit) (maxExponent spec + 1) ∧
      ((2 ^ spec.mantissaBitsWithoutImplicit : ℕ) : ℚ) * 2 ^ (maxExponent spec + 1) = limit spec := by
  have hbits := two_pow_mantissaBits spec
  have hpos : 0 < 2 ^ spec.mantissaBitsWithoutImplicit := by positivity
  refine ⟨⟨hpos, by omega, ?_, Or.inr le_rfl⟩, ?_⟩
  · rw [minExponent_eq, maxExponent]
    omega
  · rw [limit, mantissaBits_eq]
    push_cast
    rw [← zpow_natCast, ← zpow_add₀ two_ne_zero]
    congr 1
    ring

theorem Proper.abs_value_le (h : Proper spec u) : |value spec u| ≤ limit spec := by
  have hlimit := limit_pos spec
  cases u with
  | notANumber => exact h.elim
  | infinity s => exact (abs_signed s hlimit.le).le
  | zero s => simpa [value] using hlimit.le
  | finite s m q hm =>
    rw [value, abs_signed s h.1.value_pos.le]
    exact (h.1.value_lt_limit h.2).le

/-- Values are zero or of canonical size. -/
theorem Proper.abs_value (h : Proper spec u) : |value spec u| = 0 ∨
    ∃ m q, Canonical spec m q ∧ |value spec u| = m * 2 ^ q := by
  cases u with
  | notANumber => exact h.elim
  | infinity s =>
    obtain ⟨hc, hlimit⟩ := canonical_limit spec
    exact Or.inr ⟨_, _, hc, by rw [value, abs_signed s (limit_pos spec).le, hlimit]⟩
  | zero s => exact Or.inl abs_zero
  | finite s m q hm => exact Or.inr ⟨m, q, h.1, abs_signed s h.1.value_pos.le⟩

theorem Proper.abs (h : Proper spec u) : Proper spec u.abs := by
  cases u <;> exact h

theorem value_abs (spec : Format) (u : UnpackedFloat) : value spec u.abs = |value spec u| := by
  cases u with
  | notANumber => exact abs_zero.symm
  | infinity s => exact (abs_signed s (limit_pos spec).le).symm
  | zero s => exact abs_zero.symm
  | finite s m q hm =>
    have hnonneg : (0 : ℚ) ≤ m * 2 ^ q := by positivity
    exact (abs_signed s hnonneg).symm

/-! Packing a rounded number. -/

theorem minExponent_le_maxExponent (hexp : 2 ≤ spec.exponentBits) :
    spec.minExponent ≤ maxExponent spec := by
  have hcap := two_pow_exponentBits spec
  have := Nat.pow_le_pow_right (n := 2) (by norm_num) hexp
  rw [minExponent_eq, maxExponent]
  omega

/-- What is packed is unpacked with the same value, up to the limit. -/
theorem value_unpack_pack (hexp : 2 ≤ spec.exponentBits) (hc : Canonical spec m q) (hm : 0 < m) :
    Proper spec (unpack spec (pack spec (.finite s m q hm))) ∧
      value spec (unpack spec (pack spec (.finite s m q hm))) =
        signed s (min ((m : ℚ) * 2 ^ q) (limit spec)) := by
  rcases le_or_gt q (maxExponent spec) with hq | hq
  · rw [unpack_pack hc hq hm, min_eq_left (hc.value_lt_limit hq).le]
    exact ⟨⟨hc, hq⟩, rfl⟩
  · obtain ⟨hlimit, heq⟩ := canonical_limit spec
    have hle : limit spec ≤ m * 2 ^ q := by
      have hfull : q ≠ spec.minExponent := by
        have := minExponent_le_maxExponent hexp
        omega
      refine le_trans ?_ (hc.le_value hfull)
      rw [limit, mantissaBits_eq]
      push_cast
      exact (zpow_le_zpow_iff_right₀ one_lt_two).2 (by linarith [Int.add_one_le_iff.2 hq])
    rw [unpack_pack_of_gt hq, min_eq_right hle]
    exact ⟨trivial, rfl⟩

theorem Proper.unpack_pack (h : Proper spec u) : unpack spec (pack spec u) = u := by
  cases u with
  | notANumber => exact h.elim
  | infinity s => exact unpack_pack_infinity s
  | zero s => exact unpack_pack_zero s
  | finite s m q hm => exact Binary.unpack_pack h.1 h.2 hm

theorem Proper.nearest_pack (h : Proper spec u) :
    Nearest spec (value spec u) (unpack spec (pack spec u)) := by
  rw [h.unpack_pack]
  exact Nearest.self h

/-- A whole number next to another number is as near to it as any. -/
theorem NearestEven.near_le (h : NearestEven v r) (k : ℤ) : |(r : ℚ) - v| ≤ |(k : ℚ) - v| := by
  have hnear := h.near
  rw [abs_sub_comm] at hnear
  rcases eq_or_ne k r with rfl | hne
  · exact_mod_cast le_rfl
  · have hone : (1 : ℚ) ≤ |(k : ℚ) - r| := by
      have := Int.one_le_abs (sub_ne_zero.2 hne)
      exact_mod_cast this
    have htri := abs_sub_le (k : ℚ) v r
    rw [abs_sub_comm v] at htri
    linarith

/-- How a number lies in units of `2 ^ t`: whole numbers of units are of canonical size, and smaller
units are for smaller numbers. -/
structure Scaled (spec : Format) (v : ℚ) (t : ℤ) : Prop where
  nonneg : 0 ≤ v
  min_le : spec.minExponent ≤ t
  low : t = spec.minExponent ∨ (2 : ℚ) ^ spec.mantissaBitsWithoutImplicit ≤ v / 2 ^ t
  high : v / 2 ^ t < 2 ^ spec.mantissaBits

namespace Scaled

/-- No canonical number is nearer than the nearest whole number of units. -/
theorem near_canonical (h : Scaled spec v t) (hr : NearestEven (v / 2 ^ t) r)
    (hc : Canonical spec n q) : |r * 2 ^ t - v| ≤ |n * 2 ^ q - v| := by
  have hunit : (0 : ℚ) < 2 ^ t := by positivity
  have hscale : ∀ a : ℚ, |a * 2 ^ t - v| = |a - v / 2 ^ t| * 2 ^ t := fun a => by
    rw [← abs_of_pos hunit, ← abs_mul, abs_of_pos hunit, sub_mul, div_mul_cancel₀ _ hunit.ne']
  rcases le_or_gt t q with htq | htq
  · have hwhole : (n : ℚ) * 2 ^ q = ((n * 2 ^ (q - t).toNat : ℤ) : ℚ) * 2 ^ t := by
      push_cast
      rw [mul_assoc, ← zpow_natCast, ← zpow_add₀ two_ne_zero]
      congr 2
      omega
    rw [hwhole, hscale, hscale]
    exact mul_le_mul_of_nonneg_right (hr.near_le _) hunit.le
  · -- numbers with smaller units are below the least number that has these
    have hlow := h.low.resolve_left (fun heq => by have := hc.min; omega)
    have hbelow : (n : ℚ) * 2 ^ q < 2 ^ spec.mantissaBitsWithoutImplicit * 2 ^ t := by
      refine hc.value_lt.trans_le ?_
      rw [mantissaBits_eq, ← zpow_natCast, ← zpow_add₀ two_ne_zero]
      push_cast
      exact (zpow_le_zpow_iff_right₀ one_lt_two).2 (by linarith [Int.add_one_le_iff.2 htq])
    have hnear := hr.near_le (2 ^ spec.mantissaBitsWithoutImplicit : ℕ)
    push_cast at hnear
    calc |r * 2 ^ t - v| ≤ |2 ^ spec.mantissaBitsWithoutImplicit * 2 ^ t - v| := by
          rw [hscale, hscale]
          exact mul_le_mul_of_nonneg_right hnear hunit.le
      _ ≤ |n * 2 ^ q - v| := by
          rw [le_div_iff₀ hunit] at hlow
          rw [abs_of_nonpos (by linarith), abs_of_nonpos (by linarith)]
          linarith

/-- The nearest whole number of units, cut at the limit, is as near as any float. -/
theorem near_value (h : Scaled spec v t) (hr : NearestEven (v / 2 ^ t) r) (hy : Proper spec y) :
    |signed s (min ((r : ℚ) * 2 ^ t) (limit spec)) - signed s v| ≤ |value spec y - signed s v| := by
  have hunit : (0 : ℚ) < 2 ^ t := by positivity
  have hsize : |r * 2 ^ t - v| ≤ |(|value spec y| - v)| := by
    rcases hy.abs_value with hzero | ⟨n, q, hc, heq⟩
    · have hnear := mul_le_mul_of_nonneg_right (hr.near_le 0) hunit.le
      rw [← abs_of_pos hunit, ← abs_mul, ← abs_mul, abs_of_pos hunit, sub_mul, sub_mul,
        div_mul_cancel₀ _ hunit.ne'] at hnear
      simpa [hzero] using hnear
    · rw [heq]
      exact h.near_canonical hr hc
  have hclamp : |min ((r : ℚ) * 2 ^ t) (limit spec) - v| ≤ |(|value spec y| - v)| := by
    rcases le_or_gt ((r : ℚ) * 2 ^ t) (limit spec) with hle | hgt
    · rwa [min_eq_left hle]
    · obtain ⟨hc, heq⟩ := canonical_limit spec
      have hlimit := h.near_canonical hr hc
      rw [heq] at hlimit
      have hle : limit spec ≤ v := by
        by_contra! hlt
        rw [abs_of_nonneg (by linarith), abs_of_nonneg (by linarith)] at hlimit
        linarith
      have habove := hy.abs_value_le
      rw [min_eq_right hgt.le, abs_of_nonpos (by linarith), abs_of_nonpos (by linarith)]
      linarith
  calc |signed s (min ((r : ℚ) * 2 ^ t) (limit spec)) - signed s v|
      ≤ |(|value spec y| - v)| := by rwa [abs_signed_sub]
    _ = |(|value spec y| - |signed s v|)| := by rw [abs_signed s h.nonneg]
    _ ≤ |value spec y - signed s v| := abs_abs_sub_abs_le_abs_sub _ _

/-- After a shift to the unit, rounding and packing give the nearest float. -/
theorem nearest_round (hexp : 2 ≤ spec.exponentBits) (h : Scaled spec v t) {em : ExtendedMantissa}
    (hshift : shiftToTargetExponent spec m e acc = (em, t)) (hem : Represents em (v / 2 ^ t)) :
    Nearest spec (signed s v) (unpack spec (pack spec (roundWithAccuracy spec s m e acc))) := by
  have hbits := two_pow_mantissaBits spec
  obtain ⟨r, hround⟩ : ∃ r, em.roundedMantissa = r := ⟨_, rfl⟩
  have hr : NearestEven (v / 2 ^ t) r := hround ▸ hem.nearestEven
  have hhigh : r ≤ 2 ^ spec.mantissaBits := by
    have hlt : (r : ℚ) < 2 ^ spec.mantissaBits + 1 := by linarith [h.high, (abs_le.1 hr.near).1]
    have : r < 2 ^ spec.mantissaBits + 1 := by exact_mod_cast hlt
    omega
  suffices hvalue : Proper spec (unpack spec (pack spec (roundWithAccuracy spec s m e acc))) ∧
      value spec (unpack spec (pack spec (roundWithAccuracy spec s m e acc))) =
        signed s (min ((r : ℚ) * 2 ^ t) (limit spec)) by
    refine ⟨hvalue.1, fun y hy => ?_⟩
    rw [hvalue.2]
    exact h.near_value hr hy
  rcases r.eq_zero_or_pos with rfl | hpos
  · have hzero : roundWithAccuracy spec s m e acc = .zero s := by
      simp only [roundWithAccuracy, hshift, hround,
        shiftToTargetExponent_of_lt (show 0 < 2 ^ spec.mantissaBits by positivity) h.min_le, dif_pos]
    rw [hzero, unpack_pack_zero]
    refine ⟨trivial, ?_⟩
    rw [Nat.cast_zero, zero_mul, min_eq_left (limit_pos spec).le]
    cases s <;> simp [value, signed]
  rcases hhigh.lt_or_eq with hlt | rfl
  · have hfinite : roundWithAccuracy spec s m e acc = .finite s r t hpos := by
      simp only [roundWithAccuracy, hshift, hround, shiftToTargetExponent_of_lt hlt h.min_le, hpos.ne',
        dif_neg, not_false_eq_true]
    rw [hfinite]
    refine value_unpack_pack hexp ⟨hpos, hlt, h.min_le, h.low.imp_right fun hlow => ?_⟩ hpos
    have : (2 ^ spec.mantissaBitsWithoutImplicit : ℚ) < r + 1 := by linarith [(abs_le.1 hr.near).2]
    have : 2 ^ spec.mantissaBitsWithoutImplicit < r + 1 := by exact_mod_cast this
    omega
  · have hone : 0 < 2 ^ spec.mantissaBitsWithoutImplicit := by positivity
    have hcarry : roundWithAccuracy spec s m e acc =
        .finite s (2 ^ spec.mantissaBitsWithoutImplicit) (t + 1) hone := by
      simp only [roundWithAccuracy, hshift, hround, shiftToTargetExponent_of_carry h.min_le, hone.ne',
        dif_neg, not_false_eq_true]
    have hsame : ((2 ^ spec.mantissaBits : ℕ) : ℚ) * 2 ^ t =
        ((2 ^ spec.mantissaBitsWithoutImplicit : ℕ) : ℚ) * 2 ^ (t + 1) := by
      rw [hbits, zpow_add_one₀ two_ne_zero]
      push_cast
      ring
    rw [hcarry, hsame]
    exact value_unpack_pack hexp ⟨hone, by omega, by linarith [h.min_le], Or.inr le_rfl⟩ hone

end Scaled

theorem Stands.scaled (h : Stands spec m e acc v)
    (ht : spec.targetExponent (totalExponent m e) = t) : Scaled spec v t := by
  have hunit : (0 : ℚ) < 2 ^ t := by positivity
  obtain ⟨hlow, hhigh⟩ := h.bounds
  have hp := mantissaBits_eq spec
  rw [Format.targetExponent] at ht
  refine ⟨le_trans (by positivity) hlow, ht ▸ le_max_right _ _, ?_, ?_⟩
  · refine (em (t = spec.minExponent)).imp_right fun hne => ?_
    rw [le_div_iff₀ hunit, ← zpow_natCast, ← zpow_add₀ two_ne_zero]
    refine le_trans ?_ hlow
    exact (zpow_le_zpow_iff_right₀ one_lt_two).2 (by omega)
  · rw [div_lt_iff₀ hunit, ← zpow_natCast, ← zpow_add₀ two_ne_zero]
    refine hhigh.trans_le ?_
    exact (zpow_le_zpow_iff_right₀ one_lt_two).2 (by omega)

theorem Stands.nearest (hexp : 2 ≤ spec.exponentBits) (h : Stands spec m e acc v) :
    Nearest spec (signed s v) (unpack spec (pack spec (roundWithAccuracy spec s m e acc))) := by
  obtain ⟨em, hshift, hem⟩ := h.shift rfl
  exact (h.scaled rfl).nearest_round hexp hshift hem

/-- A whole number of units is rounded correctly. -/
theorem nearest_normalize (hexp : 2 ≤ spec.exponentBits) (k : ℤ) (e : ℤ) (zeroSign : Sign) :
    Nearest spec (k * 2 ^ e) (unpack spec (pack spec (UnpackedFloat.normalize spec k e zeroSign))) := by
  have hround : ∀ (s : Sign) {m : ℕ}, 0 < m → Nearest spec (signed s (m * 2 ^ e))
      (unpack spec (pack spec (UnpackedFloat.round spec s m e))) := fun s m hm => by
    obtain ⟨m', e', heq, -, hstands⟩ := @round_eq spec s m e hm
    rw [heq]
    exact hstands.nearest hexp
  rcases lt_trichotomy k 0 with hk | rfl | hk
  · have hcast : (((-k).toNat : ℕ) : ℚ) = -k := by
      rw [← Int.cast_natCast, Int.toNat_of_nonneg (by omega)]
      push_cast
      rfl
    have h := hround .negative (m := (-k).toNat) (by omega)
    rw [hcast, signed, neg_mul, neg_neg] at h
    simpa only [UnpackedFloat.normalize, Int.compare_eq_lt.2 hk] using h
  · have h := Nearest.self (show Proper spec (.zero zeroSign) from trivial)
    have hzero : UnpackedFloat.normalize spec 0 e zeroSign = .zero zeroSign := rfl
    rw [hzero, unpack_pack_zero]
    simpa [value] using h
  · have hcast : ((k.toNat : ℕ) : ℚ) = k := by
      rw [← Int.cast_natCast, Int.toNat_of_nonneg hk.le]
    have h := hround .positive (m := k.toNat) (by omega)
    rw [hcast, signed] at h
    simpa only [UnpackedFloat.normalize, Int.compare_eq_gt.2 hk] using h

/-! Arithmetic. -/

/-- A sum of defined floats is a sum of finite ones, or undefined because two infinities cancel, or one
of the two infinities. -/
theorem Proper.add_cases (hx : Proper spec x) (hy : Proper spec y) :
    (x.isFinite = true ∧ y.isFinite = true) ∨
    (UnpackedFloat.add spec x y = .notANumber ∧ ∃ s, x = .infinity s ∧ y = .infinity (-s)) ∨
    ∃ s, UnpackedFloat.add spec x y = .infinity s ∧ (x = .infinity s ∨ y = .infinity s) ∧
      x ≠ .infinity (-s) ∧ y ≠ .infinity (-s) := by
  cases x with
  | notANumber => exact hx.elim
  | infinity s =>
    cases y with
    | notANumber => exact hy.elim
    | infinity s' =>
      cases s <;> cases s'
      · exact Or.inr (Or.inr ⟨_, rfl, Or.inl rfl, nofun, nofun⟩)
      · exact Or.inr (Or.inl ⟨rfl, _, rfl, rfl⟩)
      · exact Or.inr (Or.inl ⟨rfl, _, rfl, rfl⟩)
      · exact Or.inr (Or.inr ⟨_, rfl, Or.inl rfl, nofun, nofun⟩)
    | zero s' => cases s <;> exact Or.inr (Or.inr ⟨_, rfl, Or.inl rfl, nofun, nofun⟩)
    | finite s' n q' hn => cases s <;> exact Or.inr (Or.inr ⟨_, rfl, Or.inl rfl, nofun, nofun⟩)
  | zero s =>
    cases y with
    | notANumber => exact hy.elim
    | infinity s' => exact Or.inr (Or.inr ⟨_, rfl, Or.inr rfl, nofun, by cases s' <;> nofun⟩)
    | zero s' => exact Or.inl ⟨rfl, rfl⟩
    | finite s' n q' hn => exact Or.inl ⟨rfl, rfl⟩
  | finite s m q hm =>
    cases y with
    | notANumber => exact hy.elim
    | infinity s' => exact Or.inr (Or.inr ⟨_, rfl, Or.inr rfl, nofun, by cases s' <;> nofun⟩)
    | zero s' => exact Or.inl ⟨rfl, rfl⟩
    | finite s' n q' hn => exact Or.inl ⟨rfl, rfl⟩

/-- A mantissa with more digits. -/
theorem apply_decreaseExponent (s : Sign) (m : ℕ) (h : t ≤ e) :
    ((s.apply (decreaseExponent m e t).1 : ℤ) : ℚ) * 2 ^ t = signed s (m * 2 ^ e) := by
  have hvalue : (((m <<< (e - t).toNat : ℕ) : ℤ) : ℚ) * 2 ^ t = m * 2 ^ e := by
    rw [Nat.shiftLeft_eq]
    push_cast
    rw [mul_assoc, ← zpow_natCast, ← zpow_add₀ two_ne_zero]
    congr 2
    omega
  cases s
  · simp only [decreaseExponent, Sign.apply, signed, Int.cast_neg, neg_mul, hvalue]
  · simp only [decreaseExponent, Sign.apply, signed, hvalue]

theorem signed_neg (s : Sign) (v : ℚ) : signed (-s) v = -signed s v := by
  cases s
  · exact (neg_neg v).symm
  · rfl

theorem value_neg (spec : Format) (u : UnpackedFloat) : value spec u.neg = -value spec u := by
  cases u with
  | notANumber => exact neg_zero.symm
  | infinity s => exact signed_neg s _
  | zero s => exact neg_zero.symm
  | finite s m q hm => exact signed_neg s _

theorem Proper.neg (h : Proper spec u) : Proper spec u.neg := by
  cases u <;> exact h

theorem isFinite_neg (u : UnpackedFloat) : u.neg.isFinite = u.isFinite := by
  cases u <;> rfl

theorem sub_eq_add (spec : Format) (x y : UnpackedFloat) :
    UnpackedFloat.sub spec x y = UnpackedFloat.add spec x y.neg := by
  have hsign : ∀ (s : Sign) (a b : ℤ), a - s.apply b = a + (-s).apply b := fun s a b => by
    cases s
    · exact sub_neg_eq_add a b
    · exact sub_eq_add_neg a b
  cases x <;> cases y <;> try rfl
  simp only [UnpackedFloat.sub, UnpackedFloat.add, UnpackedFloat.neg, hsign]

theorem neg_eq_infinity {s : Sign} (h : u.neg = .infinity s) : u = .infinity (-s) := by
  cases u with
  | infinity s' =>
    obtain rfl : -s' = s := UnpackedFloat.infinity.inj h
    cases s' <;> rfl
  | notANumber => cases h
  | zero s' => cases h
  | finite s' m q hm => cases h

/-- The same for differences. -/
theorem Proper.sub_cases (hx : Proper spec x) (hy : Proper spec y) :
    (x.isFinite = true ∧ y.isFinite = true) ∨
    (UnpackedFloat.sub spec x y = .notANumber ∧ ∃ s, x = .infinity s ∧ y = .infinity s) ∨
    ∃ s, UnpackedFloat.sub spec x y = .infinity s ∧ (x = .infinity s ∨ y = .infinity (-s)) ∧
      x ≠ .infinity (-s) ∧ y ≠ .infinity s := by
  have hneg : ∀ s : Sign, - -s = s := fun s => by cases s <;> rfl
  rw [sub_eq_add]
  rcases hx.add_cases hy.neg with ⟨fx, fy⟩ | ⟨hnan, s, hs, hs'⟩ | ⟨s, hsum, hone, hx', hy'⟩
  · exact Or.inl ⟨fx, (isFinite_neg y).symm.trans fy⟩
  · exact Or.inr (Or.inl ⟨hnan, s, hs, (neg_eq_infinity hs').trans (congrArg _ (hneg s))⟩)
  · exact Or.inr (Or.inr ⟨s, hsum, hone.imp_right neg_eq_infinity, hx', fun h => hy' (by rw [h]; rfl)⟩)

section Operations

variable (hexp : 2 ≤ spec.exponentBits) (hx : Proper spec x) (hy : Proper spec y)
  (fx : x.isFinite = true) (fy : y.isFinite = true)

include hexp hx hy fx fy

theorem nearest_add : Nearest spec (value spec x + value spec y)
    (unpack spec (pack spec (UnpackedFloat.add spec x y))) := by
  cases x with
  | notANumber => exact hx.elim
  | infinity s => cases fx
  | zero s =>
    cases y with
    | notANumber => exact hy.elim
    | infinity s' => cases fy
    | zero s' =>
      have hzero : ∃ s'', UnpackedFloat.add spec (.zero s) (.zero s') = .zero s'' := by
        cases s <;> cases s' <;> exact ⟨_, rfl⟩
      obtain ⟨s'', hzero⟩ := hzero
      rw [hzero, unpack_pack_zero]
      exact (zero_add (0 : ℚ)).symm ▸ Nearest.self (u := .zero s'') trivial
    | finite s' n r hn =>
      rw [show value spec (.zero s) = 0 from rfl, zero_add]
      exact hy.nearest_pack
  | finite s m q hm =>
    cases y with
    | notANumber => exact hy.elim
    | infinity s' => cases fy
    | zero s' =>
      rw [show value spec (.zero s') = 0 from rfl, add_zero]
      exact hx.nearest_pack
    | finite s' n r hn =>
      have hsum := nearest_normalize hexp (s.apply (decreaseExponent m q (min q r)).1 +
        s'.apply (decreaseExponent n r (min q r)).1) (min q r) .positive
      rw [Int.cast_add, add_mul, apply_decreaseExponent s m (min_le_left q r),
        apply_decreaseExponent s' n (min_le_right q r)] at hsum
      exact hsum

theorem nearest_sub : Nearest spec (value spec x - value spec y)
    (unpack spec (pack spec (UnpackedFloat.sub spec x y))) := by
  rw [sub_eq_add, sub_eq_add_neg, ← value_neg]
  exact nearest_add hexp hx hy.neg fx ((isFinite_neg y).trans fy)

end Operations

theorem signed_mul (s s' : Sign) (v w : ℚ) : signed s v * signed s' w = signed (s * s') (v * w) := by
  cases s <;> cases s'
  · exact neg_mul_neg v w
  · exact neg_mul v w
  · exact mul_neg v w
  · rfl

theorem signed_div (s s' : Sign) (v w : ℚ) : signed s v / signed s' w = signed (s / s') (v / w) := by
  cases s <;> cases s'
  · exact neg_div_neg_eq v w
  · exact neg_div w v
  · exact div_neg v
  · rfl

/-- The product of two canonical numbers needs no digits below it. -/
theorem Canonical.stands_mul (h : Canonical spec m q) (k : Canonical spec n q') :
    Stands spec (m * n) (q + q') .exact (m * 2 ^ q * (n * 2 ^ q')) := by
  have hprod : (m : ℚ) * 2 ^ q * (n * 2 ^ q') = ((m * n : ℕ) : ℚ) * 2 ^ (q + q') := by
    rw [zpow_add₀ two_ne_zero]
    push_cast
    ring
  rw [hprod]
  refine stands_exact (Nat.mul_pos h.pos k.pos) ?_
  have hp := mantissaBits_eq spec
  rw [Format.targetExponent, totalExponent]
  by_cases hfull : 2 ^ spec.mantissaBitsWithoutImplicit ≤ m * n
  · have hlog := (Nat.le_log2 (Nat.mul_pos h.pos k.pos).ne').2 hfull
    omega
  · -- both mantissas are short, so both exponents are the least one, which is not positive
    have hm : ¬ 2 ^ spec.mantissaBitsWithoutImplicit ≤ m := fun hle =>
      hfull (hle.trans (Nat.le_mul_of_pos_right m k.pos))
    have hn : ¬ 2 ^ spec.mantissaBitsWithoutImplicit ≤ n := fun hle =>
      hfull (hle.trans (Nat.le_mul_of_pos_left n h.pos))
    have hq := h.full.resolve_right hm
    have hr := k.full.resolve_right hn
    have hmin := minExponent_eq spec
    have hbits := spec.hm
    omega

/-- A quotient is larger than the difference of the total exponents says. -/
theorem lt_quotient (hm : 0 < m) (hn : 0 < n) (q q' : ℤ) :
    (2 : ℚ) ^ (totalExponent m q - totalExponent n q' - 1) < m * 2 ^ q / (n * 2 ^ q') := by
  have hnq : (0 : ℚ) < n := by exact_mod_cast hn
  have hlow : (2 : ℚ) ^ (m.log2 : ℤ) ≤ m := by
    rw [zpow_natCast]
    exact_mod_cast Nat.log2_self_le hm.ne'
  have hhigh : (n : ℚ) < 2 ^ ((n.log2 : ℤ) + 1) := by
    have hnat : n < 2 ^ (n.log2 + 1) := Nat.lt_log2_self
    exact_mod_cast hnat
  rw [lt_div_iff₀ (by positivity)]
  calc (2 : ℚ) ^ (totalExponent m q - totalExponent n q' - 1) * (n * 2 ^ q')
      < 2 ^ (totalExponent m q - totalExponent n q' - 1) * (2 ^ ((n.log2 : ℤ) + 1) * 2 ^ q') := by
        gcongr
    _ = 2 ^ (m.log2 : ℤ) * 2 ^ q := by
        rw [← zpow_add₀ two_ne_zero, ← zpow_add₀ two_ne_zero, ← zpow_add₀ two_ne_zero]
        congr 1
        rw [totalExponent, totalExponent]
        ring
    _ ≤ m * 2 ^ q := by gcongr

/-- Division is exact up to the accuracy that comes with the quotient. -/
theorem represents_divCore (hn : 0 < n) (ht : min (q - q')
      (spec.targetExponent (totalExponent m q - totalExponent n q')) = t) :
    ∃ M acc, divCore spec m q n q' = (M, t, acc) ∧
      Represents (ExtendedMantissa.ofMantissaAndAccuracy M acc) (m * 2 ^ q / (n * 2 ^ q') / 2 ^ t) := by
  have hle : t ≤ q - q' := ht ▸ min_le_left _ _
  obtain ⟨k, hk⟩ : ∃ k, (q - q' - t).toNat = k := ⟨_, rfl⟩
  refine ⟨(m <<< k) / n, accuracyOfFraction (m <<< k % n) n, by simp only [divCore, ht, hk], ?_⟩
  have hvalue : (m : ℚ) * 2 ^ q / (n * 2 ^ q') / 2 ^ t = ((m <<< k : ℕ) : ℚ) / n := by
    have hsplit : (2 : ℚ) ^ q = 2 ^ k * (2 ^ q' * 2 ^ t) := by
      rw [← zpow_natCast, ← zpow_add₀ two_ne_zero, ← zpow_add₀ two_ne_zero]
      congr 1
      omega
    rw [Nat.shiftLeft_eq, hsplit]
    push_cast
    field_simp
  rw [hvalue]
  exact represents_quotient _ hn

/-- A value that is less than one unit is rounded correctly, if the unit is no larger than the least. -/
theorem Represents.nearest_of_mantissa_zero (hexp : 2 ≤ spec.exponentBits) {acc : Accuracy}
    (h : Represents (ExtendedMantissa.ofMantissaAndAccuracy 0 acc) (v / 2 ^ t)) (hv : 0 ≤ v)
    (ht : t ≤ spec.minExponent) :
    Nearest spec (signed s v) (unpack spec (pack spec (roundWithAccuracy spec s 0 t acc))) := by
  have hunit : (0 : ℚ) < 2 ^ t := by positivity
  have hleast : (0 : ℚ) < 2 ^ spec.minExponent := by positivity
  have hp := mantissaBits_eq spec
  have hbelow := h.bounds.2
  rw [mantissa_ofMantissaAndAccuracy, div_lt_iff₀ hunit, Nat.cast_zero, zero_add, one_mul] at hbelow
  have hzero : spec.targetExponent (totalExponent 0 t) = spec.minExponent := by
    rw [Format.targetExponent, totalExponent, Nat.log2_zero]
    omega
  obtain ⟨em, hshift, hem⟩ := h.shiftToTargetExponent (hzero ▸ ht) hzero
  refine Scaled.nearest_round hexp ⟨hv, le_rfl, Or.inl rfl, ?_⟩ hshift hem
  rw [div_lt_iff₀ hleast]
  calc v < 2 ^ t := hbelow
    _ ≤ 2 ^ spec.minExponent := (zpow_le_zpow_iff_right₀ one_lt_two).2 ht
    _ ≤ 2 ^ spec.mantissaBits * 2 ^ spec.minExponent :=
      le_mul_of_one_le_left hleast.le (one_le_pow₀ one_le_two)

/-- Quotients are rounded correctly, also those that are too small for a digit. -/
theorem nearest_divCore (hexp : 2 ≤ spec.exponentBits) (hm : 0 < m) (hn : 0 < n) (q q' : ℤ) :
    Nearest spec (signed s (m * 2 ^ q / (n * 2 ^ q'))) (unpack spec (pack spec
      (roundWithAccuracy spec s (divCore spec m q n q').1 (divCore spec m q n q').2.1
        (divCore spec m q n q').2.2))) := by
  obtain ⟨t, ht⟩ : ∃ t, min (q - q')
    (spec.targetExponent (totalExponent m q - totalExponent n q')) = t := ⟨_, rfl⟩
  obtain ⟨M, acc, hcore, hrep⟩ := represents_divCore hn ht
  have hunit : (0 : ℚ) < 2 ^ t := by positivity
  have hlarge := lt_quotient hm hn q q'
  obtain ⟨v, hv⟩ : ∃ v, (m : ℚ) * 2 ^ q / (n * 2 ^ q') = v := ⟨_, rfl⟩
  rw [hv] at hrep hlarge ⊢
  rw [hcore]
  have hp := mantissaBits_eq spec
  have hbelow := hrep.bounds.2
  rw [mantissa_ofMantissaAndAccuracy, div_lt_iff₀ hunit] at hbelow
  have htarget : t ≤ spec.targetExponent (totalExponent m q - totalExponent n q') :=
    ht ▸ min_le_right _ _
  rw [Format.targetExponent] at htarget
  rcases M.eq_zero_or_pos with rfl | hM
  · rw [Nat.cast_zero, zero_add, one_mul] at hbelow
    have htotal := (zpow_lt_zpow_iff_right₀ one_lt_two).1 (hlarge.trans hbelow)
    exact hrep.nearest_of_mantissa_zero hexp (hv ▸ by positivity) (by omega)
  · have hlog : (M : ℚ) + 1 ≤ 2 ^ ((M.log2 : ℤ) + 1) := by
      have hnat : M + 1 ≤ 2 ^ (M.log2 + 1) := Nat.lt_log2_self
      exact_mod_cast hnat
    have habove : v < 2 ^ totalExponent M t := by
      refine hbelow.trans_le ?_
      rw [totalExponent, zpow_add₀ two_ne_zero]
      gcongr
    have htotal := (zpow_lt_zpow_iff_right₀ one_lt_two).1 (hlarge.trans habove)
    refine Stands.nearest hexp ⟨hM, hrep, ?_⟩
    change t ≤ spec.targetExponent (totalExponent M t)
    rw [Format.targetExponent]
    omega

section Operations

variable (hexp : 2 ≤ spec.exponentBits) (hx : Proper spec x) (hy : Proper spec y)

include hexp hx hy

theorem nearest_mul (fx : x.isFinite = true) (fy : y.isFinite = true) :
    Nearest spec (value spec x * value spec y)
      (unpack spec (pack spec (UnpackedFloat.mul spec x y))) := by
  have hzero : ∀ s, Nearest spec 0 (unpack spec (pack spec (.zero s))) := fun s =>
    Proper.nearest_pack (u := .zero s) trivial
  cases x with
  | notANumber => exact hx.elim
  | infinity s => cases fx
  | zero s =>
    rw [show value spec (.zero s) = 0 from rfl, zero_mul]
    cases y with
    | notANumber => exact hy.elim
    | infinity s' => cases fy
    | zero s' => exact hzero _
    | finite s' n r hn => exact hzero _
  | finite s m q hm =>
    cases y with
    | notANumber => exact hy.elim
    | infinity s' => cases fy
    | zero s' =>
      rw [show value spec (.zero s') = 0 from rfl, mul_zero]
      exact hzero _
    | finite s' n r hn =>
      rw [value, value, signed_mul]
      exact (hx.1.stands_mul hy.1).nearest hexp

theorem nearest_div (fx : x.isFinite = true) (fy : y.isFinite = true) (hne : value spec y ≠ 0) :
    Nearest spec (value spec x / value spec y)
      (unpack spec (pack spec (UnpackedFloat.div spec x y))) := by
  cases y with
  | notANumber => exact hy.elim
  | infinity s' => cases fy
  | zero s' => exact absurd rfl hne
  | finite s' n q' hn =>
    cases x with
    | notANumber => exact hx.elim
    | infinity s => cases fx
    | zero s =>
      rw [show value spec (.zero s) = 0 from rfl, zero_div]
      exact Proper.nearest_pack (u := .zero (s / s')) trivial
    | finite s m q hm =>
      rw [value, value, signed_div]
      exact nearest_divCore hexp hm hn q q'

end Operations

end NeuralFlow.Binary
