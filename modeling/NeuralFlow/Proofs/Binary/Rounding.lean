import Mathlib
import NeuralFlow.Decimal.Shortest

/-! Rounding to a binary format. A mantissa with a round bit and a sticky bit stands for an exact
number, which shifts keep in view; rounding it gives the nearest whole number, the even one of two.
So a number in the interval of a float rounds to that float, and no normal number is moved by more
than half a unit. -/

namespace NeuralFlow.Binary

open Float.Model Float.Model.UnpackedFloat

/-- The exact number that a mantissa with its two bits stands for. -/
def Represents (em : ExtendedMantissa) (x : ℚ) : Prop :=
  match em with
  | ⟨m, false, false⟩ => x = m
  | ⟨m, false, true⟩ => m < x ∧ x < m + 1 / 2
  | ⟨m, true, false⟩ => x = m + 1 / 2
  | ⟨m, true, true⟩ => m + 1 / 2 < x ∧ x < m + 1

structure NearestEven (x : ℚ) (r : ℕ) : Prop where
  near : |x - r| ≤ 1 / 2
  even : |x - r| = 1 / 2 → r % 2 = 0

theorem NearestEven.unique {x : ℚ} {r s : ℕ} (hr : NearestEven x r) (hs : NearestEven x s) :
    r = s := by
  wlog h : r < s generalizing r s
  · rcases not_lt.1 h |>.lt_or_eq with h | h
    · exact (this hs hr h).symm
    · exact h.symm
  -- two different numbers must be neighbours with `x` half way between, and both even
  have hle : (r : ℚ) + 1 ≤ s := by exact_mod_cast h
  have hr' := abs_le.1 hr.near
  have hs' := abs_le.1 hs.near
  have hx : x = r + 1 / 2 := by linarith
  have hsr : (s : ℚ) = r + 1 := by linarith
  have hreven := hr.even (by rw [hx]; norm_num)
  have hseven := hs.even (by rw [hx, hsr]; norm_num)
  have : s = r + 1 := by exact_mod_cast hsr
  omega

namespace Represents

variable {em : ExtendedMantissa} {x : ℚ}

theorem bounds (h : Represents em x) : em.mantissa ≤ x ∧ x < em.mantissa + 1 := by
  obtain ⟨m, r, s⟩ := em
  cases r <;> cases s <;> simp only [Represents] at h ⊢ <;> constructor <;> linarith

theorem nearestEven (h : Represents em x) : NearestEven x em.roundedMantissa := by
  obtain ⟨m, r, s⟩ := em
  cases r <;> cases s <;>
    simp only [Represents, ExtendedMantissa.roundedMantissa, ExtendedMantissa.accuracy,
      Accuracy.roundToNearestEven] at h ⊢
  · subst h
    constructor <;> norm_num
  · have habs : |x - m| < 1 / 2 := by rw [abs_lt]; constructor <;> linarith
    exact ⟨habs.le, fun h => absurd h habs.ne⟩
  · subst h
    rcases Nat.mod_two_eq_zero_or_one m with hm | hm
    · rw [hm]
      exact ⟨by norm_num, fun _ => by omega⟩
    · rw [hm]
      refine ⟨?_, fun _ => by omega⟩
      push_cast
      rw [show (m : ℚ) + 1 / 2 - (m + 1) = -(1 / 2) by ring, abs_neg]
      norm_num
  · have habs : |x - ((m + 1 : ℕ) : ℚ)| < 1 / 2 := by
      push_cast
      rw [abs_lt]
      constructor <;> linarith
    exact ⟨habs.le, fun h => absurd h habs.ne⟩

theorem shiftRightOne (h : Represents em x) : Represents em.shiftRightOne (x / 2) := by
  obtain ⟨m, r, s⟩ := em
  have hm : (m : ℚ) = 2 * ((m / 2 : ℕ) : ℚ) + ((m % 2 : ℕ) : ℚ) := by
    exact_mod_cast (Nat.div_add_mod m 2).symm
  rcases Nat.mod_two_eq_zero_or_one m with hodd | hodd <;> rw [hodd] at hm <;> push_cast at hm <;>
    cases r <;> cases s <;>
    simp only [Represents, ExtendedMantissa.shiftRightOne, hodd, Nat.reduceBNe, Bool.or_false,
      Bool.or_true] at h ⊢ <;>
    first | linarith | (constructor <;> linarith)

theorem shiftRight (h : Represents em x) (k : ℕ) : Represents (em >>> k) (x / 2 ^ k) := by
  change Represents (k.repeat ExtendedMantissa.shiftRightOne em) _
  induction k with
  | zero => simpa [Nat.repeat] using h
  | succ k ih =>
    rw [pow_succ, ← div_div]
    exact ih.shiftRightOne

end Represents

/-- The accuracy of a quotient says where it lies between two whole numbers. -/
theorem represents_quotient (m : ℕ) {n : ℕ} (hn : 0 < n) :
    Represents (ExtendedMantissa.ofMantissaAndAccuracy (m / n) (accuracyOfFraction (m % n) n))
      ((m : ℚ) / n) := by
  have hnq : (0 : ℚ) < n := by exact_mod_cast hn
  have hdiv : (m : ℚ) = n * ((m / n : ℕ) : ℚ) + ((m % n : ℕ) : ℚ) := by
    exact_mod_cast (Nat.div_add_mod m n).symm
  have hlt : ((m % n : ℕ) : ℚ) < n := by exact_mod_cast Nat.mod_lt m hn
  have hquot : (m : ℚ) / n = ((m / n : ℕ) : ℚ) + ((m % n : ℕ) : ℚ) / n := by
    rw [div_eq_iff hnq.ne', add_mul, div_mul_cancel₀ _ hnq.ne', mul_comm, ← hdiv]
  rw [hquot]
  unfold accuracyOfFraction
  split_ifs with hzero
  · simp [ExtendedMantissa.ofMantissaAndAccuracy, Represents, hzero]
  · have hpos : (0 : ℚ) < ((m % n : ℕ) : ℚ) / n :=
      div_pos (by exact_mod_cast Nat.pos_of_ne_zero hzero) hnq
    rcases lt_trichotomy (2 * (m % n)) n with hcmp | hcmp | hcmp
    · have hhalf : ((m % n : ℕ) : ℚ) / n < 1 / 2 := by
        rw [div_lt_iff₀ hnq]
        have : (2 : ℚ) * ((m % n : ℕ) : ℚ) < n := by exact_mod_cast hcmp
        linarith
      rw [Nat.compare_eq_lt.2 hcmp]
      exact ⟨by linarith, by linarith⟩
    · have hhalf : ((m % n : ℕ) : ℚ) / n = 1 / 2 := by
        rw [div_eq_iff hnq.ne']
        have : (2 : ℚ) * ((m % n : ℕ) : ℚ) = n := by exact_mod_cast hcmp
        linarith
      rw [Nat.compare_eq_eq.2 hcmp, hhalf]
      rfl
    · have hhalf : 1 / 2 < ((m % n : ℕ) : ℚ) / n := by
        rw [lt_div_iff₀ hnq]
        have : (n : ℚ) < 2 * ((m % n : ℕ) : ℚ) := by exact_mod_cast hcmp
        linarith
      have hone : ((m % n : ℕ) : ℚ) / n < 1 := (div_lt_one hnq).2 hlt
      rw [Nat.compare_eq_gt.2 hcmp]
      exact ⟨by linarith, by linarith⟩

/-! Numbers in the form that packing expects. -/

variable {spec : Format}

/-- A mantissa of full length, or with the least exponent. -/
structure Canonical (spec : Format) (m : ℕ) (q : ℤ) : Prop where
  pos : 0 < m
  lt : m < 2 ^ spec.mantissaBits
  min : spec.minExponent ≤ q
  full : q = spec.minExponent ∨ 2 ^ spec.mantissaBitsWithoutImplicit ≤ m

theorem mantissaBits_eq (spec : Format) :
    spec.mantissaBits = spec.mantissaBitsWithoutImplicit + 1 := by
  rw [Format.mantissaBits, Nat.add_comm]

theorem two_pow_mantissaBits (spec : Format) :
    2 ^ spec.mantissaBits = 2 * 2 ^ spec.mantissaBitsWithoutImplicit := by
  rw [mantissaBits_eq, pow_succ, Nat.mul_comm]

/-- A mantissa that is not too long stays where it is. -/
theorem shiftToTargetExponent_of_lt {m : ℕ} {q : ℤ} (hm : m < 2 ^ spec.mantissaBits)
    (hq : spec.minExponent ≤ q) :
    shiftToTargetExponent spec m q .exact = (⟨m, false, false⟩, q) := by
  have hlog : m.log2 < spec.mantissaBits := by
    by_cases hz : m = 0
    · subst hz
      simp [Format.mantissaBits]
    · exact (Nat.log2_lt hz).2 hm
  have hshift : (spec.targetExponent (totalExponent m q) - q).toNat = 0 := by
    rw [Format.targetExponent, totalExponent]
    omega
  simp only [shiftToTargetExponent, shiftToExponent, hshift]
  simp [ExtendedMantissa.ofMantissaAndAccuracy, HShiftRight.hShiftRight, Nat.repeat]

/-- A mantissa that rounding made one digit too long is halved. -/
theorem shiftToTargetExponent_of_carry {q : ℤ} (hq : spec.minExponent ≤ q) :
    shiftToTargetExponent spec (2 ^ spec.mantissaBits) q .exact =
      (⟨2 ^ spec.mantissaBitsWithoutImplicit, false, false⟩, q + 1) := by
  have ht : spec.targetExponent (totalExponent (2 ^ spec.mantissaBits) q) = q + 1 := by
    rw [Format.targetExponent, totalExponent, Nat.log2_two_pow]
    omega
  simp only [shiftToTargetExponent, ht, shiftToExponent, show (q + 1 - q).toNat = 1 by omega]
  simp [ExtendedMantissa.ofMantissaAndAccuracy, HShiftRight.hShiftRight, Nat.repeat,
    ExtendedMantissa.shiftRightOne, two_pow_mantissaBits]

/-! The first of the two shifts. -/

section First

variable {s : Sign} {m : ℕ} {e : ℤ} {acc : Accuracy} {v : ℚ}

/-- A mantissa with its accuracy and exponent stands for the number `v`. The mantissa is not zero,
and rounding will only shift it to the right. -/
structure Stands (spec : Format) (m : ℕ) (e : ℤ) (acc : Accuracy) (v : ℚ) : Prop where
  pos : 0 < m
  represents : Represents (ExtendedMantissa.ofMantissaAndAccuracy m acc) (v / 2 ^ e)
  fine : e ≤ spec.targetExponent (totalExponent m e)

/-- After the shift the mantissa stands for the number in units of the target exponent. -/
theorem Represents.shiftToTargetExponent
    (h : Represents (ExtendedMantissa.ofMantissaAndAccuracy m acc) (v / 2 ^ e))
    (hfine : e ≤ spec.targetExponent (totalExponent m e)) {t : ℤ}
    (ht : spec.targetExponent (totalExponent m e) = t) :
    ∃ em, UnpackedFloat.shiftToTargetExponent spec m e acc = (em, t) ∧ Represents em (v / 2 ^ t) := by
  have hle : e ≤ t := ht ▸ hfine
  refine ⟨ExtendedMantissa.ofMantissaAndAccuracy m acc >>> (t - e).toNat, ?_, ?_⟩
  · simp only [UnpackedFloat.shiftToTargetExponent, ht, shiftToExponent, Prod.mk.injEq, true_and]
    omega
  · have hsplit : (2 : ℚ) ^ t = 2 ^ e * 2 ^ (t - e).toNat := by
      rw [← zpow_natCast, ← zpow_add₀ two_ne_zero]
      congr 1
      omega
    rw [hsplit, ← div_div]
    exact h.shiftRight _

theorem mantissa_ofMantissaAndAccuracy (m : ℕ) (acc : Accuracy) :
    (ExtendedMantissa.ofMantissaAndAccuracy m acc).mantissa = m := by
  unfold ExtendedMantissa.ofMantissaAndAccuracy
  split <;> rfl

namespace Stands

/-- The number lies between the powers of two that its total exponent says. -/
theorem bounds (h : Stands spec m e acc v) :
    (2 : ℚ) ^ (totalExponent m e - 1) ≤ v ∧ v < (2 : ℚ) ^ totalExponent m e := by
  obtain ⟨hlo, hhi⟩ := h.represents.bounds
  rw [mantissa_ofMantissaAndAccuracy] at hlo hhi
  have he : (0 : ℚ) < 2 ^ e := by positivity
  rw [le_div_iff₀ he] at hlo
  rw [div_lt_iff₀ he] at hhi
  have hlog : (2 : ℚ) ^ (m.log2 : ℤ) ≤ m := by
    rw [zpow_natCast]
    exact_mod_cast Nat.log2_self_le h.pos.ne'
  have hlog' : (m : ℚ) + 1 ≤ 2 ^ ((m.log2 : ℤ) + 1) := by
    have hnat : m + 1 ≤ 2 ^ (m.log2 + 1) := Nat.lt_log2_self
    exact_mod_cast hnat
  constructor
  · calc (2 : ℚ) ^ (totalExponent m e - 1) = 2 ^ (m.log2 : ℤ) * 2 ^ e := by
          rw [← zpow_add₀ two_ne_zero]; congr 1; rw [totalExponent]; ring
      _ ≤ m * 2 ^ e := by gcongr
      _ ≤ v := hlo
  · calc v < (m + 1) * 2 ^ e := hhi
      _ ≤ 2 ^ ((m.log2 : ℤ) + 1) * 2 ^ e := by gcongr
      _ = (2 : ℚ) ^ totalExponent m e := by rw [← zpow_add₀ two_ne_zero, totalExponent]

theorem shift (h : Stands spec m e acc v) {t : ℤ} (ht : spec.targetExponent (totalExponent m e) = t) :
    ∃ em, shiftToTargetExponent spec m e acc = (em, t) ∧ Represents em (v / 2 ^ t) :=
  h.represents.shiftToTargetExponent h.fine ht

/-- The nearest whole number of units is the new mantissa. -/
theorem round_of_lt (h : Stands spec m e acc v) {t : ℤ}
    (ht : spec.targetExponent (totalExponent m e) = t) {r : ℕ} (hr : NearestEven (v / 2 ^ t) r)
    (hpos : 0 < r) (hlt : r < 2 ^ spec.mantissaBits) :
    ∃ hr, roundWithAccuracy spec s m e acc = .finite s r t hr := by
  obtain ⟨em, hshift, hem⟩ := h.shift ht
  have hround : em.roundedMantissa = r := hem.nearestEven.unique hr
  have hmin : spec.minExponent ≤ t := ht ▸ le_max_right _ _
  refine ⟨hpos, ?_⟩
  simp only [roundWithAccuracy, hshift, hround, shiftToTargetExponent_of_lt hlt hmin, hpos.ne',
    dif_neg, not_false_eq_true]

/-- If the nearest number of units has one digit too many, the exponent grows. -/
theorem round_of_carry (h : Stands spec m e acc v) {t : ℤ}
    (ht : spec.targetExponent (totalExponent m e) = t)
    (hr : NearestEven (v / 2 ^ t) (2 ^ spec.mantissaBits)) :
    ∃ hr, roundWithAccuracy spec s m e acc =
      .finite s (2 ^ spec.mantissaBitsWithoutImplicit) (t + 1) hr := by
  obtain ⟨em, hshift, hem⟩ := h.shift ht
  have hround : em.roundedMantissa = 2 ^ spec.mantissaBits := hem.nearestEven.unique hr
  have hmin : spec.minExponent ≤ t := ht ▸ le_max_right _ _
  have hpos : 0 < 2 ^ spec.mantissaBitsWithoutImplicit := by positivity
  refine ⟨hpos, ?_⟩
  simp only [roundWithAccuracy, hshift, hround, shiftToTargetExponent_of_carry hmin, hpos.ne',
    dif_neg, not_false_eq_true]

end Stands

end First

end NeuralFlow.Binary

namespace NeuralFlow

def Decimal.Interval.Contains (i : Decimal.Interval) (v : ℚ) : Prop :=
  if i.closed then i.lower * 2 ^ i.exponent ≤ v ∧ v ≤ i.upper * 2 ^ i.exponent
  else i.lower * 2 ^ i.exponent < v ∧ v < i.upper * 2 ^ i.exponent

theorem Decimal.Interval.Contains.bounds {i : Decimal.Interval} {v : ℚ} (h : i.Contains v) :
    i.lower * 2 ^ i.exponent ≤ v ∧ v ≤ i.upper * 2 ^ i.exponent := by
  unfold Contains at h
  split_ifs at h
  · exact h
  · exact ⟨h.1.le, h.2.le⟩

namespace Binary

open Float.Model Float.Model.UnpackedFloat Decimal

variable {spec : Format} {s : Sign} {m M : ℕ} {e q : ℤ} {acc : Accuracy} {v : ℚ}

theorem two_zpow_sub_two (q : ℤ) : (2 : ℚ) ^ q = 4 * 2 ^ (q - 2) := by
  rw [zpow_sub₀ two_ne_zero]
  norm_num
  ring

theorem sub_two_le_lower (spec : Format) (hM : 0 < M) (q : ℤ) :
    (4 * M - 2 : ℚ) ≤ (Interval.ofBinary spec M q).lower := by
  simp only [Interval.ofBinary]
  split_ifs
  · rw [Nat.cast_sub (by omega)]; push_cast; linarith
  · rw [Nat.cast_sub (by omega)]; push_cast; linarith

/-- In quarters of a unit a number of the interval lies at most two from four times the mantissa,
and the ends belong to even mantissas. -/
theorem nearestEven_of_contains (hc : Canonical spec M q)
    (hv : (Interval.ofBinary spec M q).Contains v) : NearestEven (v / 2 ^ q) M := by
  have hunit : (0 : ℚ) < 2 ^ (q - 2) := by positivity
  obtain ⟨x, rfl⟩ : ∃ x, v = x * 2 ^ (q - 2) :=
    ⟨v / 2 ^ (q - 2), by rw [div_mul_cancel₀ _ hunit.ne']⟩
  have hx : x * 2 ^ (q - 2) / 2 ^ q = x / 4 := by
    rw [two_zpow_sub_two q, mul_div_mul_right _ _ hunit.ne']
  have hlower := sub_two_le_lower spec hc.pos q
  have hupper : ((Interval.ofBinary spec M q).upper : ℚ) = 4 * M + 2 := by simp [Interval.ofBinary]
  have hexp : (Interval.ofBinary spec M q).exponent = q - 2 := rfl
  obtain ⟨hlo, hhi⟩ := hv.bounds
  rw [hexp, mul_le_mul_iff_left₀ hunit] at hlo hhi
  rw [hx]
  refine ⟨abs_le.2 ⟨by linarith, by linarith⟩, fun htie => ?_⟩
  by_contra hodd
  -- an odd mantissa has an open interval, and a tie lies on one of its ends
  have hopen : ¬ (Interval.ofBinary spec M q).closed = true := by
    simpa [Interval.ofBinary] using hodd
  rw [Interval.Contains, if_neg hopen, hexp, mul_lt_mul_iff_left₀ hunit,
    mul_lt_mul_iff_left₀ hunit] at hv
  have habs : |x / 4 - M| < 1 / 2 := abs_lt.2 ⟨by linarith [hv.1], by linarith [hv.2]⟩
  exact habs.ne htie

theorem Stands.totalExponent_le (h : Stands spec m e acc v) (hc : Canonical spec M q)
    (hv : (Interval.ofBinary spec M q).Contains v) : totalExponent m e ≤ spec.mantissaBits + q := by
  have hunit : (0 : ℚ) < 2 ^ (q - 2) := by positivity
  have hlt := hc.lt
  have hbelow : v < 2 ^ ((spec.mantissaBits : ℤ) + q) := by
    rw [zpow_add₀ two_ne_zero, two_zpow_sub_two q, zpow_natCast, ← mul_assoc]
    refine hv.bounds.2.trans_lt (mul_lt_mul_of_pos_right ?_ hunit)
    have : 4 * M + 2 < 2 ^ spec.mantissaBits * 4 := by omega
    exact_mod_cast this
  have := (zpow_lt_zpow_iff_right₀ one_lt_two).1 (h.bounds.1.trans_lt hbelow)
  omega

theorem lower_ofBinary_power (hq : spec.minExponent < q) :
    ((Interval.ofBinary spec (2 ^ spec.mantissaBitsWithoutImplicit) q).lower : ℚ) =
      4 * 2 ^ spec.mantissaBitsWithoutImplicit - 1 := by
  have hpos : 1 ≤ 2 ^ spec.mantissaBitsWithoutImplicit := Nat.one_le_two_pow
  simp only [Interval.ofBinary]
  rw [if_pos ⟨rfl, hq⟩, Nat.cast_sub (by omega)]
  push_cast
  ring

/-- Only the interval of the shortest full mantissa reaches below that mantissa. -/
theorem eq_power_of_contains (hM : 2 ^ spec.mantissaBitsWithoutImplicit ≤ M)
    (hv : (Interval.ofBinary spec M q).Contains v)
    (hbelow : v < 2 ^ spec.mantissaBitsWithoutImplicit * 2 ^ q) :
    M = 2 ^ spec.mantissaBitsWithoutImplicit := by
  have hunit : (0 : ℚ) < 2 ^ (q - 2) := by positivity
  rw [two_zpow_sub_two q, ← mul_assoc] at hbelow
  have hlower : (Interval.ofBinary spec M q).lower < 2 ^ spec.mantissaBitsWithoutImplicit * 4 := by
    have := lt_of_mul_lt_mul_right (hv.bounds.1.trans_lt hbelow) hunit.le
    exact_mod_cast this
  by_contra hne
  have hnot : ¬ (M = Nat.pow 2 spec.mantissaBitsWithoutImplicit ∧ spec.minExponent < q) :=
    fun hand => hne hand.1
  simp only [Interval.ofBinary, if_neg hnot] at hlower
  omega

section Power

/-! A number just below a power of two is rounded in half units, up to that power. -/

variable (hlo : (4 * 2 ^ spec.mantissaBitsWithoutImplicit - 1 : ℚ) * 2 ^ (q - 2) ≤ v)
  (hbelow : v < 2 ^ spec.mantissaBitsWithoutImplicit * 2 ^ q)

include hlo hbelow

theorem Stands.totalExponent_eq_of_power (h : Stands spec m e acc v) :
    totalExponent m e = spec.mantissaBitsWithoutImplicit + q := by
  have hone : (1 : ℚ) ≤ 2 ^ spec.mantissaBitsWithoutImplicit := by exact_mod_cast Nat.one_le_two_pow
  have hup : (2 : ℚ) ^ (totalExponent m e - 1) <
      2 ^ ((spec.mantissaBitsWithoutImplicit : ℤ) + q) := by
    rw [zpow_add₀ two_ne_zero, zpow_natCast]
    exact h.bounds.1.trans_lt hbelow
  have hdown : (2 : ℚ) ^ ((spec.mantissaBitsWithoutImplicit : ℤ) + q - 1) <
      2 ^ totalExponent m e := by
    refine lt_of_le_of_lt ?_ (hlo.trans_lt h.bounds.2)
    rw [add_sub_assoc, zpow_add₀ two_ne_zero, zpow_natCast, show q - 1 = q - 2 + 1 by ring,
      zpow_add_one₀ two_ne_zero, mul_comm _ (2 : ℚ), ← mul_assoc]
    gcongr
    linarith
  have := (zpow_lt_zpow_iff_right₀ one_lt_two).1 hup
  have := (zpow_lt_zpow_iff_right₀ one_lt_two).1 hdown
  omega

theorem nearestEven_of_power : NearestEven (v / 2 ^ (q - 1)) (2 ^ spec.mantissaBits) := by
  have hunit : (0 : ℚ) < 2 ^ (q - 2) := by positivity
  obtain ⟨x, rfl⟩ : ∃ x, v = x * 2 ^ (q - 2) :=
    ⟨v / 2 ^ (q - 2), by rw [div_mul_cancel₀ _ hunit.ne']⟩
  have hx : x * 2 ^ (q - 2) / 2 ^ (q - 1) = x / 2 := by
    rw [show q - 1 = q - 2 + 1 by ring, zpow_add_one₀ two_ne_zero, mul_comm _ (2 : ℚ),
      mul_div_mul_right _ _ hunit.ne']
  rw [two_zpow_sub_two q, ← mul_assoc, mul_lt_mul_iff_left₀ hunit] at hbelow
  rw [mul_le_mul_iff_left₀ hunit] at hlo
  rw [hx, two_pow_mantissaBits]
  refine ⟨?_, fun _ => by omega⟩
  push_cast
  rw [abs_le]
  constructor <;> linarith

theorem Stands.round_of_power (h : Stands spec m e acc v) (hq : spec.minExponent < q) :
    ∃ hM, roundWithAccuracy spec s m e acc =
      .finite s (2 ^ spec.mantissaBitsWithoutImplicit) q hM := by
  have hexp := h.totalExponent_eq_of_power hlo hbelow
  have ht : spec.targetExponent (totalExponent m e) = q - 1 := by
    have hp := mantissaBits_eq spec
    rw [Format.targetExponent]
    omega
  obtain ⟨hr, hround⟩ := h.round_of_carry (s := s) ht (nearestEven_of_power hlo hbelow)
  rw [sub_add_cancel] at hround
  exact ⟨hr, hround⟩

end Power

/-- A number in the interval of a float rounds to that float. -/
theorem Stands.round_of_contains (h : Stands spec m e acc v) (hc : Canonical spec M q)
    (hv : (Interval.ofBinary spec M q).Contains v) :
    ∃ hM, roundWithAccuracy spec s m e acc = .finite s M q hM := by
  have hp : (spec.mantissaBits : ℤ) = spec.mantissaBitsWithoutImplicit + 1 := by
    exact_mod_cast mantissaBits_eq spec
  have hupper := h.totalExponent_le hc hv
  have hmin := hc.min
  by_cases hcase : totalExponent m e = spec.mantissaBits + q ∨ q = spec.minExponent
  · have ht : spec.targetExponent (totalExponent m e) = q := by
      rw [Format.targetExponent]
      omega
    exact h.round_of_lt ht (nearestEven_of_contains hc hv) hc.pos hc.lt
  · obtain ⟨hne, hq⟩ := not_or.1 hcase
    have hbelow : v < 2 ^ spec.mantissaBitsWithoutImplicit * 2 ^ q := by
      have hexp : totalExponent m e ≤ spec.mantissaBitsWithoutImplicit + q := by omega
      refine h.bounds.2.trans_le (((zpow_le_zpow_iff_right₀ one_lt_two).2 hexp).trans_eq ?_)
      rw [zpow_add₀ two_ne_zero, zpow_natCast]
    obtain rfl := eq_power_of_contains (hc.full.resolve_left hq) hv hbelow
    have hlo := hv.bounds.1
    rw [lower_ofBinary_power (by omega)] at hlo
    exact h.round_of_power hlo hbelow (by omega)

theorem Stands.unit_bounds (h : Stands spec m e acc v) {t : ℤ}
    (ht : totalExponent m e = t + spec.mantissaBits) :
    (2 : ℚ) ^ spec.mantissaBitsWithoutImplicit ≤ v / 2 ^ t ∧ v / 2 ^ t < 2 ^ spec.mantissaBits := by
  have hp : (spec.mantissaBits : ℤ) = spec.mantissaBitsWithoutImplicit + 1 := by
    exact_mod_cast mantissaBits_eq spec
  have hunit : (0 : ℚ) < 2 ^ t := by positivity
  obtain ⟨hlow, hhigh⟩ := h.bounds
  constructor
  · rw [le_div_iff₀ hunit, ← zpow_natCast, ← zpow_add₀ two_ne_zero]
    refine le_of_eq_of_le ?_ hlow
    congr 1
    omega
  · rw [div_lt_iff₀ hunit, ← zpow_natCast, ← zpow_add₀ two_ne_zero]
    refine lt_of_lt_of_eq hhigh ?_
    congr 1
    omega

/-- Half a unit of a full mantissa is a small part of the number. -/
theorem NearestEven.error_le {t : ℤ} {r : ℕ} (hr : NearestEven (v / 2 ^ t) r)
    (hlow : (2 : ℚ) ^ spec.mantissaBitsWithoutImplicit ≤ v / 2 ^ t) :
    |r * 2 ^ t - v| * 2 ^ spec.mantissaBits ≤ v := by
  have hunit : (0 : ℚ) < 2 ^ t := by positivity
  have hbits : (2 : ℚ) ^ spec.mantissaBits = 2 * 2 ^ spec.mantissaBitsWithoutImplicit := by
    exact_mod_cast two_pow_mantissaBits spec
  have hscale : |r * 2 ^ t - v| = |v / 2 ^ t - r| * 2 ^ t := by
    rw [abs_sub_comm, ← abs_of_pos hunit, ← abs_mul, sub_mul, abs_of_pos hunit,
      div_mul_cancel₀ _ hunit.ne']
  rw [le_div_iff₀ hunit] at hlow
  calc |r * 2 ^ t - v| * 2 ^ spec.mantissaBits
      ≤ 1 / 2 * 2 ^ t * 2 ^ spec.mantissaBits := by rw [hscale]; gcongr; exact hr.near
    _ = 2 ^ spec.mantissaBitsWithoutImplicit * 2 ^ t := by rw [hbits]; ring
    _ ≤ v := hlow

/-- Rounding a normal number gives a number that is off by at most half a unit of its last place. -/
theorem Stands.round_near (h : Stands spec m e acc v)
    (hnormal : spec.minExponent + spec.mantissaBits ≤ totalExponent m e) :
    ∃ M q hM, roundWithAccuracy spec s m e acc = .finite s M q hM ∧ Canonical spec M q ∧
      2 ^ spec.mantissaBitsWithoutImplicit ≤ M ∧ |M * 2 ^ q - v| * 2 ^ spec.mantissaBits ≤ v := by
  have hbits := two_pow_mantissaBits spec
  obtain ⟨t, ht⟩ : ∃ t, spec.targetExponent (totalExponent m e) = t := ⟨_, rfl⟩
  have htotal : totalExponent m e = t + spec.mantissaBits := by
    rw [Format.targetExponent] at ht
    omega
  have hmin : spec.minExponent ≤ t := by omega
  obtain ⟨em, -, hem⟩ := h.shift ht
  obtain ⟨r, hr⟩ : ∃ r, NearestEven (v / 2 ^ t) r := ⟨_, hem.nearestEven⟩
  obtain ⟨hlow, hhigh⟩ := h.unit_bounds htotal
  have herror := hr.error_le hlow
  have hnear := abs_le.1 hr.near
  have hrlow : 2 ^ spec.mantissaBitsWithoutImplicit ≤ r := by
    have : (2 ^ spec.mantissaBitsWithoutImplicit : ℚ) < r + 1 := by linarith
    have : 2 ^ spec.mantissaBitsWithoutImplicit < r + 1 := by exact_mod_cast this
    omega
  have hrhigh : r ≤ 2 ^ spec.mantissaBits := by
    have : (r : ℚ) < 2 ^ spec.mantissaBits + 1 := by linarith
    have : r < 2 ^ spec.mantissaBits + 1 := by exact_mod_cast this
    omega
  have hpos : 0 < 2 ^ spec.mantissaBitsWithoutImplicit := by positivity
  rcases hrhigh.lt_or_eq with hlt | rfl
  · obtain ⟨hM, hround⟩ := h.round_of_lt (s := s) ht hr (hpos.trans_le hrlow) hlt
    exact ⟨r, t, hM, hround, ⟨hM, hlt, hmin, Or.inr hrlow⟩, hrlow, herror⟩
  · obtain ⟨hM, hround⟩ := h.round_of_carry (s := s) ht hr
    refine ⟨_, t + 1, hM, hround, ⟨hM, by omega, by omega, Or.inr le_rfl⟩, le_rfl, ?_⟩
    have hcarry : ((2 ^ spec.mantissaBitsWithoutImplicit : ℕ) : ℚ) * 2 ^ (t + 1) =
        ((2 ^ spec.mantissaBits : ℕ) : ℚ) * 2 ^ t := by
      rw [hbits, zpow_add_one₀ two_ne_zero]
      push_cast
      ring
    rwa [hcarry]

/-! Rounding a number that is given exactly. -/

theorem log2_shiftLeft {m : ℕ} (hm : 0 < m) (k : ℕ) : (m <<< k).log2 = m.log2 + k := by
  have hne : m * 2 ^ k ≠ 0 := by positivity
  rw [Nat.shiftLeft_eq, Nat.log2_eq_iff hne]
  constructor
  · rw [pow_add]
    exact Nat.mul_le_mul_right _ (Nat.log2_self_le hm.ne')
  · rw [show m.log2 + k + 1 = (m.log2 + 1) + k by ring, pow_add]
    exact Nat.mul_lt_mul_of_pos_right Nat.lt_log2_self (by positivity)

theorem represents_exact (m : ℕ) :
    Represents (ExtendedMantissa.ofMantissaAndAccuracy m .exact) m := rfl

theorem stands_exact (hm : 0 < m) (he : e ≤ spec.targetExponent (totalExponent m e)) :
    Stands spec m e .exact (m * 2 ^ e) where
  pos := hm
  represents := by
    rw [mul_div_cancel_right₀ _ (by positivity)]
    exact represents_exact m
  fine := he

/-- Before rounding the mantissa is made long enough. -/
theorem round_eq (hm : 0 < m) :
    ∃ m' e', UnpackedFloat.round spec s m e = roundWithAccuracy spec s m' e' .exact ∧
    totalExponent m' e' = totalExponent m e ∧ Stands spec m' e' .exact (m * 2 ^ e) := by
  obtain ⟨k, hk⟩ : ∃ k, (e - spec.targetExponent (totalExponent m e)).toNat = k := ⟨_, rfl⟩
  have htotal : totalExponent (m <<< k) (e - k) = totalExponent m e := by
    rw [totalExponent, totalExponent, log2_shiftLeft hm]
    push_cast
    ring
  have hvalue : ((m <<< k : ℕ) : ℚ) * 2 ^ (e - k) = m * 2 ^ e := by
    rw [Nat.shiftLeft_eq, zpow_sub₀ two_ne_zero, zpow_natCast]
    push_cast
    field_simp
  refine ⟨m <<< k, e - k, ?_, htotal, ?_⟩
  · simp only [UnpackedFloat.round, decreaseExponent, hk]
  · rw [← hvalue]
    refine stands_exact (by rw [Nat.shiftLeft_eq]; positivity) ?_
    rw [htotal]
    omega

theorem round_of_contains (hm : 0 < m) (hc : Canonical spec M q)
    (hv : (Interval.ofBinary spec M q).Contains (m * 2 ^ e)) :
    ∃ hM, UnpackedFloat.round spec s m e = .finite s M q hM := by
  obtain ⟨m', e', hround, -, hstands⟩ := @round_eq spec s m e hm
  rw [hround]
  exact hstands.round_of_contains hc hv

/-- The interval of a float contains the float. -/
theorem contains_self (hM : 0 < M) (q : ℤ) : (Interval.ofBinary spec M q).Contains (M * 2 ^ q) := by
  have hunit : (0 : ℚ) < 2 ^ (q - 2) := by positivity
  have hvalue : (M : ℚ) * 2 ^ q = (4 * M : ℕ) * 2 ^ (q - 2) := by
    rw [two_zpow_sub_two q]
    push_cast
    ring
  have hlower : (Interval.ofBinary spec M q).lower < 4 * M := by
    simp only [Interval.ofBinary]
    split_ifs <;> omega
  have hlo : ((Interval.ofBinary spec M q).lower : ℚ) * 2 ^ (q - 2) < M * 2 ^ q := by
    rw [hvalue]
    exact mul_lt_mul_of_pos_right (by exact_mod_cast hlower) hunit
  have hhi : (M : ℚ) * 2 ^ q < ((4 * M + 2 : ℕ) : ℚ) * 2 ^ (q - 2) := by
    rw [hvalue]
    exact mul_lt_mul_of_pos_right (by exact_mod_cast (by omega : 4 * M < 4 * M + 2)) hunit
  unfold Interval.Contains
  split_ifs
  · exact ⟨hlo.le, hhi.le⟩
  · exact ⟨hlo, hhi⟩

/-- Every number with few binary digits is that of a canonical mantissa. -/
theorem exists_canonical (spec : Format) (hm : 0 < m) (hlt : m < 2 ^ spec.mantissaBits)
    (he : spec.minExponent ≤ e) :
    ∃ M q, Canonical spec M q ∧ (M : ℚ) * 2 ^ q = m * 2 ^ e ∧ q ≤ e := by
  -- as many more digits as the mantissa has room for and the exponent can give
  obtain ⟨k, hk⟩ : ∃ k, min (spec.mantissaBitsWithoutImplicit - m.log2) (e - spec.minExponent).toNat = k :=
    ⟨_, rfl⟩
  have hlog := (Nat.log2_lt hm.ne').2 hlt
  rw [mantissaBits_eq] at hlog
  have hpos : 0 < m <<< k := by
    rw [Nat.shiftLeft_eq]
    positivity
  refine ⟨m <<< k, e - k, ⟨hpos, ?_, by omega, ?_⟩, ?_, by omega⟩
  · rw [mantissaBits_eq, ← Nat.log2_lt hpos.ne', log2_shiftLeft hm]
    omega
  · by_cases hfull : m.log2 + k = spec.mantissaBitsWithoutImplicit
    · have := Nat.log2_self_le hpos.ne'
      rw [log2_shiftLeft hm, hfull] at this
      exact Or.inr this
    · left
      omega
  · rw [Nat.shiftLeft_eq, zpow_sub₀ two_ne_zero, zpow_natCast]
    push_cast
    field_simp

end Binary

end NeuralFlow
