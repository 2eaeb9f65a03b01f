import Mathlib
import NeuralFlow.Proofs.Binary.Nearest

/-! How fine floats are. Powers of two and small whole numbers of units are floats, so rounding is off by
half a unit at most; and beyond a power of two floats are so far apart that a small term is lost. -/

namespace NeuralFlow.Binary

open Float.Model (Format UnpackedFloat)
open Float.Model.UnpackedFloat (Sign)

variable {spec : Format} {t : ℤ} {v : ℚ} {u : UnpackedFloat}

/-- The floats beyond a power of two are far apart: the next one is a whole unit further on. -/
theorem Canonical.power_add_le {n : ℕ} {r : ℤ} (h : Canonical spec n r)
    (hlt : (2 : ℚ) ^ (t + spec.mantissaBits + 1) < n * 2 ^ r) :
    (2 : ℚ) ^ (t + spec.mantissaBits + 1) + 2 ^ (t + 2) ≤ n * 2 ^ r := by
  have hp := mantissaBits_eq spec
  have hr : t + 2 ≤ r := by
    have := (zpow_lt_zpow_iff_right₀ one_lt_two).1 (hlt.trans h.value_lt)
    omega
  have hwhole : ∀ (m : ℕ) {e : ℤ}, t + 2 ≤ e →
      (m : ℚ) * 2 ^ e = (m * 2 ^ (e - (t + 2)).toNat : ℕ) * 2 ^ (t + 2) := fun m e he => by
    push_cast
    rw [mul_assoc, ← zpow_natCast, ← zpow_add₀ two_ne_zero]
    congr 2
    omega
  have hone := hwhole 1 (e := t + spec.mantissaBits + 1) (by omega)
  rw [Nat.cast_one, one_mul] at hone
  have hunit : (0 : ℚ) < 2 ^ (t + 2) := by positivity
  rw [hone, hwhole n hr] at hlt ⊢
  have hless := Nat.cast_lt.1 ((mul_lt_mul_iff_left₀ hunit).1 hlt)
  rw [← add_one_mul]
  gcongr
  exact_mod_cast hless

section Floats

variable (hexp : 2 ≤ spec.exponentBits)

include hexp

/-- Powers of two are floats, up to the limit. -/
theorem exists_power (hlow : spec.minExponent ≤ t) (hhigh : t ≤ maxExponent spec + spec.mantissaBits) :
    ∃ y, Proper spec y ∧ value spec y = 2 ^ t := by
  have hp := mantissaBits_eq spec
  have hpow := two_pow_mantissaBits spec
  rcases hhigh.lt_or_eq with hlt | rfl
  · rcases le_or_gt (spec.minExponent + spec.mantissaBitsWithoutImplicit) t with hle | hgt
    · have hone : 0 < 2 ^ spec.mantissaBitsWithoutImplicit := by positivity
      refine ⟨.finite .positive _ (t - spec.mantissaBitsWithoutImplicit) hone,
        ⟨⟨hone, by omega, by omega, Or.inr le_rfl⟩, by omega⟩, ?_⟩
      rw [value, signed]
      push_cast
      rw [← zpow_natCast, ← zpow_add₀ two_ne_zero]
      congr 1
      ring
    · have hone : 0 < 2 ^ (t - spec.minExponent).toNat := by positivity
      have hshort : 2 ^ (t - spec.minExponent).toNat < 2 ^ spec.mantissaBitsWithoutImplicit :=
        Nat.pow_lt_pow_right (by norm_num) (by omega)
      refine ⟨.finite .positive _ spec.minExponent hone, ⟨⟨hone, by omega, le_rfl, Or.inl rfl⟩,
        minExponent_le_maxExponent hexp⟩, ?_⟩
      rw [value, signed]
      push_cast
      rw [← zpow_natCast, ← zpow_add₀ two_ne_zero]
      congr 1
      omega
  · exact ⟨.infinity .positive, trivial, rfl⟩

/-- Whole numbers of units are floats, as long as they are not too many. -/
theorem exists_whole {k : ℤ} (hk : |k| ≤ 2 ^ spec.mantissaBits)
    (hlow : spec.minExponent ≤ t) (hhigh : t ≤ maxExponent spec) :
    ∃ y, Proper spec y ∧ value spec y = k * 2 ^ t := by
  obtain ⟨s, hs⟩ : ∃ s : Sign, (k : ℚ) * 2 ^ t = signed s (k.natAbs * 2 ^ t) := by
    rcases le_total 0 k with h | h
    · refine ⟨.positive, ?_⟩
      rw [signed, Nat.cast_natAbs, abs_of_nonneg h]
    · refine ⟨.negative, ?_⟩
      rw [signed, Nat.cast_natAbs, abs_of_nonpos h]
      push_cast
      ring
  have habs : k.natAbs ≤ 2 ^ spec.mantissaBits := by
    rw [Int.abs_eq_natAbs] at hk
    exact_mod_cast hk
  rw [hs]
  rcases k.natAbs.eq_zero_or_pos with hzero | hpos
  · refine ⟨.zero s, trivial, ?_⟩
    rw [hzero]
    cases s <;> simp [value, signed]
  rcases habs.lt_or_eq with hlt | heq
  · obtain ⟨M, q, hc, hvalue, hq⟩ := exists_canonical spec hpos hlt hlow
    exact ⟨.finite s M q hc.pos, ⟨hc, hq.trans hhigh⟩, by rw [value, hvalue]⟩
  · obtain ⟨y, hy, hvalue⟩ := exists_power hexp (t := t + spec.mantissaBits) (by omega) (by omega)
    have hsame : ((k.natAbs : ℕ) : ℚ) * 2 ^ t = 2 ^ (t + spec.mantissaBits) := by
      rw [heq, zpow_add₀ two_ne_zero, zpow_natCast, mul_comm]
      push_cast
      rfl
    rw [hsame, ← hvalue]
    cases s
    · exact ⟨y.neg, hy.neg, value_neg spec y⟩
    · exact ⟨y, hy, rfl⟩

namespace Nearest

/-- Rounding is off by half a unit at most. -/
theorem error_le (h : Nearest spec v u)
    (hlow : spec.minExponent ≤ t) (hhigh : t ≤ maxExponent spec)
    (hv : |v| ≤ 2 ^ spec.mantissaBits * (2 : ℚ) ^ t) : |value spec u - v| ≤ (2 : ℚ) ^ t / 2 := by
  have hunit : (0 : ℚ) < 2 ^ t := by positivity
  obtain ⟨k, hround⟩ : ∃ k, round (v / 2 ^ t) = k := ⟨_, rfl⟩
  have herror : |v / 2 ^ t - k| ≤ 1 / 2 := hround ▸ abs_sub_round (v / 2 ^ t)
  have hk : |k| ≤ 2 ^ spec.mantissaBits := by
    have hquot : |v / 2 ^ t| ≤ 2 ^ spec.mantissaBits := by
      rwa [abs_div, abs_of_pos hunit, div_le_iff₀ hunit]
    have hlt : |(k : ℚ)| < 2 ^ spec.mantissaBits + 1 := by
      have htri := abs_sub_abs_le_abs_sub (k : ℚ) (v / 2 ^ t)
      rw [abs_sub_comm] at htri
      linarith
    have : |k| < 2 ^ spec.mantissaBits + 1 := by exact_mod_cast hlt
    omega
  obtain ⟨y, hy, hvalue⟩ := exists_whole hexp hk hlow hhigh
  calc |value spec u - v| ≤ |value spec y - v| := h.near y hy
    _ = |v / 2 ^ t - k| * 2 ^ t := by
        rw [hvalue, abs_sub_comm, ← abs_of_pos hunit, ← abs_mul, sub_mul, abs_of_pos hunit,
          div_mul_cancel₀ _ hunit.ne']
    _ ≤ 1 / 2 * 2 ^ t := by gcongr
    _ = 2 ^ t / 2 := by ring

/-- Numbers of usual size are rounded with a small relative error. -/
theorem error_mul_le (h : Nearest spec v u) (hv : 0 < v)
    (hlow : (2 : ℚ) ^ (spec.minExponent + spec.mantissaBits) ≤ v) (hhigh : v < limit spec) :
    |value spec u - v| * 2 ^ spec.mantissaBits ≤ v := by
  obtain ⟨k, hk, hk'⟩ := exists_mem_Ico_zpow hv one_lt_two
  have hfloor := (zpow_lt_zpow_iff_right₀ one_lt_two).1 (hlow.trans_lt hk')
  have hceil := (zpow_lt_zpow_iff_right₀ one_lt_two).1 (hk.trans_lt hhigh)
  have hbits := mantissaBits_eq spec
  have herror := h.error_le hexp (t := k + 1 - spec.mantissaBits) (by omega) (by omega) (by
    rw [abs_of_pos hv, ← zpow_natCast, ← zpow_add₀ two_ne_zero, add_sub_cancel]
    exact hk'.le)
  calc |value spec u - v| * 2 ^ spec.mantissaBits
      ≤ 2 ^ (k + 1 - spec.mantissaBits) / 2 * 2 ^ spec.mantissaBits := by gcongr
    _ = 2 ^ k := by
        rw [zpow_sub₀ two_ne_zero, zpow_natCast, zpow_add_one₀ two_ne_zero]
        field_simp
    _ ≤ v := hk

/-- A term that is small against a power of two does not lead past it. -/
theorem value_le_power (h : Nearest spec v u) (hlow : spec.minExponent ≤ t + spec.mantissaBits + 1)
    (hv : v ≤ 2 ^ (t + spec.mantissaBits + 1) + (2 : ℚ) ^ t) :
    value spec u ≤ 2 ^ (t + spec.mantissaBits + 1) := by
  rcases le_or_gt (t + spec.mantissaBits + 1) (maxExponent spec + spec.mantissaBits) with hcap | hcap
  · obtain ⟨y, hy, hvalue⟩ := exists_power hexp hlow hcap
    have hunit : (0 : ℚ) < 2 ^ t := by positivity
    have hpower : (0 : ℚ) < 2 ^ (t + spec.mantissaBits + 1) := by positivity
    by_contra! hlt
    have hbelow : (2 : ℚ) ^ (t + spec.mantissaBits + 1) < v := by
      by_contra! hle
      exact absurd (h.value_le hy (hvalue ▸ hle)) (by rw [hvalue]; exact not_le.2 hlt)
    -- the power is nearer than the next float
    obtain ⟨n, r, hc, heq⟩ := h.proper.abs_value.resolve_left (abs_pos.2 (hpower.trans hlt).ne').ne'
    rw [abs_of_pos (hpower.trans hlt)] at heq
    have hfour : (2 : ℚ) ^ (t + 2) = 4 * 2 ^ t := by
      rw [zpow_add₀ two_ne_zero]
      norm_num [mul_comm]
    have hpast := hc.power_add_le (heq ▸ hlt)
    rw [hfour, ← heq] at hpast
    have hnear := h.near y hy
    rw [hvalue, abs_of_pos (by linarith), abs_of_neg (by linarith)] at hnear
    linarith
  · refine (le_abs_self _).trans (h.proper.abs_value_le.trans ?_)
    exact (zpow_le_zpow_iff_right₀ one_lt_two).2 hcap.le

end Nearest

end Floats

end NeuralFlow.Binary
