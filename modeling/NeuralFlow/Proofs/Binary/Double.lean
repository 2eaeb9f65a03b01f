import Mathlib
import NeuralFlow.Json.QuickFormat
import NeuralFlow.Proofs.Binary.Packing

/-! Literals in double precision. The word of a literal is exact, powers of ten are exact up to the
twenty-second and off by half a unit beyond, and one product or quotient is rounded once. So a
literal is read with an error of two units at most, and without any if its value is a double and the
power is exact. -/

namespace NeuralFlow

def Json.Significand.value (d : Json.Significand) : ℚ := d.word * 10 ^ d.exponent

namespace Binary

open Float.Model (Format)
open Float.Model.UnpackedFloat Json

/-- A positive normal double and its value. -/
def Means (x : Float) (v : ℚ) : Prop :=
  ∃ m q hm, x.toModel.unpack = .finite .positive m q hm ∧ Canonical .binary64 m q ∧ 2 ^ 52 ≤ m ∧
    q ≤ maxExponent .binary64 ∧ (m : ℚ) * 2 ^ q = v

theorem Means.pos {x : Float} {v : ℚ} (h : Means x v) : 0 < v := by
  obtain ⟨m, q, hm, -, -, -, -, rfl⟩ := h
  positivity

/-- A value that is rounded to a double: it moves by half a unit at most, and not at all if it is
one. -/
def RoundsTo (v v' : ℚ) : Prop :=
  |v' - v| * 2 ^ 53 ≤ v ∧ ∀ M q, Canonical .binary64 M q → (M : ℚ) * 2 ^ q = v → v' = v

/-- A mantissa that is off by no more than the value itself has an exponent of usual size. -/
theorem exponent_le_of_near {m : ℕ} {q : ℤ} {v : ℚ} (hm : 0 < m)
    (herror : |m * 2 ^ q - v| * 2 ^ 53 ≤ v) (hhigh : v < 2 ^ (255 : ℤ)) :
    q ≤ maxExponent .binary64 := by
  have hpos : (0 : ℚ) < 2 ^ q := by positivity
  have hone : (1 : ℚ) ≤ m := by exact_mod_cast hm
  have hself : |m * 2 ^ q - v| ≤ v :=
    le_trans (le_mul_of_one_le_right (abs_nonneg _) (by norm_num)) herror
  have hlt : (2 : ℚ) ^ q < 2 ^ (256 : ℤ) := by
    have h1 : (2 : ℚ) ^ q ≤ m * 2 ^ q := le_mul_of_one_le_left hpos.le hone
    have h2 := (abs_le.1 hself).2
    rw [show (2 : ℚ) ^ (256 : ℤ) = 2 * 2 ^ (255 : ℤ) by rw [← zpow_one_add₀ two_ne_zero]; rfl]
    linarith
  have := (zpow_lt_zpow_iff_right₀ one_lt_two).1 hlt
  rw [maxExponent_binary64]
  omega

/-- What stands for a value of usual size packs to a double that it rounds to. -/
theorem means_of_stands {m : ℕ} {e : ℤ} {acc : Accuracy} {v : ℚ} (h : Stands .binary64 m e acc v)
    (hlow : (2 : ℚ) ^ (-255 : ℤ) ≤ v) (hhigh : v < 2 ^ (255 : ℤ)) :
    ∃ v', Means ⟨.pack (roundWithAccuracy .binary64 .positive m e acc)⟩ v' ∧ RoundsTo v v' := by
  have htotal : -255 < Float.Model.totalExponent m e :=
    (zpow_lt_zpow_iff_right₀ one_lt_two).1 (hlow.trans_lt h.bounds.2)
  have hleast : Format.binary64.minExponent = -1074 := rfl
  have hbits : Format.binary64.mantissaBits = 53 := rfl
  obtain ⟨M, q, hM, hround, hc, hfull, herror⟩ :=
    h.round_near (s := .positive) (by rw [hleast, hbits]; omega)
  have hq := exponent_le_of_near hM herror hhigh
  refine ⟨M * 2 ^ q, ⟨M, q, hM, ?_, hc, hfull, hq, rfl⟩, herror, fun M' q' hc' hv' => ?_⟩
  · rw [hround]
    exact unpack_pack hc hq hM
  · obtain ⟨hM', hround'⟩ :=
      h.round_of_contains (s := .positive) hc' (hv' ▸ contains_self hc'.pos q')
    rw [hround] at hround'
    obtain ⟨-, rfl, rfl⟩ := finite.inj hround'
    exact hv'

/-- With the least exponent a value would be far below one. -/
theorem Canonical.full_of_one_le {m : ℕ} {q : ℤ} (hc : Canonical .binary64 m q)
    (h : (1 : ℚ) ≤ m * 2 ^ q) :
    2 ^ 52 ≤ m := by
  refine hc.full.resolve_left fun hleast => not_le.2 ?_ h
  have hlt : (m : ℚ) < 2 ^ (53 : ℤ) := by exact_mod_cast hc.lt
  calc (m : ℚ) * 2 ^ q < 2 ^ (53 : ℤ) * 2 ^ q := by gcongr
    _ = 2 ^ (53 + q) := (zpow_add₀ two_ne_zero _ _).symm
    _ ≤ 2 ^ (0 : ℤ) := (zpow_le_zpow_iff_right₀ one_lt_two).2 (by rw [hleast]; decide)
    _ = 1 := zpow_zero _

/-- Small whole numbers are doubles. -/
theorem means_toFloat {w : UInt64} (hpos : 0 < w.toNat) (hlt : w.toNat < 2 ^ 53) :
    Means w.toFloat w.toNat := by
  obtain ⟨m, q, hc, hvalue, hq⟩ := exists_canonical .binary64 (e := 0) hpos hlt (by decide)
  have hcontains : (Decimal.Interval.ofBinary .binary64 m q).Contains (w.toNat * 2 ^ (0 : ℤ)) :=
    hvalue ▸ contains_self hc.pos q
  obtain ⟨hm, hround⟩ := round_of_contains (s := .positive) hpos hc hcontains
  have hcompare : compare ((w.toNat : ℕ) : ℤ) 0 = .gt :=
    Int.compare_eq_gt.2 (by exact_mod_cast hpos)
  have hunpack : w.toFloat.toModel.unpack = .finite .positive m q hm := by
    have hpack : w.toFloat.toModel = .pack (.finite .positive m q hm) := by
      change Float.Model.pack (Float.Model.UnpackedFloat.normalize .binary64
        ((w.toNat : ℕ) : ℤ) 0 .positive) = _
      simp only [Float.Model.UnpackedFloat.normalize, hcompare]
      simp only [Int.toNat_natCast]
      rw [hround]
    rw [hpack]
    exact unpack_pack hc (hq.trans (by decide)) hm
  rw [zpow_zero, mul_one] at hvalue
  refine ⟨m, q, hm, hunpack, hc, hc.full_of_one_le ?_, hq.trans (by decide), hvalue⟩
  rw [hvalue]
  exact_mod_cast hpos

section Operations

variable {x y : Float} {a b : ℚ}

theorem means_mul (hx : Means x a) (hy : Means y b) (hlow : (2 : ℚ) ^ (-255 : ℤ) ≤ a * b)
    (hhigh : a * b < 2 ^ (255 : ℤ)) : ∃ v, Means (x * y) v ∧ RoundsTo (a * b) v := by
  obtain ⟨m, q, hm, hux, hc, hfull, -, rfl⟩ := hx
  obtain ⟨n, r, hn, huy, hd, hfull', -, rfl⟩ := hy
  have hprod : (m : ℚ) * 2 ^ q * (n * 2 ^ r) = ((m * n : ℕ) : ℚ) * 2 ^ (q + r) := by
    rw [zpow_add₀ two_ne_zero]
    push_cast
    ring
  rw [hprod] at hlow hhigh ⊢
  have hlog : 104 ≤ (m * n).log2 := by
    refine (Nat.le_log2 (Nat.mul_pos hm hn).ne').2 ?_
    calc 2 ^ 104 = 2 ^ 52 * 2 ^ 52 := by norm_num
      _ ≤ m * n := Nat.mul_le_mul hfull hfull'
  have hstands : Stands .binary64 (m * n) (q + r) .exact ((m * n : ℕ) * 2 ^ (q + r)) := by
    refine stands_exact (Nat.mul_pos hm hn) ?_
    rw [Format.targetExponent, Float.Model.totalExponent, mantissaBits_binary64]
    omega
  obtain ⟨v, hv, hround⟩ := means_of_stands hstands hlow hhigh
  refine ⟨v, ?_, hround⟩
  have hmul : x * y = ⟨.pack (mul .binary64 x.toModel.unpack y.toModel.unpack)⟩ := rfl
  rw [hmul, hux, huy]
  exact hv

/-- Full mantissas are divided with fifty-three more binary digits. -/
theorem divCore_eq {m n : ℕ} {q r : ℤ} (hm : m.log2 = 52) (hn : n.log2 = 52)
    (hexp : -1074 ≤ q - r - 53) :
    divCore .binary64 m q n r =
      (m * 2 ^ 53 / n, q - r - 53, accuracyOfFraction (m * 2 ^ 53 % n) n) := by
  have ht : Format.binary64.targetExponent
      (Float.Model.totalExponent m q - Float.Model.totalExponent n r) = q - r - 53 := by
    rw [Format.targetExponent, Float.Model.totalExponent, Float.Model.totalExponent, hm, hn,
      mantissaBits_binary64, minExponent_binary64]
    omega
  rw [← Nat.shiftLeft_eq]
  -- the shifted mantissa is kept as it is, lest its power of two be computed
  obtain ⟨w, hw⟩ : ∃ w, m <<< 53 = w := ⟨_, rfl⟩
  simp only [divCore, ht, show min (q - r) (q - r - 53) = q - r - 53 by omega,
    show (q - r - (q - r - 53)).toNat = 53 by omega, hw]

theorem stands_quotient {m n : ℕ} (hm : 2 ^ 52 ≤ m) (hn : 0 < n) (hn53 : n < 2 ^ 53) (q r : ℤ) :
    Stands .binary64 (m * 2 ^ 53 / n) (q - r - 53) (accuracyOfFraction (m * 2 ^ 53 % n) n)
      (m * 2 ^ q / (n * 2 ^ r)) := by
  have hnq : (0 : ℚ) < n := by exact_mod_cast hn
  have hquot : 2 ^ 52 ≤ m * 2 ^ 53 / n := by
    refine (Nat.le_div_iff_mul_le hn).2 ?_
    calc 2 ^ 52 * n ≤ 2 ^ 52 * 2 ^ 53 := Nat.mul_le_mul_left _ hn53.le
      _ ≤ m * 2 ^ 53 := Nat.mul_le_mul_right _ hm
  have hpos : 0 < m * 2 ^ 53 / n := by omega
  have hvalue : (m : ℚ) * (2 : ℚ) ^ q / (n * (2 : ℚ) ^ r) / (2 : ℚ) ^ (q - r - 53) =
      ((m * 2 ^ 53 : ℕ) : ℚ) / n := by
    rw [zpow_sub₀ two_ne_zero, zpow_sub₀ two_ne_zero]
    push_cast
    field_simp
  refine ⟨hpos, ?_, ?_⟩
  · rw [hvalue]
    exact represents_quotient _ hn
  · have hlog := (Nat.le_log2 hpos.ne').2 hquot
    rw [Format.targetExponent, Float.Model.totalExponent, mantissaBits_binary64]
    omega

theorem means_div (hx : Means x a) (hy : Means y b) (hlow : (2 : ℚ) ^ (-255 : ℤ) ≤ a / b)
    (hhigh : a / b < 2 ^ (255 : ℤ)) : ∃ v, Means (x / y) v ∧ RoundsTo (a / b) v := by
  obtain ⟨m, q, hm, hux, hc, hfull, -, rfl⟩ := hx
  obtain ⟨n, r, hn, huy, hd, hfull', -, rfl⟩ := hy
  have hm53 : m < 2 ^ 53 := hc.lt
  have hn53 : n < 2 ^ 53 := hd.lt
  have hmlog : m.log2 = 52 := (Nat.log2_eq_iff hm.ne').2 ⟨hfull, hm53⟩
  have hnlog : n.log2 = 52 := (Nat.log2_eq_iff hn.ne').2 ⟨hfull', hn53⟩
  have hexp : -1074 ≤ q - r - 53 := by
    have hnq : (0 : ℚ) < n := by exact_mod_cast hn
    have hmn : (m : ℚ) < 2 * n := by
      have : m < 2 * n := by omega
      exact_mod_cast this
    have hbelow : (m : ℚ) * 2 ^ q / (n * 2 ^ r) < 2 ^ (q - r + 1) := by
      rw [div_lt_iff₀ (by positivity), zpow_add₀ two_ne_zero, zpow_sub₀ two_ne_zero, zpow_one]
      calc (m : ℚ) * 2 ^ q < 2 * n * 2 ^ q := by gcongr
        _ = 2 ^ q / 2 ^ r * 2 * (n * 2 ^ r) := by field_simp
    have := (zpow_lt_zpow_iff_right₀ one_lt_two).1 (hlow.trans_lt hbelow)
    omega
  obtain ⟨v, hv, hround⟩ := means_of_stands (stands_quotient hfull hn hn53 q r) hlow hhigh
  refine ⟨v, ?_, hround⟩
  have hdiv : x / y = ⟨.pack (div .binary64 x.toModel.unpack y.toModel.unpack)⟩ := rfl
  rw [hdiv, hux, huy]
  simp only [div, divCore_eq hmlog hnlog hexp]
  exact hv

end Operations

/-! Powers of ten and literals. -/

/-- Whether ten to the `k` is read with half a unit of error at most, and exactly up to the
twenty-second. -/
def powerFits (k : ℕ) : Bool :=
  match (Float.ofScientific 1 false k).toModel.unpack with
  | .finite .positive m q _ =>
    decide (2 ^ 52 ≤ m ∧ m < 2 ^ 53 ∧ -1074 ≤ q ∧ q ≤ 971) &&
    decide ((m * 2 ^ q.toNat - 10 ^ k * 2 ^ (-q).toNat) * 2 ^ 53 ≤ 10 ^ k * 2 ^ (-q).toNat ∧
      (10 ^ k * 2 ^ (-q).toNat - m * 2 ^ q.toNat) * 2 ^ 53 ≤ 10 ^ k * 2 ^ (-q).toNat ∧
      (k ≤ 22 → m * 2 ^ q.toNat = 10 ^ k * 2 ^ (-q).toNat))
  | _ => false

theorem powerFits_of_le : ∀ k < 61, powerFits k = true := by
  decide +kernel

theorem abs_sub_mul_le {a b c d : ℕ} (hab : (a - b) * c ≤ d) (hba : (b - a) * c ≤ d) :
    |(a : ℚ) - b| * c ≤ d := by
  rcases le_total a b with h | h
  · rw [abs_sub_comm, abs_of_nonneg (sub_nonneg.2 (by exact_mod_cast h)), ← Nat.cast_sub h]
    exact_mod_cast hba
  · rw [abs_of_nonneg (sub_nonneg.2 (by exact_mod_cast h)), ← Nat.cast_sub h]
    exact_mod_cast hab

theorem means_power {k : ℕ} (hk : k ≤ 60) : ∃ p, Means (Float.ofScientific 1 false k) p ∧
    |p - 10 ^ k| * 2 ^ 53 ≤ 10 ^ k ∧ (k ≤ 22 → p = 10 ^ k) := by
  have hfits := powerFits_of_le k (by omega)
  unfold powerFits at hfits
  split at hfits
  · rename_i m q hm hunpack
    simp only [Bool.and_eq_true, decide_eq_true_eq] at hfits
    obtain ⟨⟨hfull, hlt, hmin, hmax⟩, hover, hunder, hexact⟩ := hfits
    have hunit : (0 : ℚ) < 2 ^ (-q).toNat := by positivity
    have hscale : (m : ℚ) * 2 ^ q * 2 ^ (-q).toNat = (m * 2 ^ q.toNat : ℕ) := by
      push_cast
      rw [mul_assoc]
      congr 1
      rw [← zpow_natCast, ← zpow_natCast, ← zpow_add₀ two_ne_zero]
      congr 1
      omega
    refine ⟨m * 2 ^ q, ⟨m, q, hm, hunpack, ⟨hm, hlt, hmin, Or.inr hfull⟩, hfull, hmax, rfl⟩, ?_,
      fun hsmall => ?_⟩
    · refine le_of_mul_le_mul_right ?_ hunit
      have herror := abs_sub_mul_le hover hunder
      rw [← hscale] at herror
      push_cast at herror
      rw [← sub_mul, abs_mul, abs_of_pos hunit] at herror
      linarith
    · refine mul_right_cancel₀ hunit.ne' ?_
      rw [hscale]
      exact_mod_cast hexact hsmall
  · exact absurd hfits (by simp)

section Error

variable {w p t v : ℚ}

/-- The errors of the power and of the product add up to less than four halves of a unit. -/
theorem product_error (hw : 0 < w) (ht : 0 < t) (hp : |p - t| * 2 ^ 53 ≤ t)
    (hv : |v - w * p| * 2 ^ 53 ≤ w * p) : |v - w * t| * 2 ^ 51 ≤ w * t := by
  have hwt : 0 < w * t := mul_pos hw ht
  have hdiff : |w * p - w * t| * 2 ^ 53 ≤ w * t := by
    rw [← mul_sub, abs_mul, abs_of_pos hw, mul_assoc]
    exact mul_le_mul_of_nonneg_left hp hw.le
  have hwp := (abs_le.1 (le_of_mul_le_mul_right
    (hdiff.trans (le_mul_of_one_le_right hwt.le (by norm_num : (1 : ℚ) ≤ 2 ^ 53))) (by norm_num))).2
  have htri := abs_sub_le v (w * p) (w * t)
  linarith

theorem quotient_error (hw : 0 < w) (ht : 0 < t) (hp : |p - t| * 2 ^ 53 ≤ t)
    (hv : |v - w / p| * 2 ^ 53 ≤ w / p) : |v - w / t| * 2 ^ 51 ≤ w / t := by
  have hwt : 0 < w / t := div_pos hw ht
  have hhalf : t / 2 ≤ p := by
    have hscale : t ≤ t / 2 * 2 ^ 53 := by linarith
    have := (abs_le.1 (le_of_mul_le_mul_right (hp.trans hscale) (by norm_num))).1
    linarith
  have hp0 : 0 < p := lt_of_lt_of_le (by linarith) hhalf
  have hdiff : |w / p - w / t| * 2 ^ 53 ≤ w / p := by
    have heq : w / p - w / t = w / p * ((t - p) / t) := by field_simp
    rw [heq, abs_mul, abs_of_pos (div_pos hw hp0), mul_assoc]
    refine mul_le_of_le_one_right (div_pos hw hp0).le ?_
    rw [abs_div, abs_of_pos ht, div_mul_eq_mul_div, div_le_one ht, abs_sub_comm]
    exact hp
  have hquot : w / p ≤ 2 * (w / t) := by
    rw [div_le_iff₀ hp0]
    calc w = 2 * (w / t) * (t / 2) := by field_simp
      _ ≤ 2 * (w / t) * p := by gcongr
  have htri := abs_sub_le v (w / p) (w / t)
  linarith

end Error

/-- A short word and a power that is off by half a unit have a product and a quotient of usual
size. -/
theorem usual_size {k : ℕ} {w p : ℚ} (hk : k ≤ 60) (hw : 1 ≤ w) (hlt : w < 2 ^ 53)
    (hp : |p - 10 ^ k| * 2 ^ 53 ≤ 10 ^ k) :
    ((2 : ℚ) ^ (-255 : ℤ) ≤ w * p ∧ w * p < 2 ^ (255 : ℤ)) ∧
      (2 : ℚ) ^ (-255 : ℤ) ≤ w / p ∧ w / p < 2 ^ (255 : ℤ) := by
  have hone : (1 : ℚ) ≤ 10 ^ k := one_le_pow₀ (by norm_num)
  have hpow : (10 : ℚ) ^ k ≤ 10 ^ 60 := pow_le_pow_right₀ (by norm_num) hk
  have hclose := abs_le.1 (le_of_mul_le_mul_right
    (hp.trans (by linarith : (10 : ℚ) ^ k ≤ 10 ^ k / 2 * 2 ^ 53)) (by norm_num))
  have hplow : (1 / 2 : ℚ) ≤ p := by linarith
  have hphigh : p ≤ 2 * 10 ^ 60 := by linarith
  have hp0 : 0 < p := by linarith
  have hsmall : (2 : ℚ) ^ (-255 : ℤ) ≤ 1 / (2 * 10 ^ 60) := by norm_num
  have hlarge : (2 : ℚ) ^ 53 * (2 * 10 ^ 60) < 2 ^ (255 : ℤ) := by norm_num
  refine ⟨⟨hsmall.trans ?_, lt_of_le_of_lt ?_ hlarge⟩, hsmall.trans ?_, lt_of_le_of_lt ?_ hlarge⟩
  · calc (1 / (2 * 10 ^ 60) : ℚ) ≤ 1 * (1 / 2) := by norm_num
      _ ≤ w * p := by gcongr
  · gcongr
  · rw [div_le_div_iff₀ (by norm_num) hp0]
    calc 1 * p ≤ 1 * (2 * 10 ^ 60) := by gcongr
      _ ≤ w * (2 * 10 ^ 60) := by gcongr
  · rw [div_le_iff₀ hp0]
    calc (w : ℚ) ≤ 2 ^ 53 * (2 * 10 ^ 60) * (1 / 2) := by linarith
      _ ≤ 2 ^ 53 * (2 * 10 ^ 60) * p := by gcongr

/-- How a literal with the value `t` is read: with an error of two units at most, and exactly if it
is a double and the power is exact. -/
def ReadNear (x? : Option Float) (k : ℕ) (t : ℚ) : Prop :=
  ∃ x v, x? = some x ∧ Means x v ∧ |v - t| * 2 ^ 51 ≤ t ∧
    (k ≤ 22 → ∀ M q, Canonical .binary64 M q → (M : ℚ) * 2 ^ q = t → v = t)

theorem readNear_product {x : Float} {w : ℚ} {k fuel : ℕ} (hx : Means x w) (hw : 1 ≤ w)
    (hlt : w < 2 ^ 53) (hk : k ≤ 60) : ReadNear (scaleByTen (fuel + 1) x k) k (w * 10 ^ k) := by
  obtain ⟨p, hp, herror, hexact⟩ := means_power hk
  obtain ⟨⟨hlow, hhigh⟩, -⟩ := usual_size hk hw hlt herror
  obtain ⟨v, hv, hround, hsame⟩ := means_mul hx hp hlow hhigh
  have hfinite : (x * Float.ofScientific 1 false k).isInf = false := by
    obtain ⟨m, q, hm, hunpack, -⟩ := hv
    simp only [Float.isInf, Float.Model.isInf, hunpack, isInf]
  refine ⟨_, v, ?_, hv, product_error hx.pos (by positivity) herror hround,
    fun hk22 M q hc hM => ?_⟩
  · simp only [scaleByTen, Int.natAbs_natCast, if_pos (show k ≤ 308 by omega), Int.natCast_nonneg,
      if_true, hfinite, Bool.false_eq_true, if_false]
  · rw [hexact hk22] at hsame
    exact hsame M q hc hM

theorem readNear_quotient {x : Float} {w : ℚ} {k fuel : ℕ} (hx : Means x w) (hw : 1 ≤ w)
    (hlt : w < 2 ^ 53) (hk : k ≤ 60) (hk0 : 0 < k) :
    ReadNear (scaleByTen (fuel + 1) x (-k)) k (w / 10 ^ k) := by
  obtain ⟨p, hp, herror, hexact⟩ := means_power hk
  obtain ⟨-, hlow, hhigh⟩ := usual_size hk hw hlt herror
  obtain ⟨v, hv, hround, hsame⟩ := means_div hx hp hlow hhigh
  refine ⟨_, v, ?_, hv, quotient_error hx.pos (by positivity) herror hround,
    fun hk22 M q hc hM => ?_⟩
  · simp only [scaleByTen, Int.natAbs_neg, Int.natAbs_natCast, if_pos (show k ≤ 308 by omega),
      if_neg (show ¬ 0 ≤ -(k : ℤ) by omega)]
  · rw [hexact hk22] at hsame
    exact hsame M q hc hM

/-- A literal with a short word and a moderate power is read well. -/
theorem toFloat?_near {d : Significand} (hpos : 0 < d.word) (hlt : d.word < 2 ^ 53)
    (hexp : d.exponent.natAbs ≤ 60) : ReadNear d.toFloat? d.exponent.natAbs d.value := by
  obtain ⟨w, e, full⟩ := d
  simp only [Significand.value, Significand.toFloat?] at hpos hlt hexp ⊢
  have hword : w.toUInt64.toNat = w := by
    rw [Nat.toUInt64, UInt64.toNat_ofNat', Nat.mod_eq_of_lt (by omega)]
  have hw := means_toFloat (w := w.toUInt64) (by rwa [hword]) (by rwa [hword])
  rw [hword] at hw
  have hone : (1 : ℚ) ≤ w := by exact_mod_cast hpos
  have hshort : (w : ℚ) < 2 ^ 53 := by exact_mod_cast hlt
  obtain ⟨k, rfl | rfl⟩ := e.eq_nat_or_neg
  · rw [Int.natAbs_natCast] at hexp ⊢
    rw [zpow_natCast]
    exact readNear_product hw hone hshort hexp
  · rcases k.eq_zero_or_pos with rfl | hk0
    · simpa using readNear_product (k := 0) hw hone hshort (by omega)
    · rw [Int.natAbs_neg, Int.natAbs_natCast] at hexp ⊢
      rw [zpow_neg, zpow_natCast, ← div_eq_mul_inv]
      exact readNear_quotient hw hone hshort hexp hk0

end Binary

end NeuralFlow
