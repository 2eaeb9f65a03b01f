import Mathlib
import NeuralFlow.Proofs.Single

/-! Running sums in single precision. A sum of terms that are not negative is no smaller than any of them,
and it stops growing long before it could be infinite: beyond a power of two small terms are lost. -/

namespace NeuralFlow.Single

open Float.Model (Format UnpackedFloat)
open Binary

variable {x y : Float32} {v w : ℚ} {k : ℤ} {xs : List Float32}

@[simp] theorem val_zero : val (0 : Float32) = 0 := rfl

/-- A positive constant by its mantissa and exponent. -/
theorem constant_spec (m : ℕ) (q : ℤ) (hm : 0 < m) (h : x.toModel.unpack = .finite .positive m q hm)
    (hv : (m : ℚ) * 2 ^ q = v) : x.isFinite = true ∧ val x = v := by
  rw [Float32.isFinite, Float32.Model.isFinite, val, h]
  exact ⟨rfl, hv⟩

@[simp] theorem val_one : val (1 : Float32) = 1 :=
  (constant_spec 8388608 (-23) (by norm_num) rfl (by norm_num)).2

theorem isNumber_zero : IsNumber (0 : Float32) := rfl

theorem isNumber_one : IsNumber (1 : Float32) := rfl

/-- Powers of two from the least number to the limit are values. -/
theorem exists_val_eq_power (hlow : -149 ≤ k) (hhigh : k ≤ 128) :
    ∃ y, IsNumber y ∧ val y = 2 ^ k := by
  obtain ⟨u, hu, hvalue⟩ := exists_power exponentBits_le (t := k) hlow hhigh
  have hunpack : (Float32.ofModel (.pack u)).toModel.unpack = u := hu.unpack_pack
  refine ⟨.ofModel (.pack u), proper_iff.1 ?_, ?_⟩
  · rwa [hunpack]
  · rw [val, hunpack, hvalue]

/-- Numbers are whole multiples of a unit that no exponent of theirs is below. -/
theorem exists_multiple (hx : IsNumber x)
    (hunit : ∀ m q, Canonical .binary32 m q → |val x| = m * 2 ^ q → k ≤ q) :
    ∃ l : ℤ, val x = l * 2 ^ k := by
  obtain ⟨l, hl⟩ : ∃ l : ℤ, |val x| = l * 2 ^ k := by
    rcases (proper_iff.2 hx).abs_value with hzero | ⟨m, q, hc, heq⟩
    · exact ⟨0, by rw [val, hzero, Int.cast_zero, zero_mul]⟩
    · obtain ⟨d, hd⟩ := Int.eq_ofNat_of_zero_le (sub_nonneg.2 (hunit m q hc heq))
      refine ⟨m * 2 ^ d, heq.trans ?_⟩
      obtain rfl : q = d + k := by omega
      rw [zpow_add₀ two_ne_zero, zpow_natCast]
      push_cast
      exact (mul_assoc _ _ _).symm
  rcases abs_choice (val x) with h | h
  · exact ⟨l, h ▸ hl⟩
  · exact ⟨-l, by rw [Int.cast_neg, neg_mul, ← hl, h, neg_neg]⟩

/-- Every number is a whole multiple of the least positive one. -/
theorem exists_units (hx : IsNumber x) : ∃ k : ℤ, val x = k * 2 ^ (-149 : ℤ) :=
  exists_multiple hx fun _ _ hc _ => hc.min

/-- No positive number is below the least power of two. -/
theorem power_le_val (hx : IsNumber x) (hpos : 0 < val x) : (2 : ℚ) ^ (-149 : ℤ) ≤ val x := by
  obtain ⟨k, hk⟩ := exists_units hx
  have hunit : (0 : ℚ) < 2 ^ (-149 : ℤ) := by positivity
  rw [hk] at hpos ⊢
  have hone : (1 : ℚ) ≤ k := by exact_mod_cast Int.cast_pos.1 (pos_of_mul_pos_left hpos hunit.le)
  exact le_mul_of_one_le_left hunit.le hone

/-- Numbers that differ have a difference: it does not vanish by rounding. -/
theorem pos_sub_iff : 0 < x - y ↔ y < x := by
  rw [lt_iff, lt_iff, val_zero]
  constructor
  · rintro ⟨⟨-, hnumber⟩, hpos⟩
    obtain ⟨hx, hy⟩ := isNumber_of_sub hnumber
    refine ⟨⟨hy, hx⟩, ?_⟩
    rcases sub_cases hx hy with ⟨-, -, hrounds⟩ | ⟨hnot, -⟩ | ⟨-, ⟨-, hlt⟩ | ⟨hval, -⟩⟩
    · by_contra! hle
      exact hpos.not_ge (hrounds.val_le isNumber_zero (sub_nonpos.2 hle))
    · exact absurd hnumber hnot
    · exact hlt
    · exact absurd hpos (not_lt.2 (hval ▸ by norm_num))
  · rintro ⟨⟨hy, hx⟩, hlt⟩
    rcases sub_cases hx hy with ⟨-, -, hrounds⟩ | ⟨-, -, heq⟩ | ⟨hnumber, ⟨hval, -⟩ | ⟨-, hgt⟩⟩
    · refine ⟨⟨isNumber_zero, hrounds.isNumber⟩, ?_⟩
      obtain ⟨k, hk⟩ := exists_units hx
      obtain ⟨l, hl⟩ := exists_units hy
      obtain ⟨least, hleast, hval⟩ := exists_val_eq_power (k := -149) le_rfl (by norm_num)
      have hone : (l : ℚ) + 1 ≤ k := by
        rw [hk, hl, mul_lt_mul_iff_left₀ (by positivity)] at hlt
        exact_mod_cast hlt
      have hle : val least ≤ val x - val y := by
        rw [hval, hk, hl, ← sub_mul]
        exact le_mul_of_one_le_left (by positivity) (by linarith)
      exact lt_of_lt_of_le (hval ▸ by positivity) (hrounds.le_val hleast hle)
    · exact absurd heq hlt.ne'
    · exact ⟨⟨isNumber_zero, hnumber⟩, hval ▸ by positivity⟩
    · exact absurd hgt hlt.not_gt

namespace Rounds

theorem nonneg (h : Rounds v x) (hv : 0 ≤ v) : 0 ≤ val x := h.le_val isNumber_zero hv

theorem nonpos (h : Rounds v x) (hv : v ≤ 0) : val x ≤ 0 := h.val_le isNumber_zero hv

theorem le_one (h : Rounds v x) (hv : v ≤ 1) : val x ≤ 1 := by
  have := h.val_le isNumber_one (hv.trans_eq val_one.symm)
  rwa [val_one] at this

/-- Beyond a power of two a small term is lost. -/
theorem le_power (h : Rounds v x) (hlow : -149 ≤ k) (hv : v ≤ 2 ^ (k + 25) + 2 ^ k) :
    val x ≤ 2 ^ (k + 25) := by
  have hexp : k + (Format.binary32.mantissaBits : ℤ) + 1 = k + 25 := by
    rw [mantissaBits_binary32]
    push_cast
    ring
  have hbound := Nearest.value_le_power (t := k) exponentBits_le h
  rw [hexp] at hbound
  exact hbound (show -149 ≤ k + 25 by omega) hv

theorem power_le (h : Rounds v x) (hlow : -149 ≤ k) (hhigh : k ≤ 128) (hv : 2 ^ k ≤ v) :
    2 ^ k ≤ val x := by
  obtain ⟨y, hy, hval⟩ := exists_val_eq_power hlow hhigh
  exact hval ▸ h.le_val hy (hval ▸ hv)

/-- The error is a small part of any bound of the exact result. -/
theorem error_le (h : Rounds v x) (hlow : 2 ^ (-125 : ℤ) ≤ w) (hw : w ≤ 2 ^ 128) (hv : |v| ≤ w) :
    |val x - v| ≤ w / 2 ^ 24 := by
  have hpos : 0 < w := lt_of_lt_of_le (by positivity) hlow
  obtain ⟨k, hlt, hle⟩ := exists_mem_Ioc_zpow hpos (one_lt_two (α := ℚ))
  have hlow' := hlow.trans hle
  have hhigh : (2 : ℚ) ^ k < 2 ^ (128 : ℤ) := hlt.trans_le hw
  rw [zpow_le_zpow_iff_right₀ one_lt_two] at hlow'
  rw [zpow_lt_zpow_iff_right₀ one_lt_two] at hhigh
  have hscale : ∀ e : ℤ, (2 : ℚ) ^ 24 * 2 ^ (e - 24) = 2 ^ e := fun e => by
    rw [← zpow_natCast, ← zpow_add₀ two_ne_zero]
    congr 1
    push_cast
    ring
  have herror := Nearest.error_le exponentBits_le h (t := k + 1 - 24)
    (show (-149 : ℤ) ≤ k + 1 - 24 by omega) (show k + 1 - 24 ≤ (104 : ℤ) by omega)
    ((hv.trans hle).trans_eq (hscale (k + 1)).symm)
  refine herror.trans ?_
  rw [le_div_iff₀ (by norm_num), div_mul_eq_mul_div, mul_comm, hscale, zpow_add_one₀ two_ne_zero]
  linarith

/-- Below the numbers with full mantissas the unit is the least one. -/
theorem error_le_least (h : Rounds v x) (hv : |v| ≤ 2 ^ (-125 : ℤ)) : |val x - v| ≤ 1 / 2 ^ 150 := by
  have herror := Nearest.error_le exponentBits_le h (t := -149) (by decide) (by decide)
    (hv.trans_eq (by norm_num [mantissaBits_binary32]))
  norm_num at herror ⊢
  exact herror

/-- The error of any result is a small part of a bound, or half of the least unit. -/
theorem error_le_add (h : Rounds v x) (hw : w ≤ 2 ^ 128) (hv : |v| ≤ w) :
    |val x - v| ≤ w / 2 ^ 24 + 1 / 2 ^ 150 := by
  rcases le_total (2 ^ (-125 : ℤ)) w with hlow | hlow
  · have herror := h.error_le hlow hw hv
    linarith [show (0 : ℚ) ≤ 1 / 2 ^ 150 by positivity]
  · have herror := h.error_le_least (hv.trans hlow)
    have hw0 : 0 ≤ w / 2 ^ 24 := div_nonneg ((abs_nonneg v).trans hv) (by positivity)
    linarith

/-- A whole number of least units with few digits is exact, so the error of one with any number of digits
is a small part of a bound. -/
theorem error_le_of_units (h : Rounds v x) (hunits : ∃ k : ℤ, v = k * 2 ^ (-149 : ℤ))
    (hw : w ≤ 2 ^ 128) (hv : |v| ≤ w) : |val x - v| ≤ w / 2 ^ 24 := by
  rcases le_total (2 ^ (-125 : ℤ)) w with hlow | hlow
  · exact h.error_le hlow hw hv
  · obtain ⟨k, rfl⟩ := hunits
    have hk : |k| ≤ 2 ^ Format.binary32.mantissaBits := by
      have hsize := hv.trans hlow
      rw [abs_mul, abs_of_pos (show (0 : ℚ) < 2 ^ (-149 : ℤ) by positivity),
        ← le_div_iff₀ (by positivity)] at hsize
      have hdigits : (2 : ℚ) ^ (-125 : ℤ) / 2 ^ (-149 : ℤ) = 2 ^ Format.binary32.mantissaBits := by
        norm_num [mantissaBits_binary32]
      rw [hdigits] at hsize
      exact_mod_cast hsize
    obtain ⟨y, hy, hvalue⟩ := exists_whole exponentBits_le hk (t := -149) (by decide) (by decide)
    rw [← hvalue] at h hv ⊢
    rw [val, Nearest.value_eq h hy, sub_self, abs_zero]
    exact div_nonneg ((abs_nonneg _).trans hv) (by positivity)

end Rounds

def NonNeg (x : Float32) : Prop := IsNumber x ∧ 0 ≤ val x

theorem NonNeg.add (hx : NonNeg x) (hy : NonNeg y) :
    IsNumber (x + y) ∧ val x ≤ val (x + y) ∧ val y ≤ val (x + y) := by
  obtain ⟨hx, hx0⟩ := hx
  obtain ⟨hy, hy0⟩ := hy
  rcases add_cases_of_nonneg hx hy hx0 hy0 with ⟨-, -, hrounds⟩ | ⟨hnumber, hval, -⟩
  · exact ⟨hrounds.isNumber, hrounds.le_val hx (by linarith), hrounds.le_val hy (by linarith)⟩
  · rw [hval]
    exact ⟨hnumber, (abs_le.1 (abs_val_le hx)).2, (abs_le.1 (abs_val_le hy)).2⟩

/-- Small terms do not lead past a power of two that is large enough. -/
theorem NonNeg.add_le_power (hx : NonNeg x) (hy : NonNeg y) (hlow : -149 ≤ k)
    (hxk : val x ≤ 2 ^ (k + 25)) (hyk : val y ≤ 2 ^ k) : val (x + y) ≤ 2 ^ (k + 25) := by
  have hless : (2 : ℚ) ^ k ≤ 2 ^ (k + 25) := (zpow_le_zpow_iff_right₀ one_lt_two).2 (by omega)
  rcases add_cases_of_nonneg hx.1 hy.1 hx.2 hy.2 with ⟨-, -, hrounds⟩ | ⟨-, hval, hlarge | hlarge⟩
  · exact hrounds.le_power hlow (add_le_add hxk hyk)
  · rwa [hval, ← hlarge]
  · rw [hval, ← hlarge]
    exact hyk.trans hless

/-- A running sum is a number that is no smaller than its start and its terms. -/
theorem foldl_add (hx : NonNeg x) (h : ∀ y ∈ xs, NonNeg y) :
    IsNumber (xs.foldl (· + ·) x) ∧ val x ≤ val (xs.foldl (· + ·) x) ∧
      ∀ y ∈ xs, val y ≤ val (xs.foldl (· + ·) x) := by
  induction xs generalizing x with
  | nil => exact ⟨hx.1, le_rfl, by simp⟩
  | cons y xs ih =>
    obtain ⟨hy, hxs⟩ := List.forall_mem_cons.1 h
    obtain ⟨hnumber, hle, hle'⟩ := hx.add hy
    obtain ⟨hsum, hstart, hterms⟩ := ih ⟨hnumber, hx.2.trans hle⟩ hxs
    exact ⟨hsum, hle.trans hstart, List.forall_mem_cons.2 ⟨hle'.trans hstart, hterms⟩⟩

theorem foldl_add_le_power (hx : NonNeg x) (h : ∀ y ∈ xs, NonNeg y) (hlow : -149 ≤ k)
    (hxk : val x ≤ 2 ^ (k + 25)) (hk : ∀ y ∈ xs, val y ≤ 2 ^ k) :
    val (xs.foldl (· + ·) x) ≤ 2 ^ (k + 25) := by
  induction xs generalizing x with
  | nil => exact hxk
  | cons y xs ih =>
    obtain ⟨hy, hxs⟩ := List.forall_mem_cons.1 h
    obtain ⟨hyk, hk⟩ := List.forall_mem_cons.1 hk
    obtain ⟨hnumber, hle, -⟩ := hx.add hy
    exact ih ⟨hnumber, hx.2.trans hle⟩ hxs (hx.add_le_power hy hlow hxk hyk) hk

theorem nonNeg_zero : NonNeg 0 := ⟨isNumber_zero, le_rfl⟩

theorem nonNeg_runningSum (h : ∀ y ∈ xs, NonNeg y) : NonNeg (Scalar.runningSum xs) :=
  have hsum := foldl_add nonNeg_zero h
  ⟨hsum.1, hsum.2.1⟩

theorem val_le_runningSum (h : ∀ y ∈ xs, NonNeg y) (hx : x ∈ xs) :
    val x ≤ val (Scalar.runningSum xs) := (foldl_add nonNeg_zero h).2.2 x hx

/-- However many terms there are, their sum is bounded by a multiple of the largest one. -/
theorem runningSum_le_power (h : ∀ y ∈ xs, NonNeg y) (hlow : -149 ≤ k)
    (hk : ∀ y ∈ xs, val y ≤ 2 ^ k) : val (Scalar.runningSum xs) ≤ 2 ^ (k + 25) :=
  foldl_add_le_power nonNeg_zero h hlow (by rw [val_zero]; positivity) hk

/-- The size of the largest of some numbers, one of which is positive. -/
theorem exists_largest (h : ∀ y ∈ xs, NonNeg y) (hpos : ∃ y ∈ xs, 0 < val y) :
    ∃ p ∈ xs, ∃ k : ℤ, -149 ≤ k ∧ 2 ^ k ≤ val p ∧ ∀ y ∈ xs, val y ≤ 2 ^ (k + 1) := by
  obtain ⟨y, hy, hypos⟩ := hpos
  obtain ⟨p, hp, hmax⟩ := Finset.exists_max_image xs.toFinset val ⟨y, List.mem_toFinset.2 hy⟩
  rw [List.mem_toFinset] at hp
  have hppos : 0 < val p := hypos.trans_le (hmax y (List.mem_toFinset.2 hy))
  obtain ⟨k, hle, hlt⟩ := exists_mem_Ico_zpow hppos (one_lt_two (α := ℚ))
  refine ⟨p, hp, k, ?_, hle, fun x hx => (hmax x (List.mem_toFinset.2 hx)).trans hlt.le⟩
  have := (zpow_lt_zpow_iff_right₀ one_lt_two).1 ((power_le_val (h p hp).1 hppos).trans_lt hlt)
  omega

end NeuralFlow.Single
