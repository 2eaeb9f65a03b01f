import Mathlib
import NeuralFlow.Proofs.Single.Proportions

/-! How far results reach in single precision. Numbers that are not negative are followed through products,
sums and differences: each result is close to the exact one as long as the operands are finite, and a
finite result has finite operands. Only a product of zero and something infinite is undefined. -/

namespace NeuralFlow.Single

open Float.Model (Format UnpackedFloat)
open Binary

variable {x y : Float32} {v w slack : ℚ} {P : Prop}

theorem unpack_mul (x y : Float32) :
    (x * y).toModel.unpack = packed (.mul .binary32 x.toModel.unpack y.toModel.unpack) := rfl

theorem val_abs (hx : IsNumber x) : val x.abs = |val x| := by
  have hproper : Proper .binary32 x.toModel.unpack.abs := (proper_iff.2 hx).abs
  rw [val, unpack_abs, packed, hproper.unpack_pack, value_abs, val]

theorem isFinite_iff_lt (hx : NonNeg x) : x.isFinite = true ↔ val x < 2 ^ 128 := by
  rw [isFinite_iff, and_iff_right hx.1, abs_of_nonneg hx.2]

theorem val_lt (hx : x.isFinite = true) : val x < 2 ^ 128 := (abs_lt.1 (isFinite_iff.1 hx).2).2

theorem isNumber_of_mul (h : IsNumber (x * y)) : IsNumber x := by
  by_contra hx
  refine not_isNumber_iff.2 ?_ h
  rw [unpack_mul, not_isNumber_iff.1 hx]
  exact packed_notANumber

/-- A number that is not negative is infinite, zero or positive and finite. -/
theorem NonNeg.cases (hx : NonNeg x) :
    (x.toModel.unpack = .infinity .positive ∧ val x = 2 ^ 128) ∨
    (x.isFinite = true ∧ val x = 0 ∧ ∃ s, x.toModel.unpack = .zero s) ∨
    (x.isFinite = true ∧ 0 < val x ∧ ∃ m q hm, x.toModel.unpack = .finite .positive m q hm) := by
  obtain ⟨hnumber, hnonneg⟩ := hx
  rw [Float32.isFinite, Float32.Model.isFinite, val] at *
  have hlimit := limit_pos .binary32
  cases hux : x.toModel.unpack with
  | notANumber => exact absurd hnumber (not_isNumber_iff.2 hux)
  | infinity s =>
    rw [hux] at hnonneg
    cases s
    · simp only [value, signed] at hnonneg
      linarith
    · exact Or.inl ⟨rfl, rfl⟩
  | zero s => exact Or.inr (Or.inl ⟨rfl, rfl, s, rfl⟩)
  | finite s m q hm =>
    have hpos : (0 : ℚ) < m * 2 ^ q := by positivity
    rw [hux] at hnonneg
    cases s
    · simp only [value, signed] at hnonneg
      linarith
    · exact Or.inr (Or.inr ⟨rfl, hpos, m, q, hm, rfl⟩)

theorem isInf_iff_eq (hx : NonNeg x) : x.isInf = true ↔ val x = 2 ^ 128 := by
  rw [isInf_iff, and_iff_right hx.1, abs_of_nonneg hx.2]

theorem val_le_limit (hx : IsNumber x) : val x ≤ 2 ^ 128 := le_of_abs_le (abs_val_le hx)

/-- A product of numbers that are not negative is rounded, or infinite since a positive number is taken
infinitely often, or undefined since nothing is. -/
theorem mul_cases (hx : NonNeg x) (hy : NonNeg y) :
    (x.isFinite = true ∧ y.isFinite = true ∧ Rounds (val x * val y) (x * y)) ∨
    (IsNumber (x * y) ∧ val (x * y) = 2 ^ 128 ∧
      (val x = 2 ^ 128 ∧ 0 < val y ∨ 0 < val x ∧ val y = 2 ^ 128)) ∨
    (¬ IsNumber (x * y) ∧ (val x = 2 ^ 128 ∧ val y = 0 ∨ val x = 0 ∧ val y = 2 ^ 128)) := by
  have hinfinite : UnpackedFloat.mul .binary32 x.toModel.unpack y.toModel.unpack =
      .infinity .positive → IsNumber (x * y) ∧ val (x * y) = 2 ^ 128 := fun h =>
    unpack_eq_infinity_iff.1 ((unpack_mul x y).trans ((congrArg packed h).trans (packed_infinity _)))
  have hundefined : UnpackedFloat.mul .binary32 x.toModel.unpack y.toModel.unpack =
      .notANumber → ¬ IsNumber (x * y) := fun h =>
    not_isNumber_iff.2 ((unpack_mul x y).trans ((congrArg packed h).trans packed_notANumber))
  have hlarge : (0 : ℚ) < 2 ^ 128 := by positivity
  rcases hx.cases with ⟨hux, hxval⟩ | ⟨fx, hx0, s, hux⟩ | ⟨fx, hxpos, m, q, hm, hux⟩ <;>
    rcases hy.cases with ⟨huy, hyval⟩ | ⟨fy, hy0, s', huy⟩ | ⟨fy, hypos, n, r, hn, huy⟩
  · obtain ⟨hnumber, hval⟩ := hinfinite (by rw [hux, huy]; rfl)
    exact Or.inr (Or.inl ⟨hnumber, hval, Or.inl ⟨hxval, hyval ▸ hlarge⟩⟩)
  · exact Or.inr (Or.inr ⟨hundefined (by rw [hux, huy]; rfl), Or.inl ⟨hxval, hy0⟩⟩)
  · obtain ⟨hnumber, hval⟩ := hinfinite (by rw [hux, huy]; rfl)
    exact Or.inr (Or.inl ⟨hnumber, hval, Or.inl ⟨hxval, hypos⟩⟩)
  · exact Or.inr (Or.inr ⟨hundefined (by rw [hux, huy]; rfl), Or.inr ⟨hx0, hyval⟩⟩)
  · exact Or.inl ⟨fx, fy, rounds_mul fx fy⟩
  · exact Or.inl ⟨fx, fy, rounds_mul fx fy⟩
  · obtain ⟨hnumber, hval⟩ := hinfinite (by rw [hux, huy]; rfl)
    exact Or.inr (Or.inl ⟨hnumber, hval, Or.inr ⟨hxpos, hyval⟩⟩)
  · exact Or.inl ⟨fx, fy, rounds_mul fx fy⟩
  · exact Or.inl ⟨fx, fy, rounds_mul fx fy⟩

/-! Results close to exact ones. -/

/-- A number that is not negative and differs from another one by a small part of it and a little more,
unless it is infinite. -/
structure Close (slack v : ℚ) (x : Float32) : Prop where
  nonneg : NonNeg x
  upper : val x ≤ (1 + 1 / 2 ^ 24) * v + slack
  lower : x.isFinite = true → (1 - 1 / 2 ^ 24) * v - slack ≤ val x

namespace Rounds

theorem le_limit (h : Rounds v x) (hx : x.isFinite = true) : v ≤ 2 ^ 128 := by
  by_contra! hlt
  obtain ⟨y, hy, hval⟩ := exists_val_eq_power (k := 128) (by norm_num) le_rfl
  have hle := h.le_val hy (hval ▸ by exact_mod_cast hlt.le)
  rw [hval] at hle
  exact (val_lt hx).not_ge (by exact_mod_cast hle)

theorem close_of_error (h : Rounds v x) (hv : 0 ≤ v) (hslack : 0 ≤ slack)
    (herror : v ≤ 2 ^ 128 → |val x - v| ≤ v / 2 ^ 24 + slack) : Close slack v x where
  nonneg := ⟨h.isNumber, h.nonneg hv⟩
  upper := by
    rcases le_total v (2 ^ 128) with hle | hle
    · linarith [(abs_le.1 (herror hle)).2]
    · linarith [val_le_limit h.isNumber]
  lower hx := by linarith [(abs_le.1 (herror (h.le_limit hx))).1]

theorem close (h : Rounds v x) (hv : 0 ≤ v) : Close (1 / 2 ^ 150) v x :=
  h.close_of_error hv (by positivity) fun hle => h.error_le_add hle (abs_of_nonneg hv).le

theorem close_of_units (h : Rounds v x) (hunits : ∃ k : ℤ, v = k * 2 ^ (-149 : ℤ)) (hv : 0 ≤ v) :
    Close 0 v x :=
  h.close_of_error hv le_rfl fun hle =>
    (h.error_le_of_units hunits hle (abs_of_nonneg hv).le).trans_eq (add_zero _).symm

end Rounds

namespace Close

theorem isFinite (h : Close slack v x) (hlt : (1 + 1 / 2 ^ 24) * v + slack < 2 ^ 128) :
    x.isFinite = true := (isFinite_iff_lt h.nonneg).2 (h.upper.trans_lt hlt)

/-- What is added to the small part is itself a small part of a bound that is not tiny. -/
theorem le (h : Close slack v x) (hv : v ≤ w) (hslack : slack ≤ w / 2 ^ 24) :
    val x ≤ (1 + 1 / 2 ^ 23) * w := by linarith [h.upper]

theorem ge (h : Close slack v x) (hx : x.isFinite = true) (hv : w ≤ v) (hslack : slack ≤ w / 2 ^ 24) :
    (1 - 1 / 2 ^ 23) * w ≤ val x := by linarith [h.lower hx]

end Close

/-- A number from operands that are finite under some condition: it is close to the exact result then, and
finite only then. -/
structure Computed (P : Prop) (slack v : ℚ) (x : Float32) : Prop where
  nonneg : NonNeg x
  operands : x.isFinite = true → P
  close : P → Close slack v x

theorem computed_of_infinite (hx : IsNumber x) (hval : val x = 2 ^ 128) (hP : ¬ P) :
    Computed P slack v x where
  nonneg := ⟨hx, hval ▸ by positivity⟩
  operands h := absurd hval (val_lt h).ne
  close h := absurd h hP

theorem units_add (hx : IsNumber x) (hy : IsNumber y) :
    ∃ k : ℤ, val x + val y = k * 2 ^ (-149 : ℤ) := by
  obtain ⟨k, hk⟩ := exists_units hx
  obtain ⟨l, hl⟩ := exists_units hy
  exact ⟨k + l, by rw [hk, hl, Int.cast_add, add_mul]⟩

theorem units_sub (hx : IsNumber x) (hy : IsNumber y) :
    ∃ k : ℤ, val x - val y = k * 2 ^ (-149 : ℤ) := by
  obtain ⟨k, hk⟩ := exists_units hx
  obtain ⟨l, hl⟩ := exists_units hy
  exact ⟨k - l, by rw [hk, hl, Int.cast_sub, sub_mul]⟩

theorem computed_mul (hx : NonNeg x) (hy : NonNeg y) (hleft : val x = 2 ^ 128 → 0 < val y)
    (hright : val y = 2 ^ 128 → 0 < val x) :
    Computed (x.isFinite = true ∧ y.isFinite = true) (1 / 2 ^ 150) (val x * val y) (x * y) := by
  rcases mul_cases hx hy with ⟨fx, fy, hrounds⟩ | ⟨hnumber, hval, hone⟩ | ⟨-, hone⟩
  · have hclose := hrounds.close (mul_nonneg hx.2 hy.2)
    exact ⟨hclose.nonneg, fun _ => ⟨fx, fy⟩, fun _ => hclose⟩
  · refine computed_of_infinite hnumber hval fun ⟨fx, fy⟩ => ?_
    rcases hone with ⟨h, -⟩ | ⟨-, h⟩
    · exact (val_lt fx).ne h
    · exact (val_lt fy).ne h
  · rcases hone with ⟨h, hzero⟩ | ⟨hzero, h⟩
    · exact absurd hzero (hleft h).ne'
    · exact absurd hzero (hright h).ne'

/-- A product with a finite factor on the left. -/
theorem computed_mul_left (hx : x.isFinite = true) (hpos : 0 < val x) (hy : NonNeg y) :
    Computed (y.isFinite = true) (1 / 2 ^ 150) (val x * val y) (x * y) := by
  have hproduct := computed_mul ⟨isNumber_of_isFinite hx, hpos.le⟩ hy
    (fun h => absurd h (val_lt hx).ne) fun _ => hpos
  exact ⟨hproduct.nonneg, fun h => (hproduct.operands h).2, fun h => hproduct.close ⟨hx, h⟩⟩

/-- A product with a finite factor on the right. -/
theorem computed_mul_right (hx : NonNeg x) (hy : y.isFinite = true) (hy0 : 0 ≤ val y)
    (hdefined : val x = 2 ^ 128 → 0 < val y) :
    Computed (x.isFinite = true) (1 / 2 ^ 150) (val x * val y) (x * y) := by
  have hproduct := computed_mul hx ⟨isNumber_of_isFinite hy, hy0⟩ hdefined
    fun h => absurd h (val_lt hy).ne
  exact ⟨hproduct.nonneg, fun h => (hproduct.operands h).1, fun h => hproduct.close ⟨h, hy⟩⟩

theorem computed_add (hx : NonNeg x) (hy : NonNeg y) :
    Computed (x.isFinite = true ∧ y.isFinite = true) 0 (val x + val y) (x + y) := by
  rcases add_cases_of_nonneg hx.1 hy.1 hx.2 hy.2 with ⟨fx, fy, hrounds⟩ | ⟨hnumber, hval, hone⟩
  · have hclose := hrounds.close_of_units (units_add hx.1 hy.1) (add_nonneg hx.2 hy.2)
    exact ⟨hclose.nonneg, fun _ => ⟨fx, fy⟩, fun _ => hclose⟩
  · refine computed_of_infinite hnumber hval fun ⟨fx, fy⟩ => ?_
    rcases hone with h | h
    · exact (val_lt fx).ne h
    · exact (val_lt fy).ne h

theorem computed_sub (hx : IsNumber x) (fy : y.isFinite = true) (hle : val y ≤ val x) :
    Computed (x.isFinite = true) 0 (val x - val y) (x - y) := by
  have hy := isNumber_of_isFinite fy
  rcases sub_cases hx hy with ⟨fx, -, hrounds⟩ | ⟨-, hinf, heq⟩ | ⟨hnumber, ⟨hval, hlt⟩ | ⟨-, hlt⟩⟩
  · have hclose := hrounds.close_of_units (units_sub hx hy) (sub_nonneg.2 hle)
    exact ⟨hclose.nonneg, fun _ => fx, fun _ => hclose⟩
  · have habs := (isInf_iff.1 hinf).2
    rw [heq] at habs
    exact absurd habs (isFinite_iff.1 fy).2.ne
  · refine ⟨⟨hnumber, hval ▸ by positivity⟩, fun h => absurd hval (val_lt h).ne, fun fx => ?_⟩
    exact (rounds_sub fx fy).close_of_units (units_sub hx hy) (sub_nonneg.2 hle)
  · exact absurd hlt hle.not_gt

/-! Products of finite numbers that are not negative. -/

section Products

variable {a : Float32} (ha : a.isFinite = true) (ha0 : 0 ≤ val a) (hx : x.isFinite = true)
  (hx0 : 0 ≤ val x)

include ha hx

theorem val_mul_eq_zero (hzero : val x = 0) : (a * x).isFinite = true ∧ val (a * x) = 0 := by
  have hrounds := rounds_mul ha hx
  rw [hzero, mul_zero, ← val_zero] at hrounds
  have hval := hrounds.val_eq isNumber_zero
  exact ⟨isFinite_iff.2 ⟨hrounds.isNumber, by rw [hval, val_zero]; norm_num⟩, hval⟩

include ha0

/-- A finite number taken infinitely often: the other one is more than one. -/
theorem one_lt_of_infinite (h : val (a * x) = 2 ^ 128) : 1 < val x := by
  by_contra! hle
  have hval := (rounds_mul ha hx).val_le (isNumber_of_isFinite ha) (mul_le_of_le_one_right ha0 hle)
  exact (val_lt ha).not_ge (h ▸ hval)

include hx0

theorem close_mul : Close (1 / 2 ^ 150) (val a * val x) (a * x) :=
  (rounds_mul ha hx).close (mul_nonneg ha0 hx0)

theorem isFinite_mul (hlt : 1 < val x → (1 + 1 / 2 ^ 24) * (val a * val x) + 1 / 2 ^ 150 < 2 ^ 128) :
    (a * x).isFinite = true := by
  have hclose := close_mul ha ha0 hx hx0
  rw [isFinite_iff_lt hclose.nonneg]
  refine (val_le_limit hclose.nonneg.1).lt_of_ne fun h => ?_
  exact (hclose.upper.trans_lt (hlt (one_lt_of_infinite ha ha0 hx h))).ne h

/-- The product taken once more, undefined nowhere. -/
theorem computed_mul_mul : Computed ((a * x).isFinite = true) (1 / 2 ^ 150) (val (a * x) * val x)
    (a * x * x) :=
  computed_mul_right (close_mul ha ha0 hx hx0).nonneg hx hx0
    fun h => zero_lt_one.trans (one_lt_of_infinite ha ha0 hx h)

end Products

/-! Constants. -/

theorem val_half : (0.5 : Float32).isFinite = true ∧ val 0.5 = 1 / 2 :=
  constant_spec 8388608 (-24) (by norm_num) rfl (by norm_num)

theorem val_two : (2.0 : Float32).isFinite = true ∧ val 2.0 = 2 :=
  constant_spec 8388608 (-22) (by norm_num) rfl (by norm_num)

theorem val_three : (3.0 : Float32).isFinite = true ∧ val 3.0 = 3 :=
  constant_spec 12582912 (-22) (by norm_num) rfl (by norm_num)

theorem val_twenty : (20.0 : Float32).isFinite = true ∧ val 20.0 = 20 :=
  constant_spec 10485760 (-19) (by norm_num) rfl (by norm_num)

/-! Halves. -/

theorem computed_half (hx : NonNeg x) :
    Computed (x.isFinite = true) (1 / 2 ^ 150) (1 / 2 * val x) (0.5 * x) := by
  obtain ⟨hhalf, hval⟩ := val_half
  rw [← hval]
  exact computed_mul_left hhalf (hval ▸ by norm_num) hx

/-- Half of a square, taken from the left: both factors are infinite or none is zero then. -/
theorem computed_half_mul (hx : NonNeg x) : Computed ((0.5 * x).isFinite = true ∧ x.isFinite = true)
    (1 / 2 ^ 150) (val (0.5 * x) * val x) (0.5 * x * x) := by
  have hhalf := computed_half hx
  refine computed_mul hhalf.nonneg hx (fun h => hx.2.lt_of_ne' fun hzero => ?_) fun h => ?_
  · have hfinite : x.isFinite = true := (isFinite_iff_lt hx).2 (by rw [hzero]; norm_num)
    rw [(val_mul_eq_zero val_half.1 hfinite hzero).2] at h
    norm_num at h
  · have hinf : ¬ (0.5 * x).isFinite = true := fun hfinite => (val_lt (hhalf.operands hfinite)).ne h
    rw [isFinite_iff_lt hhalf.nonneg, not_lt] at hinf
    exact lt_of_lt_of_le (by positivity) hinf

end NeuralFlow.Single
