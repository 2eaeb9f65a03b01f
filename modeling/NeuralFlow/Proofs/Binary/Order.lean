import Mathlib
import NeuralFlow.Proofs.Binary.Packing

/-! The order of floats is that of their values, if an infinite float counts as the first power of two
that is too large for the format. -/

namespace NeuralFlow.Binary

open Float.Model (Format)
open Float.Model.UnpackedFloat
open Float.Model

variable {spec : Format}

def signed : Sign → ℚ → ℚ
  | .positive, x => x
  | .negative, x => -x

def limit (spec : Format) : ℚ := 2 ^ (maxExponent spec + spec.mantissaBits)

theorem limit_pos (spec : Format) : 0 < limit spec := by
  unfold limit
  positivity

/-- The number that a float stands for. Infinite floats stand for the first power of two that is too
large, an undefined one for nothing. -/
def value (spec : Format) : UnpackedFloat → ℚ
  | .notANumber => 0
  | .infinity s => signed s (limit spec)
  | .zero _ => 0
  | .finite s m q _ => signed s (m * 2 ^ q)

/-- A defined float in the form that unpacking gives. -/
def Proper (spec : Format) : UnpackedFloat → Prop
  | .notANumber => False
  | .finite _ m q _ => Canonical spec m q ∧ q ≤ maxExponent spec
  | _ => True

namespace Canonical

variable {m n : ℕ} {q r : ℤ}

theorem value_pos (h : Canonical spec m q) : (0 : ℚ) < m * 2 ^ q :=
  mul_pos (by exact_mod_cast h.pos) (by positivity)

theorem value_lt (h : Canonical spec m q) : (m : ℚ) * 2 ^ q < 2 ^ (q + spec.mantissaBits) := by
  rw [add_comm, zpow_add₀ two_ne_zero, zpow_natCast]
  gcongr
  exact_mod_cast h.lt

theorem value_lt_limit (h : Canonical spec m q) (hq : q ≤ maxExponent spec) :
    (m : ℚ) * 2 ^ q < limit spec :=
  h.value_lt.trans_le ((zpow_le_zpow_iff_right₀ one_lt_two).2 (by linarith))

theorem le_value (h : Canonical spec m q) (hq : q ≠ spec.minExponent) :
    (2 : ℚ) ^ (q + spec.mantissaBitsWithoutImplicit) ≤ m * 2 ^ q := by
  rw [add_comm, zpow_add₀ two_ne_zero, zpow_natCast]
  gcongr
  exact_mod_cast h.full.resolve_left hq

/-- A larger exponent outweighs any mantissa. -/
theorem value_lt_of_lt (h : Canonical spec m q) (k : Canonical spec n r) (hqr : q < r) :
    (m : ℚ) * 2 ^ q < n * 2 ^ r := by
  have hmin := h.min
  refine h.value_lt.trans_le (le_trans ?_ (k.le_value (by omega)))
  rw [mantissaBits_eq]
  push_cast
  exact (zpow_le_zpow_iff_right₀ one_lt_two).2 (by linarith)

/-- Comparing exponents and then mantissas compares values. -/
theorem compare_eq (h : Canonical spec m q) (k : Canonical spec n r) :
    (compare q r).then (compare m n) = cmp ((m : ℚ) * 2 ^ q) (n * 2 ^ r) := by
  rcases lt_trichotomy q r with hqr | rfl | hqr
  · rw [compare_lt_iff_lt.2 hqr, (h.value_lt_of_lt k hqr).cmp_eq_lt]
    rfl
  · have hunit : (0 : ℚ) < 2 ^ q := by positivity
    rw [mul_comm, mul_comm (n : ℚ), cmp_mul_pos_left hunit, compare_eq_iff_eq.2 rfl]
    rcases lt_trichotomy m n with hmn | rfl | hmn
    · rw [compare_lt_iff_lt.2 hmn, LT.lt.cmp_eq_lt (by exact_mod_cast hmn)]
      rfl
    · rw [compare_eq_iff_eq.2 rfl, cmp_self_eq_eq]
      rfl
    · rw [compare_gt_iff_gt.2 hmn, LT.lt.cmp_eq_gt (by exact_mod_cast hmn)]
      rfl
  · rw [compare_gt_iff_gt.2 hqr, (k.value_lt_of_lt h hqr).cmp_eq_gt]
    rfl

end Canonical

/-- Defined floats are ordered by their values. -/
theorem Proper.compare_eq {x y : UnpackedFloat} (hx : Proper spec x) (hy : Proper spec y) :
    x.compare y = some (cmp (value spec x) (value spec y)) := by
  have hlimit := limit_pos spec
  have hlt : ∀ {a b : ℚ}, a < b → some Ordering.lt = some (cmp a b) := fun h => by rw [h.cmp_eq_lt]
  have hgt : ∀ {a b : ℚ}, b < a → some Ordering.gt = some (cmp a b) := fun h => by rw [h.cmp_eq_gt]
  have heq : ∀ {a : ℚ}, some Ordering.eq = some (cmp a a) := by simp [cmp_self_eq_eq]
  cases x with
  | notANumber => exact hx.elim
  | infinity s =>
    cases y with
    | notANumber => exact hy.elim
    | infinity s' =>
      cases s <;> cases s'
      · exact heq
      · exact hlt (by simp only [value, signed]; linarith)
      · exact hgt (by simp only [value, signed]; linarith)
      · exact heq
    | zero s' =>
      cases s
      · exact hlt (by simp only [value, signed]; linarith)
      · exact hgt hlimit
    | finite s' n r hn =>
      have hpos := hy.1.value_pos
      have hbelow := hy.1.value_lt_limit hy.2
      cases s <;> cases s'
      · exact hlt (by simp only [value, signed]; linarith)
      · exact hlt (by simp only [value, signed]; linarith)
      · exact hgt (by simp only [value, signed]; linarith)
      · exact hgt hbelow
  | zero s =>
    cases y with
    | notANumber => exact hy.elim
    | infinity s' =>
      cases s'
      · exact hgt (by simp only [value, signed]; linarith)
      · exact hlt hlimit
    | zero s' => exact heq
    | finite s' n r hn =>
      have hpos := hy.1.value_pos
      cases s'
      · exact hgt (by simp only [value, signed]; linarith)
      · exact hlt hpos
  | finite s m q hm =>
    have hpos := hx.1.value_pos
    cases y with
    | notANumber => exact hy.elim
    | infinity s' =>
      have hbelow := hx.1.value_lt_limit hx.2
      cases s <;> cases s'
      · exact hgt (by simp only [value, signed]; linarith)
      · exact hlt (by simp only [value, signed]; linarith)
      · exact hgt (by simp only [value, signed]; linarith)
      · exact hlt hbelow
    | zero s' =>
      cases s
      · exact hlt (by simp only [value, signed]; linarith)
      · exact hgt hpos
    | finite s' n r hn =>
      have hpos' := hy.1.value_pos
      cases s <;> cases s'
      · refine congrArg some ?_
        rw [hx.1.compare_eq hy.1, cmp_swap, value, value, signed, signed, neg_eq_neg_one_mul,
          neg_eq_neg_one_mul ((n : ℚ) * 2 ^ r), cmp_mul_neg_left (by norm_num)]
      · exact hlt (by simp only [value, signed]; linarith)
      · exact hgt (by simp only [value, signed]; linarith)
      · exact congrArg some (hx.1.compare_eq hy.1)

end NeuralFlow.Binary
