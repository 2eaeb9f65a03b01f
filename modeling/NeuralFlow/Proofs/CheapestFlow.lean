import Mathlib
import NeuralFlow.Proofs.Cost

/-! When the chosen flow is a cheapest one. The exponential cost keeps the arguments of logarithms
above a bound that does not scale with its constant, so a constant below the bound lifts prices: the
chosen flow is then the one for a higher price, and less of it would cost less. At all other prices
no flow costs less. -/

namespace NeuralFlow

namespace DualAscent

open CostFunction LawfulLibrary

variable {K : Type} [ExactScalar K]

/-- The prices that the bound below logarithms lifts: the scale and the price are both below it, and
the tail is not reached. -/
def LiftedPrice (cost : CostFunction K) (y : K) : Prop :=
  cost.family = .exponential ∧ cost.constant < smallNumber ∧ y < smallNumber ∧
    y ≤ cost.constant * Scalar.exp tailStart

variable [LawfulLibrary K]

theorem meetsPrice_of_not_lifted {cost : CostFunction K} (hc : 0 < cost.constant) {y : K}
    (h : ¬ LiftedPrice cost y) : MeetsPrice cost y := by
  by_cases hfloor : cost.family = .exponential → smallNumber ≤ cost.constant
  · exact meetsPrice ⟨hc, hfloor⟩ y
  · obtain ⟨family, c⟩ := cost
    obtain ⟨hexp, hsmall⟩ : family = .exponential ∧ c < smallNumber := by simpa using hfloor
    subst hexp
    by_cases hstart : y ≤ c * Scalar.exp 20
    · have hy : smallNumber ≤ y := by
        by_contra hlow
        exact h ⟨rfl, hsmall, not_le.1 hlow, tailStart_eq (K := K) ▸ hstart⟩
      exact meetsPrice_log hc hy (hsmall.trans_le hy) hstart
    · exact meetsPrice_tail hc hstart

/-- The flow chosen at a lifted price, before its scale is taken out. -/
theorem mul_chosenFlow_lifted {c y : K} (hc : 0 < c) (h : LiftedPrice ⟨.exponential, c⟩ y) :
    c * chosenFlow ⟨.exponential, c⟩ y = Scalar.log (smallNumber / c) := by
  obtain ⟨-, hsmall, hy, hstart⟩ := h
  rw [tailStart_eq] at hstart
  have hlog : 0 ≤ Scalar.log (smallNumber / c) := log_nonneg ((one_lt_div hc).2 hsmall).le
  rw [chosenFlow_eq, inverseDerivative_exponential, if_pos hstart, max_eq_right hy.le,
    max_eq_left (div_nonneg hlog hc.le), mul_div_cancel₀ _ hc.ne']

/-- A lifted price is worth less flow than is chosen: there is a smaller flow whose marginal cost is
above the price already. -/
theorem exists_dearer_of_lifted {cost : CostFunction K} (hc : 0 < cost.constant) {y : K}
    (h : LiftedPrice cost y) :
    ∃ x, 0 ≤ x ∧ x < chosenFlow cost y ∧ y < cost.derivative x := by
  obtain ⟨family, c⟩ := cost
  obtain rfl : family = .exponential := h.1
  have hchosen := mul_chosenFlow_lifted hc h
  obtain ⟨-, hsmall, hy, hstart⟩ := h
  rw [tailStart_eq] at hstart
  have hone : 1 ≤ max y c / c := (one_le_div hc).2 (le_max_right y c)
  have hpos : 0 < max y c / c := one_pos.trans_le hone
  have hend : max y c / c ≤ Scalar.exp 20 := by
    have hunit : (1 : K) ≤ Scalar.exp 20 := one_le_exp (by norm_num)
    rw [div_le_iff₀' hc]
    exact max_le hstart (le_mul_of_one_le_right hc.le hunit)
  -- the scaled flow that meets the price, or zero if the price is too low for any, lies below
  have hbelow : Scalar.log (max y c / c) < c * chosenFlow ⟨.exponential, c⟩ y := by
    rw [hchosen]
    exact log_lt_log hpos (div_lt_div_of_pos_right (max_lt hy hsmall) hc)
  obtain ⟨t, hlow, hhigh⟩ := exists_between hbelow
  refine ⟨t / c, div_nonneg ((log_nonneg hone).trans hlow.le) hc.le, (div_lt_iff₀' hc).2 hhigh, ?_⟩
  calc y ≤ max y c := le_max_left y c
    _ = c * growthSlope (Scalar.log (max y c / c)) := by
        rw [growthSlope_log hpos hend, mul_div_cancel₀ _ hc.ne']
    _ < c * growthSlope t := mul_lt_mul_of_pos_left (growthSlope_strictMono hlow) hc
    _ = derivative ⟨.exponential, c⟩ (t / c) := by
        rw [derivative_exponential, mul_div_cancel₀ _ hc.ne']

/-- The chosen flow is a cheapest one except at the lifted prices. -/
theorem isMinOn_chosenFlow_iff {family : CostFamily} {constant : K} {cost : CostFunction K}
    (h : CostFunction.ofFamily family constant = .ok cost) (y : K) :
    IsMinOn (fun x => cost.apply x - y * x) (Set.Ici 0) (chosenFlow cost y) ↔
      ¬ LiftedPrice cost y := by
  have hc : 0 < cost.constant := by
    obtain ⟨hpos, rfl⟩ := ofFamily_eq_ok_iff.1 h
    exact hpos
  rw [isMinOn_iff]
  constructor
  · intro hleast hlift
    obtain ⟨x, hx, hless, hdear⟩ := exists_dearer_of_lifted hc hlift
    -- from there on every further unit costs more than it brings
    have htangent := tangent_le_apply hc hx (chosenFlow_nonneg cost y)
    have hrise := mul_pos (sub_pos.2 hdear) (sub_pos.2 hless)
    have hbest := hleast x hx
    linarith
  · intro hfair x hx
    exact (meetsPrice_of_not_lifted hc hfair).least hc hx

/-- A constant a tenth of the bound: at the price zero, where only no flow is cheapest, some is chosen;
the price one is met. -/
theorem isMinOn_chosenFlow_tenth :
    CostFunction.ofFamily .exponential (1e-8 : ℝ) = .ok ⟨.exponential, 1e-8⟩ ∧
    ¬ IsMinOn (fun x : ℝ => CostFunction.apply ⟨.exponential, 1e-8⟩ x - 0 * x) (Set.Ici 0)
      (chosenFlow ⟨.exponential, 1e-8⟩ 0) ∧
    IsMinOn (fun x : ℝ => CostFunction.apply ⟨.exponential, 1e-8⟩ x - 1 * x) (Set.Ici 0)
      (chosenFlow ⟨.exponential, 1e-8⟩ 1) := by
  have haccept : CostFunction.ofFamily .exponential (1e-8 : ℝ) = .ok ⟨.exponential, 1e-8⟩ :=
    ofFamily_eq_ok_iff.2 ⟨by norm_num, rfl⟩
  have hbound : (smallNumber : ℝ) = 1e-7 := rfl
  refine ⟨haccept, fun hleast => ?_, ?_⟩
  · refine (isMinOn_chosenFlow_iff haccept 0).1 hleast ⟨rfl, ?_, smallNumber_pos, ?_⟩
    · rw [hbound]
      norm_num
    · exact mul_nonneg (by norm_num) (exp_pos _).le
  · refine (isMinOn_chosenFlow_iff haccept 1).2 fun hlift => absurd hlift.2.2.1 (not_lt.2 ?_)
    rw [hbound]
    norm_num

end DualAscent

end NeuralFlow
