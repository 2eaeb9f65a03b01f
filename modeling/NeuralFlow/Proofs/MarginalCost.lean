import Mathlib
import NeuralFlow.Proofs.Cost

/-! The marginal cost. It is the slope of a tangent that lies below the cost at all flows, it rises from
each flow to the next, and its inverse takes it back to the flow. The inverse is monotone over all
prices; prices below the marginal cost of no flow are not taken to flows above zero. -/

namespace NeuralFlow

open DualAscent LawfulLibrary

variable {K : Type} [ExactScalar K]

namespace CostFunction

section Rise

variable [LawfulLibrary K]

theorem derivative_strictMonoOn {cost : CostFunction K} (hc : 0 < cost.constant) :
    StrictMonoOn cost.derivative (Set.Ici 0) := by
  obtain ⟨family, c⟩ := cost
  change 0 < c at hc
  intro x hx y hy hxy
  rw [Set.mem_Ici] at hx hy
  cases family with
  | quadratic =>
    rw [derivative_quadratic, derivative_quadratic]
    exact mul_lt_mul_of_pos_left hxy (by positivity)
  | cubic =>
    rw [derivative_cubic, derivative_cubic, abs_of_nonneg hx, abs_of_nonneg hy, mul_assoc,
      mul_assoc (3 * c)]
    exact mul_lt_mul_of_pos_left (mul_self_lt_mul_self hx hxy) (by positivity)
  | exponential =>
    rw [derivative_exponential, derivative_exponential]
    exact mul_lt_mul_of_pos_left (growthSlope_strictMono (mul_lt_mul_of_pos_left hxy hc)) hc

theorem apply_strictMonoOn {cost : CostFunction K} (hc : 0 < cost.constant) :
    StrictMonoOn cost.apply (Set.Ici 0) := by
  intro x hx y _ hxy
  -- the slope may be zero at zero, so the cost is seen to rise from a flow between the two
  obtain ⟨m, hxm, hmy⟩ := exists_between hxy
  have hm : 0 < m := lt_of_le_of_lt hx hxm
  have hslope : 0 < cost.derivative m :=
    (derivative_nonneg hc le_rfl).trans_lt (derivative_strictMonoOn hc Set.self_mem_Ici hm.le hm)
  calc cost.apply x ≤ cost.apply m := apply_mono hc hx hxm.le
    _ < cost.apply m + cost.derivative m * (y - m) :=
        lt_add_of_pos_right _ (mul_pos hslope (sub_pos.2 hmy))
    _ ≤ cost.apply y := tangent_le_apply hc hm.le (hm.trans hmy).le

/-- On the flows that are not negative a cost lies above all its tangents, whichever sides of the start
of the tail the two flows are on. It is zero at no flow and rises strictly, and so does its slope. -/
theorem apply_above_tangents {cost : CostFunction K} (hc : 0 < cost.constant) :
    (∀ x y, 0 ≤ x → 0 ≤ y → cost.apply x + cost.derivative x * (y - x) ≤ cost.apply y) ∧
    cost.apply 0 = 0 ∧ (∀ x, 0 ≤ x → 0 ≤ cost.apply x) ∧ StrictMonoOn cost.apply (Set.Ici 0) ∧
    (∀ x, 0 ≤ x → 0 ≤ cost.derivative x) ∧ StrictMonoOn cost.derivative (Set.Ici 0) :=
  ⟨fun _ _ hx hy => tangent_le_apply hc hx hy, apply_zero cost, fun _ hx => apply_nonneg hc hx,
    apply_strictMonoOn hc, fun _ hx => derivative_nonneg hc hx, derivative_strictMonoOn hc⟩

/-- The tail of the exponential with scale one starts between the flows `10` and `30`. -/
theorem apply_above_tangents_tail :
    (tailStart : ℝ) ∈ Set.Ioo 10 30 ∧
    apply (⟨.exponential, 1⟩ : CostFunction ℝ) 10 + derivative ⟨.exponential, 1⟩ (10 : ℝ) * 20 ≤
      apply (⟨.exponential, 1⟩ : CostFunction ℝ) 30 ∧
    apply (⟨.exponential, 1⟩ : CostFunction ℝ) 30 + derivative ⟨.exponential, 1⟩ (30 : ℝ) * (-20) ≤
      apply (⟨.exponential, 1⟩ : CostFunction ℝ) 10 ∧
    derivative ⟨.exponential, 1⟩ (10 : ℝ) < derivative ⟨.exponential, 1⟩ (30 : ℝ) := by
  have hc : 0 < (⟨.exponential, 1⟩ : CostFunction ℝ).constant := one_pos
  obtain ⟨htangent, -, -, -, -, hslope⟩ := apply_above_tangents hc
  have hup := htangent 10 30 (by norm_num) (by norm_num)
  have hdown := htangent 30 10 (by norm_num) (by norm_num)
  rw [show (30 : ℝ) - 10 = 20 by norm_num] at hup
  rw [show (10 : ℝ) - 30 = -20 by norm_num] at hdown
  refine ⟨?_, hup, hdown, hslope (by norm_num) (by norm_num) (by norm_num)⟩
  rw [tailStart_eq]
  norm_num

end Rise

end CostFunction

open CostFunction

/-! The flow chosen at a marginal cost, and the marginal cost of a chosen flow. -/

section Chosen

variable [LawfulLibrary K]

theorem DualAscent.derivative_chosenFlow {cost : CostFunction K} (h : cost.Admissible) (y : K) :
    cost.derivative (chosenFlow cost y) = max y (cost.derivative 0) := by
  rcases meetsPrice h y with hmet | ⟨hnone, hlow⟩
  · have hleast := (derivative_strictMonoOn h.1).monotoneOn Set.self_mem_Ici
      (chosenFlow_nonneg cost y) (chosenFlow_nonneg cost y)
    rw [hmet] at hleast ⊢
    exact (max_eq_left hleast).symm
  · rw [hnone, max_eq_right hlow]

theorem DualAscent.chosenFlow_derivative {cost : CostFunction K} (h : cost.Admissible) {x : K}
    (hx : 0 ≤ x) : chosenFlow cost (cost.derivative x) = x := by
  have hrises := derivative_strictMonoOn h.1
  refine hrises.injOn (chosenFlow_nonneg cost _) hx ?_
  rw [derivative_chosenFlow h, max_eq_left (hrises.monotoneOn Set.self_mem_Ici hx hx)]

end Chosen

namespace CostFunction

theorem inverseDerivative_quadratic_mono {c : K} (hc : 0 < c) :
    Monotone (inverseDerivative ⟨.quadratic, c⟩) := by
  intro y z hyz
  rw [inverseDerivative_quadratic, inverseDerivative_quadratic]
  gcongr

variable [LawfulLibrary K]

theorem inverseDerivative_cubic_mono {c : K} (hc : 0 < c) :
    Monotone (inverseDerivative ⟨.cubic, c⟩) := by
  have hroot : ∀ y z : K, |y| ≤ |z| →
      Scalar.sqrt (|y| / (3 * c)) ≤ Scalar.sqrt (|z| / (3 * c)) := by
    intro y z h
    exact sqrt_le_sqrt (by positivity) (by gcongr)
  have hnonneg : ∀ y : K, 0 ≤ Scalar.sqrt (|y| / (3 * c)) := fun y =>
    sqrt_nonneg _ (by positivity)
  intro y z hyz
  rw [inverseDerivative_cubic, inverseDerivative_cubic]
  split_ifs with hy hz hz
  · refine neg_le_neg (hroot z y ?_)
    rw [abs_of_neg hy, abs_of_neg hz]
    exact neg_le_neg hyz
  · exact (neg_nonpos.2 (hnonneg y)).trans (hnonneg z)
  · exact absurd (hyz.trans_lt hz) hy
  · refine hroot y z ?_
    rwa [abs_of_nonneg (not_lt.1 hy), abs_of_nonneg (not_lt.1 hz)]

theorem inverseDerivative_exponential_mono {c : K} (hc : 0 < c) (hfloor : smallNumber ≤ c) :
    Monotone (inverseDerivative ⟨.exponential, c⟩) := by
  have htail : 0 < c * Scalar.exp 20 := mul_pos hc (exp_pos 20)
  have hpos : ∀ y : K, 0 < max y smallNumber / c := fun y =>
    div_pos (lt_max_of_lt_right smallNumber_pos) hc
  intro y z hyz
  rw [inverseDerivative_exponential, inverseDerivative_exponential]
  split_ifs with hy hz hz
  · have hlog := log_mono _ _ (hpos y)
      (div_le_div_of_nonneg_right (max_le_max_right smallNumber hyz) hc.le)
    exact div_le_div_of_nonneg_right hlog hc.le
  · -- into the tail: the logarithm stays below its start, and the tail above it
    have hunit : smallNumber ≤ c * Scalar.exp 20 :=
      hfloor.trans (le_mul_of_one_le_right hc.le (one_le_exp (by norm_num)))
    have hbefore : Scalar.log (max y smallNumber / c) ≤ 20 :=
      log_le (hpos y) ((div_le_iff₀' hc).2 (max_le hy hunit))
    have hover : 1 < z / (c * Scalar.exp 20) := (one_lt_div htail).2 (not_le.1 hz)
    exact div_le_div_of_nonneg_right (by linarith) hc.le
  · exact absurd (hyz.trans hz) hy
  · gcongr

theorem inverseDerivative_mono {cost : CostFunction K} (h : cost.Admissible) :
    Monotone cost.inverseDerivative := by
  obtain ⟨hc, hfloor⟩ := h
  obtain ⟨family, c⟩ := cost
  cases family with
  | quadratic => exact inverseDerivative_quadratic_mono hc
  | cubic => exact inverseDerivative_cubic_mono hc
  | exponential => exact inverseDerivative_exponential_mono hc (hfloor rfl)

theorem inverseDerivative_derivative_zero {cost : CostFunction K} (h : cost.Admissible) :
    cost.inverseDerivative (cost.derivative 0) = 0 := by
  obtain ⟨hc, hfloor⟩ := h
  obtain ⟨family, c⟩ := cost
  cases family with
  | quadratic => rw [derivative_quadratic, inverseDerivative_quadratic, mul_zero, zero_div]
  | cubic =>
    rw [derivative_cubic, mul_zero, zero_mul, inverseDerivative_cubic, if_neg (lt_irrefl 0),
      abs_zero, zero_div, sqrt_zero]
  | exponential =>
    have hstart : c ≤ c * Scalar.exp 20 := le_mul_of_one_le_right hc.le (one_le_exp (by norm_num))
    rw [derivative_exponential_zero, inverseDerivative_exponential, if_pos hstart,
      max_eq_left (hfloor rfl), div_self hc.ne', log_one, zero_div]

theorem inverseDerivative_derivative {cost : CostFunction K} (h : cost.Admissible) {x : K}
    (hx : 0 ≤ x) : cost.inverseDerivative (cost.derivative x) = x := by
  rcases hx.eq_or_lt with rfl | hpos
  · exact inverseDerivative_derivative_zero h
  · have hchosen := chosenFlow_derivative h hx
    rw [chosenFlow_eq] at hchosen
    rcases max_choice (cost.inverseDerivative (cost.derivative x)) 0 with hmax | hmax
    · rwa [hmax] at hchosen
    · exact absurd (hmax.symm.trans hchosen) hpos.ne

/-- The inverse takes every marginal cost back to its flow. The positive part of what it takes a price
to has this price as its marginal cost, except that the marginal cost of no flow stands for all prices
below it. Higher prices are never taken to less. -/
theorem inverseDerivative_inverts {cost : CostFunction K} (h : cost.Admissible) :
    (∀ x, 0 ≤ x → cost.inverseDerivative (cost.derivative x) = x) ∧
    (∀ y, cost.derivative (max (cost.inverseDerivative y) 0) = max y (cost.derivative 0)) ∧
    Monotone cost.inverseDerivative := by
  refine ⟨fun _ hx => inverseDerivative_derivative h hx, fun y => ?_, inverseDerivative_mono h⟩
  rw [← chosenFlow_eq]
  exact derivative_chosenFlow h y

/-- The exponential with the least scale that is allowed: the flow `10 ^ 9` is far in the tail, and the
price `-1` is below all that flow is worth. -/
theorem inverseDerivative_inverts_least :
    Admissible (⟨.exponential, smallNumber⟩ : CostFunction ℝ) ∧
    inverseDerivative ⟨.exponential, smallNumber⟩ (derivative ⟨.exponential, smallNumber⟩ (10 ^ 9)) =
      (10 ^ 9 : ℝ) ∧
    derivative ⟨.exponential, smallNumber⟩
      (max (inverseDerivative ⟨.exponential, smallNumber⟩ (-1)) 0) = (smallNumber : ℝ) := by
  have hleast : Admissible (⟨.exponential, smallNumber⟩ : CostFunction ℝ) :=
    ⟨smallNumber_pos, fun _ => le_rfl⟩
  obtain ⟨hback, hprice, -⟩ := inverseDerivative_inverts hleast
  refine ⟨hleast, hback (10 ^ 9) (by positivity), ?_⟩
  have hsmall : (-1 : ℝ) ≤ smallNumber := (neg_one_lt_zero.trans smallNumber_pos).le
  rw [hprice, derivative_exponential_zero, max_eq_right hsmall]

end CostFunction

end NeuralFlow
