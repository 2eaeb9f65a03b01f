import Mathlib
import NeuralFlow.Cost
import NeuralFlow.DualAscent
import NeuralFlow.Proofs.Exact

/-! Convexity of the costs in exact arithmetic. Every cost lies above its tangents on the flows that
are not negative, also where the exponential goes over into its parabola, and the chosen flow is
where the tangent has the slope of the price. -/

namespace NeuralFlow

/-- A function with a plane below it through each of its points is convex. -/
theorem convexOn_of_supports {K : Type} [ExactScalar K] {E : Type} [AddCommGroup E] [Module K E]
    {S : Set E} (hS : Convex K S) {f : E → K}
    (h : ∀ p ∈ S, ∃ plane : E →ₗ[K] K, ∀ q ∈ S, f p + plane (q - p) ≤ f q) : ConvexOn K S f := by
  refine ⟨hS, fun p hp q hq s t hs ht hst => ?_⟩
  obtain ⟨plane, hplane⟩ := h _ (hS hp hq hs ht hst)
  have hleft := mul_le_mul_of_nonneg_left (hplane p hp) hs
  have hright := mul_le_mul_of_nonneg_left (hplane q hq) ht
  -- the two ways from the mixture to its parts cancel
  have hcancel : s * plane (p - (s • p + t • q)) + t * plane (q - (s • p + t • q)) = 0 := by
    obtain rfl : t = 1 - s := by linarith
    simp only [map_sub, map_add, map_smul, smul_eq_mul]
    ring
  rw [smul_eq_mul, smul_eq_mul]
  calc f (s • p + t • q) = (s + t) * f (s • p + t • q) := by rw [hst, one_mul]
    _ ≤ s * f p + t * f q := by linarith

namespace CostFunction

variable {K : Type} [ExactScalar K]

theorem tailStart_eq : (tailStart : K) = 20 := by
  change (OfScientific.ofScientific 200 true 1 : K) = 20
  norm_num

theorem smallNumber_pos : (0 : K) < smallNumber := by
  change (0 : K) < OfScientific.ofScientific 1 true 7
  norm_num

theorem congestion_pos : (0 : K) < congestion := by
  change (0 : K) < OfScientific.ofScientific 15 true 2
  norm_num

theorem validate_eq_ok_iff (cost : CostFunction K) : cost.validate = .ok () ↔ 0 < cost.constant := by
  unfold validate
  simp only [Exact.isFinite_eq, Bool.not_true, Bool.false_eq_true, false_or]
  split_ifs with h
  · exact ⟨nofun, fun hpos => absurd hpos (not_lt.2 h)⟩
  · exact ⟨fun _ => not_le.1 h, fun _ => rfl⟩

/-- Costs are accepted as they are, with a scale above zero. -/
theorem ofFamily_eq_ok_iff {family : CostFamily} {constant : K} {cost : CostFunction K} :
    ofFamily family constant = .ok cost ↔ 0 < constant ∧ cost = ⟨family, constant⟩ := by
  rw [ofFamily]
  have hvalid := validate_eq_ok_iff (⟨family, constant⟩ : CostFunction K)
  rcases hcheck : validate (⟨family, constant⟩ : CostFunction K) with err | _
  · rw [hcheck] at hvalid
    exact ⟨nofun, fun h => absurd (hvalid.2 h.1) nofun⟩
  · have hpos : 0 < constant := hvalid.1 hcheck
    exact ⟨fun h => ⟨hpos, (Except.ok.inj h).symm⟩, fun h => congrArg Except.ok h.2.symm⟩

/-- The scales for which the bound below logarithms is harmless. -/
def Admissible (cost : CostFunction K) : Prop :=
  0 < cost.constant ∧ (cost.family = .exponential → smallNumber ≤ cost.constant)

/-! The exponential with its parabola, free of the scale. -/

/-- The exponential less one up to the start of the tail, and a parabola from there. -/
def growth (t : K) : K :=
  if t ≤ 20 then Scalar.exp t - 1
  else Scalar.exp 20 - 1 + Scalar.exp 20 * (t - 20 + (t - 20) ^ 2 / 2)

def growthSlope (t : K) : K :=
  if t ≤ 20 then Scalar.exp t else Scalar.exp 20 * (1 + t - 20)

theorem apply_quadratic (c x : K) : apply ⟨.quadratic, c⟩ x = c * x * x := rfl

theorem apply_cubic (c x : K) : apply ⟨.cubic, c⟩ x = c * (|x| * |x| * |x|) := rfl

theorem apply_exponential [LawfulLibrary K] (c x : K) :
    apply ⟨.exponential, c⟩ x = growth (c * x) := by
  have hhalf : (OfScientific.ofScientific 5 true 1 : K) = 1 / 2 := by norm_num
  change (if c * x ≤ tailStart then Scalar.expMinusOne (c * x)
    else Scalar.expMinusOne tailStart + Scalar.exp tailStart *
      (c * x - tailStart + OfScientific.ofScientific 5 true 1 * (c * x - tailStart) *
        (c * x - tailStart))) = growth (c * x)
  rw [tailStart_eq, hhalf, growth, LawfulLibrary.expMinusOne_eq, LawfulLibrary.expMinusOne_eq]
  split_ifs
  · rfl
  · ring

theorem derivative_quadratic (c x : K) : derivative ⟨.quadratic, c⟩ x = 2 * c * x := by
  change OfScientific.ofScientific 20 true 1 * c * x = 2 * c * x
  norm_num

theorem derivative_cubic (c x : K) : derivative ⟨.cubic, c⟩ x = 3 * c * x * |x| := by
  change OfScientific.ofScientific 30 true 1 * c * x * |x| = 3 * c * x * |x|
  norm_num

theorem derivative_exponential (c x : K) :
    derivative ⟨.exponential, c⟩ x = c * growthSlope (c * x) := by
  change (if c * x ≤ tailStart then c * Scalar.exp (c * x)
    else c * Scalar.exp tailStart * (1 + c * x - tailStart)) = c * growthSlope (c * x)
  rw [tailStart_eq, growthSlope]
  split_ifs
  · rfl
  · ring

theorem inverseDerivative_quadratic (c y : K) :
    inverseDerivative ⟨.quadratic, c⟩ y = y / (2 * c) := by
  change y / (OfScientific.ofScientific 20 true 1 * c) = y / (2 * c)
  norm_num

theorem inverseDerivative_cubic (c y : K) : inverseDerivative ⟨.cubic, c⟩ y =
    if y < 0 then -Scalar.sqrt (|y| / (3 * c)) else Scalar.sqrt (|y| / (3 * c)) := by
  have hthree : (OfScientific.ofScientific 30 true 1 : K) = 3 := by norm_num
  have hsign : Scalar.signum y = if y < 0 then (-1 : K) else 1 := by
    unfold Scalar.signum
    rw [if_pos (beq_self_eq_true y)]
    change (if decide (y < 0) = true then (-1 : K) else 1) = _
    simp only [decide_eq_true_eq]
  change Scalar.signum y * Scalar.sqrt (|y| / (OfScientific.ofScientific 30 true 1 * c)) = _
  rw [hthree, hsign]
  split_ifs <;> ring

theorem inverseDerivative_exponential (c y : K) : inverseDerivative ⟨.exponential, c⟩ y =
    if y ≤ c * Scalar.exp 20 then Scalar.log (max y smallNumber / c) / c
    else (20 + y / (c * Scalar.exp 20) - 1) / c := by
  rw [← Exact.larger_eq_max, ← tailStart_eq]
  rfl

variable [LawfulLibrary K]

open LawfulLibrary

/-- The scaled exponential lies above its tangents, on both sides of the start of the tail. -/
theorem growth_tangent (a b : K) : growth b + growthSlope b * (a - b) ≤ growth a := by
  have htail : (0 : K) < Scalar.exp 20 := exp_pos 20
  unfold growth growthSlope
  split_ifs with hb ha ha
  · have h := tangent_le_exp a b
    linarith
  · -- from the exponential into the tail: by way of the tangent at the start of the tail
    have h := tangent_le_exp 20 b
    have hslope : Scalar.exp b ≤ Scalar.exp 20 := exp_le_exp.2 hb
    have hfar : Scalar.exp b * (a - 20) ≤ Scalar.exp 20 * (a - 20) :=
      mul_le_mul_of_nonneg_right hslope (by linarith)
    have hsq : 0 ≤ Scalar.exp 20 * ((a - 20) ^ 2 / 2) := by positivity
    linarith
  · -- from the tail back: its tangents lie below the tangent of the exponential at its start
    have h := tangent_le_exp a 20
    have hsteep : Scalar.exp 20 * ((b - 20) * (a - 20)) ≤ 0 :=
      mul_nonpos_of_nonneg_of_nonpos htail.le
        (mul_nonpos_of_nonneg_of_nonpos (by linarith) (by linarith))
    have hsq : 0 ≤ Scalar.exp 20 * (b - 20) ^ 2 := by positivity
    linarith
  · have hsq : 0 ≤ Scalar.exp 20 * (a - b) ^ 2 := by positivity
    linarith

theorem derivative_exponential_zero (c : K) : derivative ⟨.exponential, c⟩ 0 = c := by
  rw [derivative_exponential, mul_zero, growthSlope, if_pos (by norm_num), exp_zero, mul_one]

/-- A cost lies above its tangents on the flows that are not negative. -/
theorem tangent_le_apply {cost : CostFunction K} (hc : 0 < cost.constant) {x y : K} (hx : 0 ≤ x)
    (hy : 0 ≤ y) : cost.apply x + cost.derivative x * (y - x) ≤ cost.apply y := by
  obtain ⟨family, c⟩ := cost
  change 0 < c at hc
  cases family with
  | quadratic =>
    rw [apply_quadratic, apply_quadratic, derivative_quadratic]
    have hsq : 0 ≤ c * (y - x) ^ 2 := by positivity
    linarith
  | cubic =>
    rw [apply_cubic, apply_cubic, derivative_cubic, abs_of_nonneg hx, abs_of_nonneg hy]
    have hcube : 0 ≤ c * ((y - x) ^ 2 * (y + 2 * x)) := by positivity
    linarith
  | exponential =>
    rw [apply_exponential, apply_exponential, derivative_exponential]
    have h := growth_tangent (c * y) (c * x)
    linarith

theorem apply_convexOn {cost : CostFunction K} (hc : 0 < cost.constant) :
    ConvexOn K (Set.Ici 0) cost.apply :=
  convexOn_of_supports (convex_Ici 0) fun x hx =>
    ⟨cost.derivative x • LinearMap.id, fun _ hy => tangent_le_apply hc hx hy⟩

theorem growthSlope_pos (t : K) : 0 < growthSlope t := by
  unfold growthSlope
  split_ifs with ht
  · exact exp_pos t
  · exact mul_pos (exp_pos 20) (by linarith)

/-- The slope keeps rising across the start of the tail. -/
theorem growthSlope_strictMono : StrictMono (growthSlope : K → K) := by
  intro a b hab
  have htail : (0 : K) < Scalar.exp 20 := exp_pos 20
  unfold growthSlope
  split_ifs with ha hb hb
  · exact exp_strictMono hab
  · calc Scalar.exp a ≤ Scalar.exp 20 := exp_le_exp.2 ha
      _ < Scalar.exp 20 * (1 + b - 20) := lt_mul_of_one_lt_right htail (by linarith)
  · exact absurd (hab.le.trans hb) ha
  · exact mul_lt_mul_of_pos_left (by linarith) htail

/-- Before the tail starts the logarithm inverts the slope. -/
theorem growthSlope_log {r : K} (hr : 0 < r) (htail : r ≤ Scalar.exp 20) :
    growthSlope (Scalar.log r) = r := by
  rw [growthSlope, if_pos (log_le hr htail), exp_log r hr]

theorem derivative_nonneg {cost : CostFunction K} (hc : 0 < cost.constant) {x : K} (hx : 0 ≤ x) :
    0 ≤ cost.derivative x := by
  obtain ⟨family, c⟩ := cost
  change 0 < c at hc
  cases family with
  | quadratic =>
    rw [derivative_quadratic]
    positivity
  | cubic =>
    rw [derivative_cubic]
    positivity
  | exponential =>
    rw [derivative_exponential]
    exact mul_nonneg hc.le (growthSlope_pos _).le

/-- More flow costs more. -/
theorem apply_mono {cost : CostFunction K} (hc : 0 < cost.constant) {x y : K} (hx : 0 ≤ x)
    (hxy : x ≤ y) : cost.apply x ≤ cost.apply y := by
  have htangent := tangent_le_apply hc hx (hx.trans hxy)
  have hrise := mul_nonneg (derivative_nonneg hc hx) (sub_nonneg.2 hxy)
  linarith

/-- No flow costs nothing. -/
theorem apply_zero (cost : CostFunction K) : cost.apply 0 = 0 := by
  obtain ⟨family, c⟩ := cost
  cases family with
  | quadratic => rw [apply_quadratic, mul_zero]
  | cubic => rw [apply_cubic, abs_zero, mul_zero, mul_zero]
  | exponential =>
    rw [apply_exponential, mul_zero, growth, if_pos (by norm_num), exp_zero, sub_self]

theorem apply_nonneg {cost : CostFunction K} (hc : 0 < cost.constant) {x : K} (hx : 0 ≤ x) :
    0 ≤ cost.apply x := by
  rw [← apply_zero cost]
  exact apply_mono hc le_rfl hx

/-- Capacities make flow dearer, whatever they are. -/
theorem apply_le_applyWithCapacity {cost : CostFunction K} (hc : 0 < cost.constant) {x : K}
    (hx : 0 ≤ x) (capacity : K) : cost.apply x ≤ cost.applyWithCapacity x capacity := by
  have hfourth : ∀ z : K, 0 ≤ Scalar.fourth z := fun z => mul_self_nonneg (z * z)
  unfold applyWithCapacity
  dsimp only
  refine le_mul_of_one_le_right (apply_nonneg hc hx) (le_add_of_nonneg_right ?_)
  exact mul_nonneg congestion_pos.le (hfourth _)

end CostFunction

namespace DualAscent

open CostFunction LawfulLibrary

variable {K : Type} [ExactScalar K]

theorem chosenFlow_eq (cost : CostFunction K) (y : K) :
    chosenFlow cost y = max (cost.inverseDerivative y) 0 := Exact.relu_eq_max _

theorem chosenFlow_nonneg (cost : CostFunction K) (y : K) : 0 ≤ chosenFlow cost y := by
  rw [chosenFlow_eq]
  exact le_max_right _ _

variable [LawfulLibrary K]

/-- At the chosen flow the marginal cost is the price, or there is no flow and the price is too
low for any. -/
def MeetsPrice (cost : CostFunction K) (y : K) : Prop :=
  cost.derivative (chosenFlow cost y) = y ∨ chosenFlow cost y = 0 ∧ y ≤ cost.derivative 0

omit [LawfulLibrary K] in
theorem meetsPrice_quadratic {c : K} (hc : 0 < c) (y : K) : MeetsPrice ⟨.quadratic, c⟩ y := by
  rw [MeetsPrice, chosenFlow_eq, inverseDerivative_quadratic, derivative_quadratic,
    derivative_quadratic]
  rcases le_total 0 y with hy | hy
  · left
    rw [max_eq_left (by positivity)]
    field_simp
  · right
    exact ⟨max_eq_right (div_nonpos_of_nonpos_of_nonneg hy (by positivity)), by linarith⟩

theorem meetsPrice_cubic {c : K} (hc : 0 < c) (y : K) : MeetsPrice ⟨.cubic, c⟩ y := by
  rw [MeetsPrice, chosenFlow_eq, inverseDerivative_cubic, derivative_cubic, derivative_cubic]
  have hratio : 0 ≤ |y| / (3 * c) := by positivity
  have hroot := sqrt_nonneg _ hratio
  split_ifs with hy
  · right
    exact ⟨max_eq_right (by linarith), by simpa using hy.le⟩
  · left
    have hsq := sqrt_sq _ hratio
    rw [abs_of_nonneg (not_lt.1 hy)] at hroot hsq ⊢
    rw [max_eq_left hroot, abs_of_nonneg hroot, mul_assoc, ← pow_two, hsq]
    field_simp

/-- Prices that no flow is worth. -/
theorem meetsPrice_low {c : K} (hc : 0 < c) (hfloor : smallNumber ≤ c) {y : K} (hy : y ≤ c)
    (hstart : y ≤ c * Scalar.exp 20) : MeetsPrice ⟨.exponential, c⟩ y := by
  right
  rw [chosenFlow_eq, inverseDerivative_exponential, derivative_exponential_zero, if_pos hstart]
  have hle : max y smallNumber / c ≤ 1 := (div_le_one hc).2 (max_le hy hfloor)
  have hpos : 0 < max y smallNumber / c := div_pos (lt_max_of_lt_right smallNumber_pos) hc
  exact ⟨max_eq_right (div_nonpos_of_nonpos_of_nonneg (log_nonpos _ hpos hle) hc.le), hy⟩

/-- Prices met before the tail starts. -/
theorem meetsPrice_log {c : K} (hc : 0 < c) {y : K} (hfloor : smallNumber ≤ y) (hy : c < y)
    (hstart : y ≤ c * Scalar.exp 20) : MeetsPrice ⟨.exponential, c⟩ y := by
  left
  have hlog : 0 ≤ Scalar.log (y / c) := log_nonneg ((one_lt_div hc).2 hy).le
  rw [chosenFlow_eq, inverseDerivative_exponential, derivative_exponential, if_pos hstart,
    max_eq_left hfloor, max_eq_left (div_nonneg hlog hc.le), mul_div_cancel₀ _ hc.ne',
    growthSlope_log (div_pos (hc.trans hy) hc) ((div_le_iff₀' hc).2 hstart),
    mul_div_cancel₀ _ hc.ne']

/-- Prices met in the tail. -/
theorem meetsPrice_tail {c : K} (hc : 0 < c) {y : K} (hy : ¬ y ≤ c * Scalar.exp 20) :
    MeetsPrice ⟨.exponential, c⟩ y := by
  left
  have htail : (0 : K) < c * Scalar.exp 20 := mul_pos hc (exp_pos 20)
  have hover : 1 < y / (c * Scalar.exp 20) := (one_lt_div htail).2 (not_le.1 hy)
  have hpos : 0 ≤ (20 + y / (c * Scalar.exp 20) - 1) / c := div_nonneg (by linarith) hc.le
  rw [chosenFlow_eq, inverseDerivative_exponential, derivative_exponential, if_neg hy,
    max_eq_left hpos, mul_div_cancel₀ _ hc.ne', growthSlope, if_neg (by linarith)]
  have hexp : (Scalar.exp 20 : K) ≠ 0 := (exp_pos 20).ne'
  field_simp
  ring

theorem meetsPrice {cost : CostFunction K} (h : cost.Admissible) (y : K) : MeetsPrice cost y := by
  obtain ⟨hc, hsmall⟩ := h
  obtain ⟨family, c⟩ := cost
  cases family with
  | quadratic => exact meetsPrice_quadratic hc y
  | cubic => exact meetsPrice_cubic hc y
  | exponential =>
    by_cases hstart : y ≤ c * Scalar.exp 20
    · rcases le_or_gt y c with hy | hy
      · exact meetsPrice_low hc (hsmall rfl) hy hstart
      · exact meetsPrice_log hc ((hsmall rfl).trans hy.le) hy hstart
    · exact meetsPrice_tail hc hstart

/-- A flow that meets its price is a cheapest one. -/
theorem MeetsPrice.least {cost : CostFunction K} (hc : 0 < cost.constant) {y x : K}
    (h : MeetsPrice cost y) (hx : 0 ≤ x) :
    cost.apply (chosenFlow cost y) - y * chosenFlow cost y ≤ cost.apply x - y * x := by
  have htangent := tangent_le_apply hc (chosenFlow_nonneg cost y) hx
  rcases h with hy | ⟨hzero, hy⟩
  · rw [hy] at htangent
    linarith
  · rw [hzero] at htangent ⊢
    have hprice : y * x ≤ cost.derivative 0 * x := mul_le_mul_of_nonneg_right hy hx
    linarith

/-- No flow costs less at its price than the chosen one. -/
theorem chosenFlow_least {cost : CostFunction K} (h : cost.Admissible) (y : K) {x : K}
    (hx : 0 ≤ x) : cost.apply (chosenFlow cost y) - y * chosenFlow cost y ≤ cost.apply x - y * x :=
  (meetsPrice h y).least h.1 hx

end DualAscent

end NeuralFlow
