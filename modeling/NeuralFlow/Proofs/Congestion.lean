import Mathlib
import NeuralFlow.Proofs.Backing.Sparse
import NeuralFlow.Proofs.MarginalCost
import NeuralFlow.Proofs.Pricing

/-! Costs near a capacity. A capacity multiplies a cost by a factor that is one at no flow and grows with
the fourth power of the flow. Cost and factor are convex and rise together, so their product is
convex and rises. It falls with the capacity, and totals do not rise when flows are cut. -/

namespace NeuralFlow

open EdgeMatrix LawfulBacking LawfulLibrary

namespace CostFunction

variable {K : Type} [ExactScalar K]

/-- The weight of the fourth power of a flow in the factor of a capacity. -/
def crowding (capacity : K) : K := congestion / (capacity + smallNumber) ^ 4

theorem applyWithCapacity_eq (cost : CostFunction K) (x capacity : K) :
    cost.applyWithCapacity x capacity = cost.apply x * (crowding capacity * x ^ 4 + 1) := by
  have hfourth : Scalar.fourth (x / (capacity + smallNumber)) =
      (x / (capacity + smallNumber)) ^ 4 := by
    rw [Scalar.fourth]
    ring
  rw [applyWithCapacity, hfourth, div_pow, crowding]
  ring

theorem crowding_pos {capacity : K} (h : 0 ≤ capacity) : 0 < crowding capacity :=
  div_pos congestion_pos (pow_pos (add_pos_of_nonneg_of_pos h smallNumber_pos) 4)

theorem crowding_antitoneOn : AntitoneOn (crowding : K → K) (Set.Ici 0) := by
  intro k hk l _ hkl
  have hpos : 0 < k + smallNumber := add_pos_of_nonneg_of_pos hk smallNumber_pos
  have hcongestion := congestion_pos (K := K)
  unfold crowding
  gcongr

/-! The factor of a capacity. -/

theorem one_le_factor {capacity : K} (h : 0 ≤ capacity) (x : K) :
    1 ≤ crowding capacity * x ^ 4 + 1 :=
  le_add_of_nonneg_left (mul_nonneg (crowding_pos h).le (by positivity))

theorem factor_monotoneOn {capacity : K} (h : 0 ≤ capacity) :
    MonotoneOn (fun x : K => crowding capacity * x ^ 4 + 1) (Set.Ici 0) := by
  have hpos := crowding_pos h
  intro x hx y _ hxy
  rw [Set.mem_Ici] at hx
  dsimp only
  gcongr

theorem factor_convexOn {capacity : K} (h : 0 ≤ capacity) :
    ConvexOn K (Set.Ici 0) (fun x : K => crowding capacity * x ^ 4 + 1) :=
  ((convexOn_pow 4).smul (crowding_pos h).le).add_const 1

/-! The product of cost and factor. -/

variable [LawfulLibrary K]

theorem applyWithCapacity_zero (cost : CostFunction K) (capacity : K) :
    cost.applyWithCapacity 0 capacity = 0 := by
  rw [applyWithCapacity_eq, apply_zero, zero_mul]

theorem applyWithCapacity_strictMonoOn {cost : CostFunction K} (hc : 0 < cost.constant)
    {capacity : K} (h : 0 ≤ capacity) :
    StrictMonoOn (cost.applyWithCapacity · capacity) (Set.Ici 0) := by
  intro x hx y hy hxy
  simp only [applyWithCapacity_eq]
  exact mul_lt_mul (apply_strictMonoOn hc hx hy hxy) (factor_monotoneOn h hx hy hxy.le)
    (one_pos.trans_le (one_le_factor h x)) (apply_nonneg hc hy)

theorem applyWithCapacity_convexOn {cost : CostFunction K} (hc : 0 < cost.constant) {capacity : K}
    (h : 0 ≤ capacity) : ConvexOn K (Set.Ici 0) (cost.applyWithCapacity · capacity) := by
  have htogether := (apply_strictMonoOn hc).monotoneOn.monovaryOn (factor_monotoneOn h)
  have hproduct := (apply_convexOn hc).mul (factor_convexOn h) (fun _ hx => apply_nonneg hc hx)
    (fun x _ => zero_le_one.trans (one_le_factor h x)) htogether
  exact hproduct.congr fun x _ => (applyWithCapacity_eq cost x capacity).symm

theorem applyWithCapacity_antitoneOn {cost : CostFunction K} (hc : 0 < cost.constant) {x : K}
    (hx : 0 ≤ x) : AntitoneOn (cost.applyWithCapacity x) (Set.Ici 0) := by
  intro k hk l hl hkl
  have hcost := apply_nonneg hc hx
  have hless := crowding_antitoneOn hk hl hkl
  rw [applyWithCapacity_eq, applyWithCapacity_eq]
  gcongr

variable {M : Type → Type} [EdgeMatrix M] [LawfulBacking M]

/-- Reducing a flow does not raise its price. -/
theorem totalWithCapacities_le_of_reduced {cost : CostFunction K} (hc : 0 < cost.constant)
    {bound flow capacities : M K} (hbound : Square bound) (h : Reduced bound flow)
    (hcap : Square capacities) (hn : numNodes bound = numNodes capacities)
    (hp : pattern bound = pattern capacities) (hpos : ∀ e ∈ edges capacities, 0 ≤ e.value) :
    ∃ less more, cost.totalWithCapacities flow capacities = .ok less ∧
      cost.totalWithCapacities bound capacities = .ok more ∧ less ≤ more := by
  have hentry := (forall_edges_iff hcap (P := fun _ _ x => 0 ≤ x)).1 hpos
  refine ⟨_, _, totalWithCapacities_ok cost h.onPattern.square hcap (h.onPattern.nodes.trans hn)
    (h.onPattern.pattern.trans hp), totalWithCapacities_ok cost hbound hcap hn hp, ?_⟩
  rw [h.onPattern.pattern]
  refine List.sum_le_sum fun p hpair => ?_
  have hroom := hentry p.1 p.2 (hp ▸ hpair)
  have hkept := h.nonneg p.1 p.2 hpair
  have hle := h.le p.1 p.2 hpair
  exact (applyWithCapacity_strictMonoOn hc hroom).monotoneOn hkept (hkept.trans hle) hle

/-- At a capacity a cost is zero at no flow, never below the plain cost, strictly rising and convex in
the flow; and with more capacity no flow costs more. Cutting flows to their capacities never raises
the price of all. -/
theorem applyWithCapacity_convex_rising {family : CostFamily} {constant : K} {cost : CostFunction K}
    (h : ofFamily family constant = .ok cost) :
    (∀ capacity, 0 ≤ capacity →
      cost.applyWithCapacity 0 capacity = 0 ∧
      (∀ x, 0 ≤ x → cost.apply x ≤ cost.applyWithCapacity x capacity) ∧
      StrictMonoOn (cost.applyWithCapacity · capacity) (Set.Ici 0) ∧
      ConvexOn K (Set.Ici 0) (cost.applyWithCapacity · capacity)) ∧
    (∀ x, 0 ≤ x → AntitoneOn (cost.applyWithCapacity x) (Set.Ici 0)) ∧
    ∀ flow capacities : M K, Square flow → Square capacities →
      numNodes flow = numNodes capacities → pattern flow = pattern capacities →
      (∀ e ∈ edges flow, 0 ≤ e.value) → (∀ e ∈ edges capacities, 0 ≤ e.value) →
      Yields (Flow.clip flow capacities) fun kept => ∃ less more,
        cost.totalWithCapacities kept capacities = .ok less ∧
        cost.totalWithCapacities flow capacities = .ok more ∧ less ≤ more := by
  obtain ⟨hpos, rfl⟩ := ofFamily_eq_ok_iff.1 h
  have hc : 0 < (⟨family, constant⟩ : CostFunction K).constant := hpos
  refine ⟨fun capacity hroom => ?_, fun x hx => applyWithCapacity_antitoneOn hc hx, ?_⟩
  · exact ⟨applyWithCapacity_zero _ capacity,
      fun x hx => apply_le_applyWithCapacity hc hx capacity,
      applyWithCapacity_strictMonoOn hc hroom, applyWithCapacity_convexOn hc hroom⟩
  · intro flow capacities hflow hcap hn hp hnonneg hroom
    have hentry := (forall_edges_iff hcap (P := fun _ _ x => 0 ≤ x)).1 hroom
    have hreduced := Flow.reduced_clipped hflow hnonneg fun u v huv => hentry u v (hp ▸ huv)
    exact ⟨_, Flow.clip_ok hflow hcap hn hp,
      totalWithCapacities_le_of_reduced hc hflow hreduced hcap hn hp hroom⟩

/-- The flow `20` lies halfway between `10` and `30`, where the tail of the exponential with scale one
starts. Between two nodes `3` units are cut to a capacity of `2`, and `1` unit is kept. -/
theorem applyWithCapacity_convex_rising_exchange :
    ofFamily .exponential (1 : ℝ) = .ok ⟨.exponential, 1⟩ ∧
    applyWithCapacity ⟨.exponential, 1⟩ (20 : ℝ) 5 ≤
      1 / 2 * applyWithCapacity ⟨.exponential, 1⟩ 10 5 +
        1 / 2 * applyWithCapacity ⟨.exponential, 1⟩ 30 5 ∧
    applyWithCapacity ⟨.exponential, 1⟩ (10 : ℝ) 5 ≤ applyWithCapacity ⟨.exponential, 1⟩ 10 2 ∧
    Yields (Flow.clip (SparseMatrix.exchange (3 : ℝ) 1) (SparseMatrix.exchange 2 2)) fun kept =>
      ∃ less more,
        totalWithCapacities ⟨.exponential, 1⟩ kept (SparseMatrix.exchange 2 2) = .ok less ∧
        totalWithCapacities ⟨.exponential, 1⟩ (SparseMatrix.exchange 3 1)
          (SparseMatrix.exchange 2 2) = .ok more ∧ less ≤ more := by
  have haccept : ofFamily .exponential (1 : ℝ) = .ok ⟨.exponential, 1⟩ :=
    ofFamily_eq_ok_iff.2 ⟨one_pos, rfl⟩
  obtain ⟨hflow, hcapacity, htotal⟩ := applyWithCapacity_convex_rising (M := SparseMatrix) haccept
  obtain ⟨-, -, -, hconvex⟩ := hflow 5 (by norm_num)
  have hleft : (10 : ℝ) ∈ Set.Ici 0 := by norm_num
  have hright : (30 : ℝ) ∈ Set.Ici 0 := by norm_num
  have hhalf : (0 : ℝ) ≤ 1 / 2 := by norm_num
  have hmiddle := hconvex.2 hleft hright hhalf hhalf (add_halves 1)
  have hpoint : (1 / 2 : ℝ) • (10 : ℝ) + (1 / 2 : ℝ) • (30 : ℝ) = 20 := by norm_num
  rw [hpoint] at hmiddle
  refine ⟨haccept, hmiddle, hcapacity 10 hleft (by norm_num) (by norm_num) (by norm_num), ?_⟩
  exact htotal _ _ (SparseMatrix.square_exchange 3 1) (SparseMatrix.square_exchange 2 2) rfl
    (by simp [pattern]) (by simp) (by simp)

end CostFunction

end NeuralFlow
