import Mathlib
import NeuralFlow.Proofs.Backing.Sparse
import NeuralFlow.Proofs.Redistribution

/-! Fixed points of redistribution. A round spreads at least what came in and the demand; if it spreads
the same flow again, the totals agree, so no node had to be cut off at zero, and the flow conserves. -/

namespace NeuralFlow.Redistribution

open EdgeMatrix LawfulBacking SparseMatrix

variable {M : Type → Type} [EdgeMatrix M] [ExactBacking M] {K : Type} [ExactScalar K]

/-- Some amount that is not negative leaves each node in the proportions of the weights. -/
def Passes (weights flow : M K) : Prop :=
  ∃ amounts : List K, amounts.length = numNodes weights ∧ (∀ x ∈ amounts, 0 ≤ x) ∧
    flow = spread weights amounts

omit [ExactBacking M] in
theorem still_eq_spread (weights : M K) :
    still weights = spread weights (List.replicate (numNodes weights) 0) := by
  have hzero : ∀ u, (List.replicate (numNodes weights) (0 : K)).getD u 0 = 0 := fun u => by
    by_cases hu : u < numNodes weights <;> simp [hu]
  simp only [still, EdgeMatrix.map, spread, hzero, mul_zero]

theorem passes_run {weights : M K} (hw : Square weights) {demands : List K}
    (hd : demands.length = numNodes weights) (k : ℕ) :
    Passes weights ((nextFlow weights demands)^[k] (still weights)) := by
  cases k with
  | zero => exact ⟨_, by simp, by simp, still_eq_spread weights⟩
  | succ k =>
    have hon := (flowAfter_ok hw hd k).2
    rw [Function.iterate_succ_apply']
    refine ⟨_, length_excess hon hd, ?_, rfl⟩
    rw [excess_eq hon.square hon.cleared (hd.trans hon.nodes.symm)]
    simp

/-- What is passed on in proportions that are not negative is not negative. -/
theorem Passes.nonneg {weights flow : M K} (hw : Square weights) (h : Passes weights flow)
    (hpos : ∀ e ∈ edges weights, 0 ≤ e.value) : ∀ e ∈ edges flow, 0 ≤ e.value := by
  obtain ⟨amounts, -, hamounts, rfl⟩ := h
  have hamount : ∀ u, 0 ≤ amounts.getD u 0 := by
    intro u
    rw [List.getD_eq_getElem?_getD]
    cases hu : amounts[u]? with
    | none => exact le_rfl
    | some x => exact hamounts x (List.mem_of_getElem? hu)
  intro e he
  rw [spread, edges_withValues hw, List.mem_map] at he
  obtain ⟨d, hd, rfl⟩ := he
  exact mul_nonneg (hpos d hd) (hamount _)

/-- However many rounds are run, the flow lives on the edges of the weights and is nowhere below
zero. -/
theorem ensures_flow {weights : M K} (hw : Square weights) {demands : List K}
    (hd : demands.length = numNodes weights) (hpos : ∀ e ∈ edges weights, 0 ≤ e.value) (k : ℕ) :
    Ensures (solve k weights demands) fun s => OnPattern weights s.flow ∧
      (∀ e ∈ edges s.flow, 0 ≤ e.value) ∧ (s.residual = 0 ↔ Flow.Conserves s.flow demands) := by
  obtain ⟨s, hs, hflow, hres⟩ := solve_ok hw hd k
  rw [hs]
  refine ensures_pure ⟨?_, ?_, hres⟩
  · rw [hflow]
    exact (flowAfter_ok hw hd k).2
  · rw [hflow]
    exact (passes_run hw hd k).nonneg hw hpos

theorem excess_of_onPattern {weights flow : M K} (hon : OnPattern weights flow) {demands : List K}
    (hd : demands.length = numNodes weights) {v : ℕ} (hv : v < numNodes weights) :
    (excess demands flow).getD v 0 = max (inflow flow v + demands.getD v 0) 0 :=
  getD_excess hon.square hon.cleared (hd.trans hon.nodes.symm) (hon.nodes.symm ▸ hv)

theorem outflow_nextFlow {weights flow : M K} (hw : Square weights)
    (hrow : ∀ v < numNodes weights, outflow weights v = 1) (hon : OnPattern weights flow)
    {demands : List K} (hd : demands.length = numNodes weights) {v : ℕ}
    (hv : v < numNodes weights) :
    outflow (nextFlow weights demands flow) v = max (inflow flow v + demands.getD v 0) 0 := by
  rw [nextFlow, outflow_spread hw, hrow v hv, one_mul, excess_of_onPattern hon hd hv]

/-- Where every node passes on all it has and the demands cancel out, a flow conserves if in the next
round every node sends out as much again. -/
theorem conserves_of_outflow_eq {weights flow : M K} (hw : Square weights)
    (hrow : ∀ v < numNodes weights, outflow weights v = 1) (hon : OnPattern weights flow)
    {demands : List K} (hd : demands.length = numNodes weights) (hsum : demands.sum = 0)
    (hsame : ∀ v < numNodes weights, outflow (nextFlow weights demands flow) v = outflow flow v) :
    Flow.Conserves flow demands := by
  have hagain : ∀ v < numNodes weights,
      max (inflow flow v + demands.getD v 0) 0 = outflow flow v := by
    intro v hv
    rw [← outflow_nextFlow hw hrow hon hd hv, hsame v hv]
  -- what goes out comes in and the demands cancel out, so cutting off at zero adds nothing
  have htotal : ∑ v ∈ Finset.range (numNodes weights), (inflow flow v + demands.getD v 0) =
      ∑ v ∈ Finset.range (numNodes weights), max (inflow flow v + demands.getD v 0) 0 := by
    have hbalance := sum_outflow_eq_sum_inflow hon.square
    rw [hon.nodes] at hbalance
    rw [Finset.sum_add_distrib, ← hbalance, ← hd, sum_getD, hsum, add_zero, hd]
    exact Finset.sum_congr rfl fun v hv => (hagain v (Finset.mem_range.1 hv)).symm
  have hnever := (Finset.sum_eq_sum_iff_of_le fun v _ => le_max_left _ _).1 htotal
  rw [Flow.conserves_iff (hd.trans hon.nodes.symm), hon.nodes]
  intro v hv
  have h := (hnever v (Finset.mem_range.2 hv)).trans (hagain v hv)
  rw [← h, add_sub_cancel_left]

/-- In particular a flow that a round leaves as it is conserves. -/
theorem conserves_of_nextFlow_eq {weights flow : M K} (hw : Square weights)
    (hrow : ∀ v < numNodes weights, outflow weights v = 1) (hon : OnPattern weights flow)
    {demands : List K} (hd : demands.length = numNodes weights) (hsum : demands.sum = 0)
    (hfix : nextFlow weights demands flow = flow) : Flow.Conserves flow demands :=
  conserves_of_outflow_eq hw hrow hon hd hsum fun v _ => by rw [hfix]

/-- A flow that conserves gives each node just what it passes on, so a round leaves it as it is. -/
theorem nextFlow_eq_of_conserves {weights flow : M K} (hw : Square weights)
    (hrow : ∀ v < numNodes weights, outflow weights v = 1) {demands : List K}
    (hd : demands.length = numNodes weights) (hp : Passes weights flow)
    (hcons : Flow.Conserves flow demands) : nextFlow weights demands flow = flow := by
  obtain ⟨amounts, hlen, hpos, rfl⟩ := hp
  have hon := onPattern_spread hw amounts
  rw [Flow.conserves_iff (hd.trans hon.nodes.symm), hon.nodes] at hcons
  have hagain : excess demands (spread weights amounts) = amounts := by
    refine List.ext_getElem ((length_excess hon hd).trans hlen.symm) fun v hv hv' => ?_
    have hlt : v < numNodes weights := hlen ▸ hv'
    have hnet := hcons v hlt
    rw [outflow_spread hw, hrow v hlt, one_mul] at hnet
    have hin : inflow (spread weights amounts) v + demands.getD v 0 = amounts.getD v 0 := by
      rw [← hnet, add_sub_cancel]
    have h := excess_of_onPattern hon hd hlt
    rw [hin, List.getD_eq_getElem _ _ hv, List.getD_eq_getElem _ _ hv',
      max_eq_left (hpos _ (List.getElem_mem hv'))] at h
    exact h
  rw [nextFlow, hagain]

/-- The flow of some rounds conserves exactly if one more round leaves it as it is, and then every
longer run ends with it. -/
theorem residual_eq_zero_iff_settled {weights : M K} (hw : Square weights)
    (hrow : ∀ v < numNodes weights, outflow weights v = 1) {demands : List K}
    (hd : demands.length = numNodes weights) (hsum : demands.sum = 0) (t : ℕ) :
    ∃ s next, solve t weights demands = .ok s ∧ solve (t + 1) weights demands = .ok next ∧
      (s.residual = 0 ↔ next.flow = s.flow) ∧
      (s.residual = 0 → ∀ k, t ≤ k → ∃ later, solve k weights demands = .ok later ∧
        later.flow = s.flow ∧ later.residual = 0) := by
  obtain ⟨s, hs, hflow, hres⟩ := solve_ok hw hd t
  obtain ⟨next, hnext, hnextflow, -⟩ := solve_ok hw hd (t + 1)
  have hpasses := passes_run hw hd t
  rw [← hflow] at hpasses
  have hround : next.flow = nextFlow weights demands s.flow := by
    rw [hnextflow, Function.iterate_succ_apply', hflow]
  have hon : OnPattern weights s.flow := hflow ▸ (flowAfter_ok hw hd t).2
  have hfix : s.residual = 0 ↔ nextFlow weights demands s.flow = s.flow :=
    ⟨fun hzero => nextFlow_eq_of_conserves hw hrow hd hpasses (hres.1 hzero),
      fun hsame => hres.2 (conserves_of_nextFlow_eq hw hrow hon hd hsum hsame)⟩
  refine ⟨s, next, hs, hnext, hround ▸ hfix, fun hzero k hk => ?_⟩
  obtain ⟨later, hlater, hlaterflow, hlaterres⟩ := solve_ok hw hd k
  obtain ⟨j, rfl⟩ := Nat.exists_eq_add_of_le' hk
  have hstay : later.flow = s.flow := by
    rw [hlaterflow, Function.iterate_add_apply, ← hflow]
    exact Function.iterate_fixed (hfix.1 hzero) j
  exact ⟨later, hlater, hstay, hlaterres.2 (hstay.symm ▸ hres.1 hzero)⟩

/-- A unit sent around by two nodes settles after the first round. -/
theorem residual_eq_zero_iff_settled_exchange :
    (∀ v < 2, outflow (exchange (1 : ℝ) 1) v = 1) ∧ ([1, -1] : List ℝ).sum = 0 ∧
    ∃ s next, solve 1 (exchange (1 : ℝ) 1) [1, -1] = .ok s ∧
      solve 2 (exchange (1 : ℝ) 1) [1, -1] = .ok next ∧ (s.residual = 0 ↔ next.flow = s.flow) := by
  have hrow : ∀ v < 2, outflow (exchange (1 : ℝ) 1) v = 1 := by
    intro v hv
    interval_cases v <;> simp [outflow, row]
  have hsum : ([1, -1] : List ℝ).sum = 0 := by simp
  obtain ⟨s, next, hs, hnext, hiff, -⟩ :=
    residual_eq_zero_iff_settled (square_exchange (1 : ℝ) 1) hrow rfl hsum 1
  exact ⟨hrow, hsum, s, next, hs, hnext, hiff⟩

end NeuralFlow.Redistribution
