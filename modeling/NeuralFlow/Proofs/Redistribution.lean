import Mathlib
import NeuralFlow.Redistribution
import NeuralFlow.Proofs.Conservation

/-! Rounds of redistribution. After every round the flow is the weights scaled by what the nodes had to
pass on, so the flows on the way are known by one number for each node. -/

namespace NeuralFlow.Redistribution

open EdgeMatrix LawfulBacking

section Rounds

variable {M : Type → Type} [EdgeMatrix M] [LawfulBacking M] {α : Type} [Scalar α]

def spread (weights : M α) (excess : List α) : M α :=
  withValues weights fun u _ x => x * excess.getD u 0

theorem onPattern_spread {weights : M α} (h : Square weights) (excess : List α) :
    OnPattern weights (spread weights excess) := onPattern_withValues h _

theorem scaleRows_ok {weights : M α} (h : Square weights) {factors : List α}
    (hf : factors.length = numNodes weights) :
    scaleRows weights factors = .ok (spread weights factors) := by
  refine withValuesM_ok (g := fun u _ x => x * factors.getD u 0) fun e he => ?_
  have hu : e.src < factors.length := hf ▸ (ends_lt h e he).1
  rw [List.getElem?_eq_getElem hu, orFault_some, List.getD_eq_getElem _ _ hu]
  rfl

theorem length_excess {weights flow : M α} (h : OnPattern weights flow) {demands : List α}
    (hd : demands.length = numNodes weights) :
    (excess demands flow).length = numNodes weights := by
  simp [excess, length_colSums h.square, h.nodes, hd]

def nextFlow (weights : M α) (demands : List α) (flow : M α) : M α :=
  spread weights (excess demands flow)

theorem push_ok {weights flow : M α} (hw : Square weights) (h : OnPattern weights flow)
    {demands : List α} (hd : demands.length = numNodes weights) :
    push weights demands flow = .ok (nextFlow weights demands flow) :=
  scaleRows_ok hw (length_excess h hd)

/-- The run of the rounds is plain iteration. -/
theorem flowAfter_ok {weights : M α} (hw : Square weights) {demands : List α}
    (hd : demands.length = numNodes weights) (k : ℕ) :
    flowAfter weights demands k = .ok ((nextFlow weights demands)^[k] (still weights)) ∧
      OnPattern weights ((nextFlow weights demands)^[k] (still weights)) := by
  induction k with
  | zero => exact ⟨rfl, onPattern_withValues hw fun _ _ _ => 0⟩
  | succ k ih =>
    obtain ⟨hrun, hon⟩ := ih
    rw [flowAfter_succ, hrun, ok_bind, Function.iterate_succ_apply', push_ok hw hon hd]
    exact ⟨rfl, onPattern_spread hw _⟩

/-- With a demand for each node redistribution gives the flow of its rounds, and its residual. -/
theorem exists_solve_eq {weights : M α} (hw : Square weights) {demands : List α}
    (hd : demands.length = numNodes weights) (k : ℕ) :
    ∃ r, Flow.residual ((nextFlow weights demands)^[k] (still weights)) demands = .ok r ∧
      solve k weights demands = .ok ⟨(nextFlow weights demands)^[k] (still weights), k, r⟩ := by
  obtain ⟨hrun, hon⟩ := flowAfter_ok hw hd k
  have hresidual : Yields (Flow.residual ((nextFlow weights demands)^[k] (still weights)) demands)
      fun _ => True := by
    refine (yields_orFault (P := fun _ => True) ⟨_, combine_of_length_eq _ ?_, trivial⟩).bind
      fun _ _ => yields_pure trivial
    simp [length_rowSums hon.square, length_colSums hon.square, hon.nodes, hd]
  obtain ⟨r, hr, -⟩ := hresidual
  refine ⟨r, hr, ?_⟩
  rw [solve, if_neg (not_not.2 hd)]
  change (flowAfter weights demands k >>= _) = _
  rw [hrun, ok_bind, hr]
  rfl

/-- The flow is on the edges of the weights. -/
theorem solve_yields {weights : M α} (hw : Square weights) {demands : List α}
    (hd : demands.length = numNodes weights) (k : ℕ) :
    Yields (solve k weights demands) (OnPattern weights ·.flow) := by
  obtain ⟨r, -, hs⟩ := exists_solve_eq hw hd k
  exact ⟨_, hs, (flowAfter_ok hw hd k).2⟩

end Rounds

section Exact

variable {M : Type → Type} [EdgeMatrix M] [ExactBacking M] {K : Type} [ExactScalar K]

theorem solve_ok {weights : M K} (hw : Square weights) {demands : List K}
    (hd : demands.length = numNodes weights) (k : ℕ) :
    ∃ s, solve k weights demands = .ok s ∧
      s.flow = (nextFlow weights demands)^[k] (still weights) ∧
      (s.residual = 0 ↔ Flow.Conserves s.flow demands) := by
  have hon := (flowAfter_ok hw hd k).2
  obtain ⟨r, hr, hzero⟩ := Flow.residual_yields hon.square hon.cleared (hd.trans hon.nodes.symm)
  obtain ⟨r', hr', hs⟩ := exists_solve_eq hw hd k
  obtain rfl : r' = r := Except.ok.inj (hr'.symm.trans hr)
  exact ⟨_, hs, rfl, hzero⟩

theorem outflow_spread {weights : M K} (hw : Square weights) (excess : List K) (v : ℕ) :
    outflow (spread weights excess) v = outflow weights v * excess.getD v 0 := by
  have hrow : (row (spread weights excess) v).map Edge.value =
      (row weights v).map fun e => e.value * excess.getD v 0 := by
    rw [spread, row_withValues hw, List.map_map]
    refine List.map_congr_left fun e he => ?_
    simp [(mem_row_iff.1 he).2]
  rw [outflow, hrow, outflow]
  exact List.sum_map_mul_right (row weights v) Edge.value _

theorem excess_eq {flow : M K} (h : Square flow) (hc : Cleared flow) {demands : List K}
    (hd : demands.length = numNodes flow) : excess demands flow =
      (List.range (numNodes flow)).map fun v => max (inflow flow v + demands.getD v 0) 0 := by
  rw [excess, ExactBacking.colSums_eq h hc]
  refine List.ext_getElem (by simp [hd]) fun v hv hv' => ?_
  have hlt : v < demands.length := by simpa [hd] using hv'
  simp [hlt]

theorem getD_excess {flow : M K} (h : Square flow) (hc : Cleared flow) {demands : List K}
    (hd : demands.length = numNodes flow) {v : ℕ} (hv : v < numNodes flow) :
    (excess demands flow).getD v 0 = max (inflow flow v + demands.getD v 0) 0 := by
  rw [excess_eq h hc hd]
  simp [hv]

end Exact

end NeuralFlow.Redistribution
