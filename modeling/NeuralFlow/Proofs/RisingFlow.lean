import Mathlib
import NeuralFlow.Proofs.Backing.Sparse
import NeuralFlow.Proofs.FixedPoint
import NeuralFlow.Proofs.Pricing

/-! Redistribution comes up from below. With weights that are not negative a round is monotone in the
flow and in the demands, so from no flow at all the flow rises with every round. With rows that sum to
at most one, flows come no further apart in a round, so a round adds no more than the round before,
and the first round adds no more than the demands above zero. -/

namespace NeuralFlow.Redistribution

open EdgeMatrix LawfulBacking SparseMatrix

variable {M : Type → Type} [EdgeMatrix M] [ExactBacking M] {K : Type} [ExactScalar K]

def totalFlow (flow : M K) : K := sumEdges flow fun _ _ x => x

theorem totalFlow_eq_sum_outflow {flow : M K} (h : Square flow) :
    totalFlow flow = ∑ v ∈ Finset.range (numNodes flow), outflow flow v := by
  have hsum := sum_outflow h fun _ => 1
  simp only [one_mul] at hsum
  rw [totalFlow, sumEdges, Exact.runningSum_eq_sum, hsum]

theorem totalFlow_eq_sum_inflow {flow : M K} (h : Square flow) :
    totalFlow flow = ∑ v ∈ Finset.range (numNodes flow), inflow flow v := by
  rw [totalFlow_eq_sum_outflow h, sum_outflow_eq_sum_inflow h]

/-- Less flow on the edges is less flow into the nodes. -/
theorem inflow_le_of_reduced {upper lower : M K} (hu : Square upper) (hc : Cleared upper)
    (h : Reduced upper lower) {v : ℕ} (hv : v < numNodes upper) : inflow lower v ≤ inflow upper v := by
  have hon := h.onPattern
  rw [inflow_eq_sum hon.square hon.cleared (hon.nodes.symm ▸ hv), inflow_eq_sum hu hc hv, hon.nodes]
  refine Finset.sum_le_sum fun u hmem => ?_
  have hlt := Finset.mem_range.1 hmem
  by_cases huv : (u, v) ∈ pattern upper
  · exact h.le u v huv
  · rw [entry_eq_zero hu hc hlt hv huv, entry_eq_zero hon.square hon.cleared (hon.nodes.symm ▸ hlt)
      (hon.nodes.symm ▸ hv) (hon.pattern.symm ▸ huv)]

theorem getD_le_getD {xs ys : List K} (h : List.Forall₂ (· ≤ ·) xs ys) (v : ℕ) :
    xs.getD v 0 ≤ ys.getD v 0 := by
  induction h generalizing v with
  | nil => exact le_rfl
  | cons hxy _ ih =>
    cases v with
    | zero => exact hxy
    | succ v => exact ih v

theorem sum_map_max_zero (xs : List K) : (xs.map (max · 0)).sum = (xs.filter (0 < ·)).sum := by
  induction xs with
  | nil => rfl
  | cons x xs ih =>
    rw [List.map_cons, List.sum_cons, ih]
    by_cases hx : 0 < x
    · rw [List.filter_cons_of_pos (by simpa using hx), List.sum_cons, max_eq_left hx.le]
    · rw [List.filter_cons_of_neg (by simpa using hx), max_eq_right (not_lt.1 hx), zero_add]

section Rounds

variable {weights : M K} (hw : Square weights) (hpos : ∀ e ∈ edges weights, 0 ≤ e.value)
include hw hpos

/-- Less to pass on is less flow. -/
theorem reduced_spread {xs ys : List K} (hx : ∀ u < numNodes weights, 0 ≤ xs.getD u 0)
    (hxy : ∀ u < numNodes weights, xs.getD u 0 ≤ ys.getD u 0) :
    Reduced (spread weights ys) (spread weights xs) := by
  have hupper := onPattern_spread hw ys
  have hlower := onPattern_spread hw xs
  have hweight := (forall_edges_iff hw (P := fun _ _ x => 0 ≤ x)).1 hpos
  refine ⟨⟨hlower.square, hlower.cleared, hlower.nodes.trans hupper.nodes.symm,
    hlower.pattern.trans hupper.pattern.symm⟩, fun u v huv => ?_, fun u v huv => ?_⟩
  all_goals
    rw [hupper.pattern] at huv
    have hu := (lt_of_mem_pattern hw huv).1
  · rw [spread, entry_withValues hw _ huv]
    exact mul_nonneg (hweight u v huv) (hx u hu)
  · rw [spread, spread, entry_withValues hw _ huv, entry_withValues hw _ huv]
    exact mul_le_mul_of_nonneg_left (hxy u hu) (hweight u v huv)

/-- A round is monotone, in the flow and in the demands. -/
theorem reduced_nextFlow {upper lower : M K} (hu : OnPattern weights upper)
    (hl : OnPattern weights lower) (h : Reduced upper lower) {demands raised : List K}
    (hd : demands.length = numNodes weights) (hle : List.Forall₂ (· ≤ ·) demands raised) :
    Reduced (nextFlow weights raised upper) (nextFlow weights demands lower) := by
  refine reduced_spread hw hpos (fun v hv => ?_) fun v hv => ?_
  · rw [excess_of_onPattern hl hd hv]
    exact le_max_right _ _
  · have hin := inflow_le_of_reduced hu.square hu.cleared h (hu.nodes.symm ▸ hv)
    rw [excess_of_onPattern hl hd hv, excess_of_onPattern hu (hle.length_eq.symm.trans hd) hv]
    exact max_le_max_right 0 (add_le_add hin (getD_le_getD hle v))

variable {demands : List K} (hd : demands.length = numNodes weights)
include hd

/-- The flow rises with every round. -/
theorem reduced_iterate_succ (t : ℕ) : Reduced ((nextFlow weights demands)^[t + 1] (still weights))
    ((nextFlow weights demands)^[t] (still weights)) := by
  have hon := fun k => (flowAfter_ok hw hd k).2
  induction t with
  | zero =>
    rw [Function.iterate_succ_apply', Function.iterate_zero_apply, nextFlow, still_eq_spread]
    refine reduced_spread hw hpos (fun v hv => by simp [hv]) fun v hv => ?_
    have hexcess := excess_of_onPattern (hon 0) hd hv
    rw [Function.iterate_zero_apply, still_eq_spread] at hexcess
    rw [hexcess]
    simp [hv]
  | succ t ih =>
    have hstep := reduced_nextFlow hw hpos (hon (t + 1)) (hon t) ih hd
      (List.forall₂_same.2 fun _ _ => le_rfl)
    rwa [← Function.iterate_succ_apply' (nextFlow weights demands),
      ← Function.iterate_succ_apply' (nextFlow weights demands)] at hstep

/-- Raising demands lowers the flow nowhere, after no number of rounds. -/
theorem reduced_iterate_raised {raised : List K} (hle : List.Forall₂ (· ≤ ·) demands raised) (t : ℕ) :
    Reduced ((nextFlow weights raised)^[t] (still weights))
      ((nextFlow weights demands)^[t] (still weights)) := by
  induction t with
  | zero =>
    rw [Function.iterate_zero_apply, still_eq_spread]
    exact reduced_spread hw hpos (fun u hu => by simp [hu]) fun _ _ => le_rfl
  | succ t ih =>
    have hr := hle.length_eq.symm.trans hd
    rw [Function.iterate_succ_apply', Function.iterate_succ_apply']
    exact reduced_nextFlow hw hpos (flowAfter_ok hw hr t).2 (flowAfter_ok hw hd t).2 ih hd hle

end Rounds

section Totals

variable {weights : M K} (hw : Square weights)
include hw

theorem inflow_still (v : ℕ) : inflow (still weights) v = 0 := by
  refine List.sum_eq_zero fun x hx => ?_
  obtain ⟨e, he, rfl⟩ := List.mem_map.1 hx
  have hmem := (List.mem_filter.1 he).1
  rw [still, EdgeMatrix.map, edges_withValues hw, List.mem_map] at hmem
  obtain ⟨d, -, rfl⟩ := hmem
  rfl

theorem totalFlow_still : totalFlow (still weights) = 0 := by
  have hsquare : Square (still weights) := square_refill _ hw
  rw [totalFlow_eq_sum_inflow hsquare]
  exact Finset.sum_eq_zero fun v _ => inflow_still hw v

variable (hrow : ∀ v < numNodes weights, outflow weights v ≤ 1) {demands : List K}
  (hd : demands.length = numNodes weights)
include hd

theorem totalFlow_nextFlow {flow : M K} (hon : OnPattern weights flow) :
    totalFlow (nextFlow weights demands flow) = ∑ v ∈ Finset.range (numNodes weights),
      outflow weights v * max (inflow flow v + demands.getD v 0) 0 := by
  have hnext := onPattern_spread hw (excess demands flow)
  rw [nextFlow, totalFlow_eq_sum_outflow hnext.square, hnext.nodes]
  refine Finset.sum_congr rfl fun v hv => ?_
  rw [outflow_spread hw, excess_of_onPattern hon hd (Finset.mem_range.1 hv)]

include hrow

/-- A round brings flows no further apart: cutting off at zero does not, and no node passes on more than
it has. -/
theorem totalFlow_nextFlow_sub_le {upper lower : M K} (hu : OnPattern weights upper)
    (hl : OnPattern weights lower) (h : Reduced upper lower) :
    totalFlow (nextFlow weights demands upper) - totalFlow (nextFlow weights demands lower) ≤
      totalFlow upper - totalFlow lower := by
  rw [totalFlow_nextFlow hw hd hu, totalFlow_nextFlow hw hd hl, totalFlow_eq_sum_inflow hu.square,
    totalFlow_eq_sum_inflow hl.square, hu.nodes, hl.nodes, ← Finset.sum_sub_distrib,
    ← Finset.sum_sub_distrib]
  refine Finset.sum_le_sum fun v hmem => ?_
  have hv := Finset.mem_range.1 hmem
  have hin := inflow_le_of_reduced hu.square hu.cleared h (hu.nodes.symm ▸ hv)
  -- cutting off at zero
  have hcut := max_sub_max_le_max (inflow upper v + demands.getD v 0) 0
    (inflow lower v + demands.getD v 0) 0
  rw [add_sub_add_right_eq_sub, sub_zero, max_eq_left (sub_nonneg.2 hin)] at hcut
  have hmore : max (inflow lower v + demands.getD v 0) 0 ≤
      max (inflow upper v + demands.getD v 0) 0 := max_le_max_right 0 (add_le_add_left hin _)
  -- passing on
  rw [← mul_sub]
  exact (mul_le_of_le_one_left (sub_nonneg.2 hmore) (hrow v hv)).trans hcut

theorem totalFlow_first_le :
    totalFlow (nextFlow weights demands (still weights)) ≤ (demands.filter (0 < ·)).sum := by
  have hon : OnPattern weights (still weights) := (flowAfter_ok hw hd 0).2
  rw [totalFlow_nextFlow hw hd hon, ← sum_map_max_zero, ← sum_getD, List.length_map, hd]
  refine Finset.sum_le_sum fun v hmem => ?_
  have hv := Finset.mem_range.1 hmem
  have hget : (demands.map (max · 0)).getD v 0 = max (demands.getD v 0) 0 := by
    simp [hd.symm ▸ hv]
  rw [inflow_still hw, zero_add, hget]
  exact mul_le_of_le_one_left (le_max_right _ _) (hrow v hv)

variable (hpos : ∀ e ∈ edges weights, 0 ≤ e.value)
include hpos

/-- What the rounds add never grows. -/
theorem antitone_added : Antitone fun t =>
    totalFlow ((nextFlow weights demands)^[t + 1] (still weights)) -
      totalFlow ((nextFlow weights demands)^[t] (still weights)) := by
  refine antitone_nat_of_succ_le fun t => ?_
  have hon := fun k => (flowAfter_ok hw hd k).2
  have hapart := totalFlow_nextFlow_sub_le hw hrow hd (hon (t + 1)) (hon t)
    (reduced_iterate_succ hw hpos hd t)
  rwa [← Function.iterate_succ_apply' (nextFlow weights demands),
    ← Function.iterate_succ_apply' (nextFlow weights demands)] at hapart

theorem totalFlow_iterate_le (t : ℕ) :
    totalFlow ((nextFlow weights demands)^[t] (still weights)) ≤
      t * (demands.filter (0 < ·)).sum := by
  have hadded := antitone_added hw hrow hd hpos
  have hfirst := totalFlow_first_le hw hrow hd
  calc totalFlow ((nextFlow weights demands)^[t] (still weights))
      = ∑ i ∈ Finset.range t, (totalFlow ((nextFlow weights demands)^[i + 1] (still weights)) -
          totalFlow ((nextFlow weights demands)^[i] (still weights))) := by
        rw [Finset.sum_range_sub fun i => totalFlow ((nextFlow weights demands)^[i] (still weights)),
          Function.iterate_zero_apply, totalFlow_still hw, sub_zero]
    _ ≤ ∑ _i ∈ Finset.range t, (demands.filter (0 < ·)).sum := by
        refine Finset.sum_le_sum fun i _ => (hadded (Nat.zero_le i)).trans ?_
        simpa [totalFlow_still hw] using hfirst
    _ = t * (demands.filter (0 < ·)).sum := by
        rw [Finset.sum_const, Finset.card_range, nsmul_eq_mul]

end Totals

/-- With weights that are not negative and rows that sum to at most one: the flow rises with every
round, demands that are raised lower it nowhere, a round adds no more than the round before, and after
`t` rounds there is no more flow than `t` times the demands above zero. -/
theorem solve_rises {weights : M K} (hw : Square weights) (hpos : ∀ e ∈ edges weights, 0 ≤ e.value)
    (hrow : ∀ v < numNodes weights, outflow weights v ≤ 1) {demands : List K}
    (hd : demands.length = numNodes weights) (t : ℕ) :
    ∃ s next later, solve t weights demands = .ok s ∧ solve (t + 1) weights demands = .ok next ∧
      solve (t + 2) weights demands = .ok later ∧ Reduced next.flow s.flow ∧
      (∀ raised, List.Forall₂ (· ≤ ·) demands raised →
        Yields (solve t weights raised) fun s' => Reduced s'.flow s.flow) ∧
      totalFlow later.flow - totalFlow next.flow ≤ totalFlow next.flow - totalFlow s.flow ∧
      totalFlow s.flow ≤ t * (demands.filter (0 < ·)).sum := by
  obtain ⟨s, hs, hflow, -⟩ := solve_ok hw hd t
  obtain ⟨next, hnext, hnextflow, -⟩ := solve_ok hw hd (t + 1)
  obtain ⟨later, hlater, hlaterflow, -⟩ := solve_ok hw hd (t + 2)
  refine ⟨s, next, later, hs, hnext, hlater, ?_, fun raised hraised => ?_, ?_, ?_⟩
  · rw [hnextflow, hflow]
    exact reduced_iterate_succ hw hpos hd t
  · have hr := hraised.length_eq.symm.trans hd
    obtain ⟨s', hs', hflow', -⟩ := solve_ok hw hr t
    have hover := reduced_iterate_raised hw hpos hd hraised t
    rw [← hflow, ← hflow'] at hover
    exact ⟨s', hs', hover⟩
  · rw [hlaterflow, hnextflow, hflow]
    exact antitone_added hw hrow hd hpos (Nat.le_succ t)
  · rw [hflow]
    exact totalFlow_iterate_le hw hrow hd hpos t

/-- Two nodes, of which the first passes on only half of what it has. -/
theorem solve_rises_exchange :
    (∀ e ∈ EdgeMatrix.edges (exchange (1 / 2 : ℝ) 1), 0 ≤ e.value) ∧
    (∀ v < 2, outflow (exchange (1 / 2 : ℝ) 1) v ≤ 1) ∧
    ∃ s next, solve 3 (exchange (1 / 2 : ℝ) 1) [1, -1] = .ok s ∧
      solve 4 (exchange (1 / 2 : ℝ) 1) [1, -1] = .ok next ∧ Reduced next.flow s.flow ∧
      Yields (solve 3 (exchange (1 / 2 : ℝ) 1) [2, -1]) (fun s' => Reduced s'.flow s.flow) ∧
      totalFlow s.flow ≤ 3 := by
  have hpos : ∀ e ∈ EdgeMatrix.edges (exchange (1 / 2 : ℝ) 1), 0 ≤ e.value := by simp
  have hrow : ∀ v < 2, outflow (exchange (1 / 2 : ℝ) 1) v ≤ 1 := by
    intro v hv
    interval_cases v <;> norm_num [outflow, row]
  have hd : ([1, -1] : List ℝ).length = numNodes (exchange (1 / 2 : ℝ) 1) := rfl
  obtain ⟨s, next, -, hs, hnext, -, hrise, hraise, -, htotal⟩ :=
    solve_rises (square_exchange (1 / 2 : ℝ) 1) hpos hrow hd 3
  have hpositive : ([1, -1] : List ℝ).filter (0 < ·) = [1] := by norm_num [List.filter_cons]
  rw [hpositive] at htotal
  exact ⟨hpos, hrow, s, next, hs, hnext, hrise, hraise [2, -1] (by norm_num), by simpa using htotal⟩

end NeuralFlow.Redistribution
