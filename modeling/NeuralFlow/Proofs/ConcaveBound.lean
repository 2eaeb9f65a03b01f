import Mathlib
import NeuralFlow.Proofs.Backing.Sparse
import NeuralFlow.Proofs.DualAscent

/-! The bound as a function of the potentials. The flow chosen at some potentials is a candidate at all
others too, where its imbalances are paid at other prices; so the gradient, which lists these
imbalances, bounds how much other potentials can gain. -/

namespace NeuralFlow.DualAscent

open EdgeMatrix LawfulBacking

/-- A function that lies below a plane through each of its points is concave. -/
theorem concaveOn_of_planes {K : Type} [ExactScalar K] {n : ℕ} {g : (Fin n → K) → K}
    (h : ∀ p, ∃ s : Fin n → K, ∀ q, g q ≤ g p + ∑ w, s w * (q w - p w)) :
    ConcaveOn K Set.univ g := by
  rw [← neg_convexOn_iff]
  refine convexOn_of_supports convex_univ fun p _ => ?_
  obtain ⟨s, hs⟩ := h p
  refine ⟨-∑ w, s w • LinearMap.proj w, fun q _ => ?_⟩
  have hq := neg_le_neg (hs q)
  rw [neg_add] at hq
  simpa using hq

variable {M : Type → Type} [EdgeMatrix M] {K : Type} [ExactScalar K] [LawfulLibrary K]

/-- What potentials can gain over others is bounded by what their moves are worth at the slopes. -/
theorem value_le_value_add [LawfulBacking M] {cost : CostFunction K} (hc : cost.Admissible) {a : M K}
    (ha : Square a) (demands p q : List K) :
    value cost a demands q ≤ value cost a demands p + ∑ w ∈ Finset.range (numNodes a),
      slope (flowAt cost a p) demands w * (q.getD w 0 - p.getD w 0) := by
  have hon := onPattern_flowAt cost ha p
  calc value cost a demands q
      ≤ cost.total (flowAt cost a p) + ∑ w ∈ Finset.range (numNodes a),
          q.getD w 0 * slope (flowAt cost a p) demands w :=
        value_le hc hon.square hon.nodes hon.pattern (flowAt_nonneg cost ha p) demands q
    _ = value cost a demands p + ∑ w ∈ Finset.range (numNodes a),
          slope (flowAt cost a p) demands w * (q.getD w 0 - p.getD w 0) := by
        rw [value_eq cost ha, add_assoc, ← Finset.sum_add_distrib]
        refine congrArg _ (Finset.sum_congr rfl fun w _ => ?_)
        ring

/-- The gradient of an ascent is a supergradient of the bound. So the bound is concave in the
potentials, and where the gradient is zero no potentials have a larger bound. -/
theorem gradient_supergradient [ExactBacking M] {cost : CostFunction K} (hc : cost.Admissible)
    {adjacency : M K} (ha : Square adjacency) {demands : List K}
    (hd : demands.length = numNodes adjacency) :
    ∃ g : (Fin (numNodes adjacency) → K) → K,
      (∀ p, bound cost adjacency demands (List.ofFn p) = .ok (g p)) ∧
      (∀ p, ∃ r, respond cost adjacency (List.ofFn p) = .ok r ∧
        (∀ q, g q ≤ g p + ∑ w : Fin (numNodes adjacency),
          (gradient r.flow demands).getD w 0 * (q w - p w)) ∧
        ((∀ x ∈ gradient r.flow demands, x = 0) → IsMaxOn g Set.univ p)) ∧
      ConcaveOn K Set.univ g := by
  have hplane : ∀ p q : Fin (numNodes adjacency) → K,
      value cost adjacency demands (List.ofFn q) ≤ value cost adjacency demands (List.ofFn p) +
        ∑ w : Fin (numNodes adjacency),
          (gradient (flowAt cost adjacency (List.ofFn p)) demands).getD w 0 * (q w - p w) := by
    intro p q
    rw [gradient_flowAt cost ha hd]
    refine (value_le_value_add hc ha demands (List.ofFn p) (List.ofFn q)).trans_eq ?_
    rw [Finset.sum_range]
    refine congrArg _ (Finset.sum_congr rfl fun w _ => ?_)
    simp
  refine ⟨fun p => value cost adjacency demands (List.ofFn p),
    fun p => bound_eq_value cost ha hd (by simp), fun p => ?_,
    concaveOn_of_planes fun p => ⟨_, hplane p⟩⟩
  refine ⟨_, respond_ok cost ha (by simp), hplane p, fun hzero q _ => ?_⟩
  have hget : ∀ w, (gradient (flowAt cost adjacency (List.ofFn p)) demands).getD w 0 = 0 := by
    intro w
    rw [List.eq_replicate_of_mem hzero]
    simp
  have hle := hplane p q
  simp only [hget, zero_mul, Finset.sum_const_zero, add_zero] at hle
  exact hle

/-- Between two nodes flow goes from the higher potential to the lower one. -/
theorem flowAt_exchange (x y : ℝ) :
    flowAt ⟨.quadratic, 1⟩ (SparseMatrix.exchange (1 : ℝ) 1) [x, y] =
      SparseMatrix.exchange (max ((x - y) / 2) 0) (max ((y - x) / 2) 0) := by
  have hsquare := SparseMatrix.square_exchange (1 : ℝ) 1
  have hon := onPattern_flowAt ⟨.quadratic, 1⟩ hsquare [x, y]
  rw [SparseMatrix.eq_compress_edges hon.square, hon.nodes, edges_flowAt _ hsquare,
    SparseMatrix.edges_exchange, SparseMatrix.numNodes_exchange, SparseMatrix.exchange]
  simp [difference, chosenFlow_eq, CostFunction.inverseDerivative_quadratic]

theorem gradient_exchange (x y d e : ℝ) :
    gradient (SparseMatrix.exchange x y) [d, e] = [y - x + d, x - y + e] := by
  rw [gradient_eq (SparseMatrix.square_exchange x y) trivial rfl]
  simp [slope, List.range_succ, inflow, outflow, row]

/-- The gradient is zero at the potentials `2` and `0`, so no potentials have a bound above theirs. -/
theorem gradient_supergradient_exchange :
    CostFunction.Admissible (⟨.quadratic, 1⟩ : CostFunction ℝ) ∧
    Square (SparseMatrix.exchange (1 : ℝ) 1) ∧
    ∀ q : Fin 2 → ℝ, ∃ b, b ≤ 1 ∧
      bound ⟨.quadratic, 1⟩ (SparseMatrix.exchange (1 : ℝ) 1) [1, -1] (List.ofFn q) = .ok b := by
  have hcost : CostFunction.Admissible (⟨.quadratic, 1⟩ : CostFunction ℝ) := ⟨by norm_num, by simp⟩
  have hsquare := SparseMatrix.square_exchange (1 : ℝ) 1
  have hd : ([1, -1] : List ℝ).length = numNodes (SparseMatrix.exchange (1 : ℝ) 1) := rfl
  obtain ⟨g, hbound, hgradient, -⟩ := gradient_supergradient hcost hsquare hd
  obtain ⟨r, hr, -, hmax⟩ := hgradient ![2, 0]
  have hflow : r.flow = SparseMatrix.exchange 1 0 := by
    change respond _ _ [2, 0] = _ at hr
    rw [respond_ok _ hsquare rfl, flowAt_exchange, Except.ok.injEq] at hr
    rw [← hr]
    norm_num
  have hvalue : g ![2, 0] = 1 := by
    have hstart : bound _ _ _ [2, 0] = .ok (g ![2, 0]) := hbound ![2, 0]
    rw [bound_eq_value _ hsquare hd rfl, value_eq _ hsquare, flowAt_exchange,
      Except.ok.injEq] at hstart
    rw [← hstart]
    norm_num [CostFunction.total, sumEdges, CostFunction.apply_quadratic, Finset.sum_range_succ,
      slope, inflow, outflow, row]
  refine ⟨hcost, hsquare, fun q => ⟨g q, ?_, hbound q⟩⟩
  rw [← hvalue]
  exact hmax (by simp [hflow, gradient_exchange]) (Set.mem_univ q)

end NeuralFlow.DualAscent
