import Mathlib
import NeuralFlow.Proofs.ConcaveBound

/-! What an ascent proves about its flow. The bound it reports differs from the cost of its flow by what
the imbalances are worth at the potentials, so a flow without imbalances costs as little as any flow
can. -/

namespace NeuralFlow.DualAscent

open EdgeMatrix LawfulBacking

variable {M : Type → Type} [EdgeMatrix M] {K : Type} [ExactScalar K]

/-- Only the zero vector has norm zero. -/
theorem forall_eq_zero_of_norm [LawfulLibrary K] {xs : List K}
    (h : Scalar.sqrt (Scalar.dot xs xs) = 0) : ∀ x ∈ xs, x = 0 := by
  have hdot : Scalar.dot xs xs = (xs.map fun x => x * x).sum := by
    rw [Exact.dot_eq_sum, List.zipWith_self]
  have hsquares : ∀ y ∈ xs.map fun x => x * x, 0 ≤ y := by
    rw [List.forall_mem_map]
    exact fun x _ => mul_self_nonneg x
  have hroot := LawfulLibrary.sqrt_sq _ (List.sum_nonneg hsquares)
  rw [← hdot, h, zero_pow two_ne_zero] at hroot
  intro x hx
  have hle := List.single_le_sum hsquares (x * x) (List.mem_map_of_mem hx)
  rw [← hdot, ← hroot] at hle
  exact mul_self_eq_zero.1 (le_antisymm hle (mul_self_nonneg x))

/-- A flow on a pattern that is nowhere below zero and conserves, and costs no more than any other one,
however the other one is stored. -/
structure Cheapest [LawfulBacking M] (cost : CostFunction K) (a : M K) (demands : List K)
    (flow : M K) : Prop where
  onPattern : OnPattern a flow
  nonneg : ∀ e ∈ edges flow, 0 ≤ e.value
  conserves : Flow.Conserves flow demands
  total_le : ∀ {N : Type → Type} [EdgeMatrix N] [LawfulBacking N] (other : N K), Square other →
    numNodes other = numNodes a → pattern other = pattern a → (∀ e ∈ edges other, 0 ≤ e.value) →
    Flow.Conserves other demands → cost.total flow ≤ cost.total other

/-- Flow chosen at potentials that has no imbalance costs as much as their bound says, so it is a
cheapest one. -/
theorem cheapest_flowAt [LawfulLibrary K] [LawfulBacking M] {cost : CostFunction K}
    (hc : cost.Admissible) {a : M K} (ha : Square a) {demands potentials : List K}
    (hd : demands.length = numNodes a)
    (hslope : ∀ w < numNodes a, slope (flowAt cost a potentials) demands w = 0) :
    Cheapest cost a demands (flowAt cost a potentials) ∧
      value cost a demands potentials = cost.total (flowAt cost a potentials) := by
  have hon := onPattern_flowAt cost ha potentials
  have hvalue : value cost a demands potentials = cost.total (flowAt cost a potentials) := by
    rw [value_eq cost ha, add_eq_left]
    refine Finset.sum_eq_zero fun w hw => ?_
    rw [hslope w (Finset.mem_range.1 hw), mul_zero]
  refine ⟨⟨hon, ?_, ?_, ?_⟩, hvalue⟩
  · exact flowAt_nonneg cost ha potentials
  · rw [conserves_iff_slope (hd.trans hon.nodes.symm), hon.nodes]
    exact hslope
  · intro N _ _ other hother hn hpat hpos hcons
    rw [← hvalue]
    exact value_le_total hc hother hn hpat hpos hcons potentials

/-- An ascent reports the cost of its flow and, added to it, what the imbalances of this flow are worth
at the last potentials. If it reports a gradient of norm zero, the flow conserves, the reported bound
is its cost, and no flow that conserves costs less. -/
theorem solve_certifies_cheapest [ExactBacking M] (ascent : DualAscent K) {adjacency : M K}
    (ha : Square adjacency) {demands initial : List K} (hd : demands.length = numNodes adjacency)
    (hi : initial.length = numNodes adjacency) :
    Yields (ascent.solve adjacency demands initial) fun s =>
      s.potentials.length = numNodes adjacency ∧
      s.cost = ascent.cost.total s.response.flow + ∑ w ∈ Finset.range (numNodes adjacency),
        s.potentials.getD w 0 *
          (inflow s.response.flow w - outflow s.response.flow w + demands.getD w 0) ∧
      ∀ [LawfulLibrary K], ascent.cost.Admissible → s.gradientNorm = 0 →
        Cheapest ascent.cost adjacency demands s.response.flow ∧
          s.cost = ascent.cost.total s.response.flow := by
  obtain ⟨s, hs, hreports⟩ := solve_reports ascent ha hd hi
  have hcost := ensures_value ascent ha demands initial s hs
  have hflow : s.response.flow = flowAt ascent.cost adjacency s.potentials := by
    have hrespond := hreports.respond_eq
    rw [respond_ok _ ha hreports.length_eq, Except.ok.injEq] at hrespond
    rw [← hrespond]
  refine ⟨s, hs, hreports.length_eq, ?_, fun hc hnorm => ?_⟩
  · rw [hcost, hflow]
    exact value_eq _ ha _ _
  · have hzero := forall_eq_zero_of_norm (hreports.gradientNorm_eq.symm.trans hnorm)
    rw [hflow, gradient_flowAt _ ha hd, List.forall_mem_map] at hzero
    rw [hcost, hflow]
    exact cheapest_flowAt hc ha hd fun w hw => hzero w (List.mem_range.2 hw)

/-- A round of an ascent from zero potentials finds the prices at which one unit goes over the first
edge, and so shows that this is the cheapest way. -/
theorem solve_certifies_cheapest_exchange :
    CostFunction.Admissible (⟨.quadratic, 1⟩ : CostFunction ℝ) ∧
    ∃ s, solve ⟨⟨.quadratic, 1⟩, 1, 1, 0.5⟩ (SparseMatrix.exchange (1 : ℝ) 1) [1, -1] [0, 0] =
        .ok s ∧ s.gradientNorm = 0 ∧ s.cost = 1 ∧
      Cheapest ⟨.quadratic, 1⟩ (SparseMatrix.exchange (1 : ℝ) 1) [1, -1]
        (SparseMatrix.exchange 1 0) := by
  have hcost : CostFunction.Admissible (⟨.quadratic, 1⟩ : CostFunction ℝ) := ⟨by norm_num, by simp⟩
  have hsquare := SparseMatrix.square_exchange (1 : ℝ) 1
  have hd : ([1, -1] : List ℝ).length = numNodes (SparseMatrix.exchange (1 : ℝ) 1) := rfl
  have hi : ([0, 0] : List ℝ).length = numNodes (SparseMatrix.exchange (1 : ℝ) 1) := rfl
  obtain ⟨s, hs, -, -, hcheapest⟩ :=
    solve_certifies_cheapest ⟨⟨.quadratic, 1⟩, 1, 1, 0.5⟩ hsquare hd hi
  have hround : advance ⟨⟨.quadratic, 1⟩, 1, 1, 0.5⟩ (SparseMatrix.exchange (1 : ℝ) 1) [1, -1]
      ⟨[0, 0], [0, 0]⟩ = .ok ⟨[1, -1], [1, -1]⟩ := by
    rw [advance, respond_ok _ hsquare hi, flowAt_exchange, ok_bind, gradient_exchange]
    norm_num
    rfl
  have hend : s.response.flow = SparseMatrix.exchange 1 0 ∧ s.gradientNorm = 0 := by
    have hlast : flowAt ⟨.quadratic, 1⟩ (SparseMatrix.exchange (1 : ℝ) 1) [1, -1] =
        SparseMatrix.exchange 1 0 := by
      rw [flowAt_exchange]
      norm_num
    simp only [solve, checkLengths_ok hd hi, ok_bind, iterate, List.length_cons, List.length_nil,
      List.replicate, hround, respond_ok _ hsquare hd, hlast] at hs
    cases hs
    refine ⟨rfl, ?_⟩
    simp [gradient_exchange, Scalar.sqrt, ExactScalar.sqrt]
  obtain ⟨hleast, htotal⟩ := hcheapest hcost hend.2
  rw [hend.1] at hleast htotal
  refine ⟨hcost, s, hs, hend.2, ?_, hleast⟩
  rw [htotal]
  simp [CostFunction.total, sumEdges, CostFunction.apply_quadratic]

end NeuralFlow.DualAscent
