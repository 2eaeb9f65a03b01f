import Mathlib
import NeuralFlow.Proofs.Backing.Sparse
import NeuralFlow.Proofs.DualAscent

/-! Weak duality: whatever the potentials are, also those where an ascent ends, their bound lies below
the cost of every flow that meets the demands. -/

namespace NeuralFlow.DualAscent

open EdgeMatrix LawfulBacking SparseMatrix

variable {M N : Type → Type} [EdgeMatrix M] [LawfulBacking M] [EdgeMatrix N] [LawfulBacking N]

theorem bound_le_conserving_cost {K : Type} [ExactScalar K] [LawfulLibrary K]
    {cost : CostFunction K} (hc : cost.Admissible) {adjacency : M K} (ha : Square adjacency)
    {flow : N K} (hf : Square flow) (hn : numNodes flow = numNodes adjacency)
    (hpat : pattern flow = pattern adjacency) (hpos : ∀ e ∈ edges flow, 0 ≤ e.value)
    {demands : List K} (hcons : Flow.Conserves flow demands) :
    (∀ potentials, potentials.length = numNodes adjacency →
      ∃ g, bound cost adjacency demands potentials = .ok g ∧ g ≤ cost.total flow) ∧
    ∀ (ascent : DualAscent K) (initial : List K), ascent.cost = cost →
      initial.length = numNodes adjacency →
      ∃ s, ascent.solve adjacency demands initial = .ok s ∧ s.cost ≤ cost.total flow := by
  have hd : demands.length = numNodes adjacency := hcons.length_eq.trans hn
  have hle := value_le_total hc hf hn hpat hpos hcons
  refine ⟨fun potentials hp => ⟨_, bound_eq_value cost ha hd hp, hle potentials⟩, ?_⟩
  rintro ascent initial rfl hi
  obtain ⟨s, hs, hp, hbound⟩ := solve_yields ascent ha hd hi
  rw [bound_eq_value _ ha hd hp] at hbound
  have hcost : value ascent.cost adjacency demands s.potentials = s.cost := Except.ok.inj hbound
  exact ⟨s, hs, hcost ▸ hle s.potentials⟩

/-- One unit goes from the first node to the second at the least cost, and the potentials `2` and
`0` prove it. -/
theorem bound_le_conserving_cost_exchange :
    Flow.Conserves (exchange (1 : ℝ) 0) [1, -1] ∧
    (∃ g, bound ⟨.quadratic, 1⟩ (exchange (1 : ℝ) 1) [1, -1] [2, 0] = .ok g ∧ g ≤ 1) ∧
    ∃ s, solve ⟨⟨.quadratic, 1⟩, 3, 0.5, 0.5⟩ (exchange (1 : ℝ) 1) [1, -1] [0, 0] = .ok s ∧
      s.cost ≤ 1 := by
  have hcons : Flow.Conserves (exchange (1 : ℝ) 0) [1, -1] := by
    simp [Flow.Conserves, List.range_succ, outflow, inflow, row]
  have htotal : CostFunction.total ⟨.quadratic, 1⟩ (exchange (1 : ℝ) 0) = 1 := by
    simp [CostFunction.total, sumEdges, CostFunction.apply_quadratic]
  have hcost : CostFunction.Admissible (⟨.quadratic, 1⟩ : CostFunction ℝ) := ⟨by norm_num, by simp⟩
  have h := bound_le_conserving_cost hcost (square_exchange 1 1) (square_exchange 1 0) rfl
    (by simp [pattern]) (by simp) hcons
  rw [htotal] at h
  exact ⟨hcons, h.1 [2, 0] rfl, h.2 _ [0, 0] rfl rfl⟩

end NeuralFlow.DualAscent
