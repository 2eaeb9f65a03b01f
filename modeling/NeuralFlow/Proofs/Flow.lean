import Mathlib
import NeuralFlow.Cost
import NeuralFlow.Proofs.Alike
import NeuralFlow.Proofs.FlowWeights
import NeuralFlow.Redistribution

/-! Operations on weights and flows, for any numbers. They keep the pattern, and on matrices that
are alike they give results that are alike; only sums over rows and columns depend on the
backing. -/

namespace NeuralFlow

open EdgeMatrix LawfulBacking

section Patterns

variable {M : Type → Type} [EdgeMatrix M] [LawfulBacking M] {α : Type} [Scalar α] {a flow : M α}

theorem Flow.cancelReciprocal_yields (h : OnPattern a flow) :
    Yields (Flow.cancelReciprocal flow) (OnPattern a) := by
  have hback := onPattern_withValues h.square fun u v _ => (get? flow v u).getD 0
  exact (zipMap_yields h.square hback.square hback.nodes.symm hback.pattern.symm _).mono
    fun _ hnext => h.trans hnext

/-- A flow can be joined with capacities on its edges. -/
theorem zipMap_capacities_yields (h : OnPattern a flow) {capacities : M α} (hc : Square capacities)
    (hn : numNodes capacities = numNodes a) (hp : pattern capacities = pattern a) (f : α → α → α) :
    Yields (zipMap flow capacities f) (OnPattern a) :=
  (zipMap_yields h.square hc (h.nodes.trans hn.symm) (h.pattern.trans hp.symm) f).mono
    fun _ hnext => h.trans hnext

/-- A flow can be clipped to capacities on its edges and priced with them. -/
theorem clip_price_yields (cost : CostFunction α) (h : OnPattern a flow) {capacities : M α}
    (hc : Square capacities) (hn : numNodes capacities = numNodes a)
    (hp : pattern capacities = pattern a) :
    Yields (do
      let clipped ← Flow.clip flow capacities
      return (clipped, ← cost.totalWithCapacities clipped capacities)) (OnPattern a ·.1) := by
  refine (zipMap_capacities_yields h hc hn hp _).bind fun clipped hclip => ?_
  refine Yields.bind (P := fun _ => True) ?_ fun price _ => yields_pure hclip
  exact (zipMap_capacities_yields hclip hc hn hp _).bind fun costs _ => yields_pure trivial

end Patterns

variable {M N : Type → Type} [EdgeMatrix M] [LawfulBacking M] [EdgeMatrix N] [LawfulBacking N]
  {α : Type} [Scalar α]

theorem agree_weights (rule : WeightRule α) {a : M α} {b : N α} (h : Alike a b) (scores : List α) :
    Agree Alike (rule.weights a scores) (rule.weights b scores) := by
  rw [WeightRule.weights, WeightRule.weights, h.nodes]
  split_ifs
  · exact .error
  · exact (h.withValuesM _).bind fun raw raw' hraw => .ok (hraw.1.mapRows _)

/-- A round passes on what came in along the columns. -/
theorem agree_push {a flow : M α} {b flow' : N α} (h : Alike a b) (demands : List α)
    (hcols : colSums flow = colSums flow') :
    Agree Alike (Redistribution.push a demands flow) (Redistribution.push b demands flow') := by
  rw [Redistribution.push, Redistribution.push, Redistribution.excess, Redistribution.excess, hcols]
  exact h.scaleRows _

theorem agree_flowAfter (hcols : ∀ {flow : M α} {flow' : N α}, Alike flow flow' →
    colSums flow = colSums flow') (rounds : ℕ) {a : M α} {b : N α} (h : Alike a b)
    (demands : List α) : Agree Alike (Redistribution.flowAfter a demands rounds)
      (Redistribution.flowAfter b demands rounds) :=
  Agree.iterate (fun _ _ hflow => agree_push h demands (hcols hflow)) rounds (h.map fun _ => 0)

/-- Whether there is a residual depends on the number of demands only. -/
theorem agree_residual_exists {flow : M α} {flow' : N α} (h : Alike flow flow') (demands : List α) :
    Agree (fun _ _ => True) (Flow.residual flow demands) (Flow.residual flow' demands) := by
  refine (Agree.orFault ?_).bind fun _ _ _ => .ok trivial
  simp [combine, length_rowSums h.square.1, length_rowSums h.square.2, length_colSums h.square.1,
    length_colSums h.square.2, h.nodes]

theorem agree_solve_flow (hcols : ∀ {flow : M α} {flow' : N α}, Alike flow flow' →
    colSums flow = colSums flow') (rounds : ℕ) {a : M α} {b : N α} (h : Alike a b)
    (demands : List α) : Agree (fun s s' => Alike s.flow s'.flow)
      (Redistribution.solve rounds a demands) (Redistribution.solve rounds b demands) := by
  rw [Redistribution.solve, Redistribution.solve, h.nodes]
  split_ifs
  · exact .error
  · refine (agree_flowAfter hcols rounds h demands).bind fun flow flow' hflow => ?_
    exact (agree_residual_exists hflow demands).bind fun _ _ _ => .ok hflow

theorem agree_cancelReciprocal {a : M α} {b : N α} (h : Alike a b) :
    Agree Alike (Flow.cancelReciprocal a) (Flow.cancelReciprocal b) := h.zipMap h.reverse _

theorem agree_totalWithCapacities (cost : CostFunction α) {a c : M α} {b d : N α} (h : Alike a b)
    (k : Alike c d) :
    Agree Eq (cost.totalWithCapacities a c) (cost.totalWithCapacities b d) :=
  (h.zipMap k _).bind fun _ _ hcosts => .ok (hcosts.sumEdges _)

end NeuralFlow
