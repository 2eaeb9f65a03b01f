import Mathlib
import NeuralFlow.Proofs.FlowModel
import NeuralFlow.Proofs.Relabelling.Rows

/-! Flows on relabelled nodes. Weights, rounds of redistribution and rounds of ascent are moved along;
costs, bounds and residuals are sums and maxima over all edges or nodes, so they stay the same. -/

namespace NeuralFlow

open EdgeMatrix

variable {n : ℕ} {π : Relabelling n} {M : Type → Type} [EdgeMatrix M] [ExactBacking M] {K : Type}
  [ExactScalar K] {a b c d flow flow' weights weights' : M K} {demands demands' : List K}

theorem WeightRule.relabelled_weights (rule : WeightRule K) (h : Relabelled π a b)
    {scores scores' : List K} (hs : π.Moves scores scores') :
    Agree (RelabelledFlow π) (rule.weights a scores) (rule.weights b scores') := by
  obtain ⟨hlen, hlen'⟩ := h.lengths hs
  rw [weights, weights, if_neg (not_not.2 hlen), if_neg (not_not.2 hlen')]
  exact (h.lookUpEnds hs hs rule.pairing.pair).bind fun _ _ hraw =>
    .ok (hraw.mapRows rule.normalization.orderFree)

namespace Redistribution

theorem moves_excess (h : RelabelledFlow π flow flow') (hd : π.Moves demands demands') :
    π.Moves (excess demands flow) (excess demands' flow') := h.colSums.zipWith hd _

theorem relabelled_push (hw : RelabelledFlow π weights weights') (hd : π.Moves demands demands')
    (h : RelabelledFlow π flow flow') :
    Agree (RelabelledFlow π) (push weights demands flow) (push weights' demands' flow') := by
  have hexcess := moves_excess h hd
  obtain ⟨hlen, hlen'⟩ := hw.lengths hexcess
  rw [push, push, scaleRows_ok hw.square.1 hlen, scaleRows_ok hw.square.2 hlen']
  refine .ok (hw.withValues fun e he => ?_)
  rw [hexcess.getD (hw.ends_lt_of_mem he).1]

theorem relabelled_flowAfter (hw : RelabelledFlow π weights weights')
    (hd : π.Moves demands demands') (rounds : ℕ) :
    Agree (RelabelledFlow π) (flowAfter weights demands rounds)
      (flowAfter weights' demands' rounds) :=
  Agree.iterate (fun _ _ h => relabelled_push hw hd h) rounds (hw.map fun _ => 0)

end Redistribution

/-- The largest imbalance is the same under all names. -/
theorem Flow.residual_eq (h : RelabelledFlow π flow flow') (hd : π.Moves demands demands') :
    Agree Eq (Flow.residual flow demands) (Flow.residual flow' demands') := by
  have hnet := h.rowSums.zipWith h.colSums fun x y => x - y
  have hbalance := (hnet.zipWith hd fun x y => x - y).map Scalar.abs
  rw [residual, residual, imbalance, imbalance,
    combine_of_length_eq _ (hnet.length_left.trans hd.length_left.symm),
    combine_of_length_eq _ (hnet.length_right.trans hd.length_right.symm)]
  exact .ok (Simplex.top_eq_of_perm (hbalance.perm.cons 0)).symm

theorem Redistribution.relabelled_solve (rounds : ℕ) (hw : RelabelledFlow π weights weights')
    (hd : π.Moves demands demands') :
    Agree (fun s s' => RelabelledFlow π s.flow s'.flow ∧ s.residual = s'.residual)
      (solve rounds weights demands) (solve rounds weights' demands') := by
  obtain ⟨hlen, hlen'⟩ := hw.lengths hd
  rw [solve, solve, if_neg (not_not.2 hlen), if_neg (not_not.2 hlen')]
  refine (relabelled_flowAfter hw hd rounds).bind fun flow flow' hflow => ?_
  exact (Flow.residual_eq hflow hd).bind fun r r' hr => .ok ⟨hflow, hr⟩

/-! Prices. -/

theorem CostFunction.total_eq (cost : CostFunction K) (h : Relabelled π a b) :
    cost.total a = cost.total b := (h.sumEdges fun _ _ => rfl).symm

theorem CostFunction.totalWithCapacities_eq (cost : CostFunction K) (h : Relabelled π a b)
    (k : Relabelled π c d) :
    Agree Eq (cost.totalWithCapacities a c) (cost.totalWithCapacities b d) :=
  (h.zipMap k _).bind fun _ _ hcosts => .ok (hcosts.sumEdges fun _ _ => rfl).symm

namespace FlowModel

theorem relabelled_cancel (s : Settings K) (h : RelabelledFlow π flow flow') :
    Agree (RelabelledFlow π) (cancel s flow) (cancel s flow') := by
  unfold cancel
  split_ifs
  · exact h.zipMap h.reverse.toRelabelled _
  · exact .ok h

theorem relabelled_price (s : Settings K) {capacities capacities' : Option (M K)}
    (hc : s.useCapacities = true →
      ∃ c d, capacities = some c ∧ capacities' = some d ∧ Relabelled π c d)
    (h : RelabelledFlow π flow flow') :
    Agree (fun x y => RelabelledFlow π x.1 y.1 ∧ x.2 = y.2) (price s capacities flow)
      (price s capacities' flow') := by
  cases huse : s.useCapacities with
  | false =>
    rw [price_unused s huse, price_unused s huse]
    exact .ok ⟨h, s.cost.total_eq h.toRelabelled⟩
  | true =>
    obtain ⟨c, d, rfl, rfl, hcap⟩ := hc huse
    simp only [price, huse]
    refine (h.zipMap hcap _).bind fun clipped clipped' hclip => ?_
    exact (s.cost.totalWithCapacities_eq hclip.toRelabelled hcap).bind fun _ _ hcost =>
      .ok ⟨hclip, hcost⟩

end FlowModel

/-! Potentials. -/

namespace DualAscent

variable {potentials potentials' : List K}

structure Response.Relabelled (π : Relabelling n) (r s : Response M K) : Prop where
  differences : NeuralFlow.Relabelled π r.differences s.differences
  flow : RelabelledFlow π r.flow s.flow
  ends : pattern r.flow = pattern r.differences

theorem relabelled_respond (cost : CostFunction K) (h : Relabelled π a b)
    (hp : π.Moves potentials potentials') :
    Agree (Response.Relabelled π) (respond cost a potentials) (respond cost b potentials') :=
  (h.lookUpEnds hp hp fun x y => x - y).bind fun _ _ hdiff =>
    .ok {
      differences := hdiff.toRelabelled
      flow := hdiff.map _
      ends := (onPattern_withValues hdiff.square.1 fun _ _ x => chosenFlow cost x).pattern }

theorem moves_gradient (h : RelabelledFlow π flow flow') (hd : π.Moves demands demands') :
    π.Moves (gradient flow demands) (gradient flow' demands') :=
  (h.colSums.zipWith h.rowSums _).zipWith hd _

theorem dot_eq {xs ys xs' ys' : List K} (h : π.Moves xs xs') (k : π.Moves ys ys') :
    Scalar.dot xs ys = Scalar.dot xs' ys' := by
  rw [Exact.dot_eq_sum, Exact.dot_eq_sum]
  exact (h.zipWith k _).perm.sum_eq.symm

/-- The value of potentials is the same under all names. -/
theorem lagrangian_eq (cost : CostFunction K) {r s : Response M K} (h : Response.Relabelled π r s)
    (hd : π.Moves demands demands') (hp : π.Moves potentials potentials') :
    lagrangian cost r demands potentials = lagrangian cost s demands' potentials' := by
  rw [lagrangian, lagrangian, dot_eq hp hd]
  refine congrArg (· + _) (h.flow.sumEdges fun e he => ?_).symm
  rw [h.differences.get?_of_mem (h.ends ▸ mem_pattern_of_mem he)]

structure State.Moves (π : Relabelling n) (s t : State K) : Prop where
  potentials : π.Moves s.potentials t.potentials
  velocity : π.Moves s.velocity t.velocity

theorem moves_advance (ascent : DualAscent K) (h : Relabelled π a b) (hd : π.Moves demands demands')
    {s t : State K} (hst : State.Moves π s t) :
    Agree (State.Moves π) (ascent.advance a demands s) (ascent.advance b demands' t) := by
  refine (relabelled_respond ascent.cost h hst.potentials).bind fun r r' hr => .ok ?_
  have hvelocity := hst.velocity.zipWith (moves_gradient hr.flow hd) fun v g =>
    ascent.momentum * v + ascent.step * g
  exact ⟨hst.potentials.zipWith hvelocity _, hvelocity⟩

theorem relabelled_solve (ascent : DualAscent K) (h : Relabelled π a b)
    (hd : π.Moves demands demands') (hp : π.Moves potentials potentials') :
    Agree (fun s s' => π.Moves s.potentials s'.potentials ∧
        RelabelledFlow π s.response.flow s'.response.flow ∧ s.cost = s'.cost)
      (ascent.solve a demands potentials) (ascent.solve b demands' potentials') := by
  have hstart : State.Moves π ⟨potentials, List.replicate potentials.length 0⟩
      ⟨potentials', List.replicate potentials'.length 0⟩ := by
    rw [hp.length_left, hp.length_right]
    exact ⟨hp, Relabelling.moves_replicate 0⟩
  rw [solve, solve, checkLengths_ok (h.lengths hd).1 (h.lengths hp).1,
    checkLengths_ok (h.lengths hd).2 (h.lengths hp).2]
  refine (Agree.iterate (fun s t => moves_advance ascent h hd) ascent.rounds hstart).bind
    fun last last' hlast => ?_
  exact (relabelled_respond ascent.cost h hlast.potentials).bind fun r r' hr =>
    .ok ⟨hlast.potentials, hr.flow, lagrangian_eq ascent.cost hr hd hlast.potentials⟩

end DualAscent

end NeuralFlow
