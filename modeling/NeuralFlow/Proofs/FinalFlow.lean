import Mathlib
import NeuralFlow.Proofs.Acceptance
import NeuralFlow.Proofs.FixedPoint
import NeuralFlow.Proofs.Pricing
import NeuralFlow.Proofs.Validation

/-! The flow of an evaluation. What redistribution gives is nowhere below zero, and cancelling and
clipping only take from it; so what an earlier step took away no later one brings back, and the cost
is compared with the costs of the flows on the way. -/

namespace NeuralFlow

open EdgeMatrix LawfulBacking

variable {M : Type → Type} [EdgeMatrix M] [ExactBacking M] {K : Type} [ExactScalar K]

/-- Capacities of an instance that was put together and accepted live on the edges of its graph and
are positive. -/
theorem FlowInstance.Assembled.exists_capacities {c : Settings K} {i : FlowInstance M K} (hi : i.Assembled)
    (hcheck : i.check c = .ok ()) (huse : c.useCapacities = true) :
    ∃ capacities, i.capacities = some capacities ∧ Square capacities ∧
      EdgeMatrix.numNodes capacities = EdgeMatrix.numNodes i.adjacency ∧
      pattern capacities = pattern i.adjacency ∧
      ∀ u v, (u, v) ∈ pattern i.adjacency → 0 < entry capacities u v := by
  have haccepted := check_eq_ok_iff.1 hcheck
  obtain ⟨capacities, hcap, hsame⟩ := haccepted.capacities huse
  have hsquare := hi.capacities capacities hcap
  obtain ⟨hn, hp⟩ := (samePattern_iff hsquare hi.adjacency).1 hsame
  have hpositive := (forall_edges_iff hsquare (P := fun _ _ x => 0 < x)).1
    (haccepted.positive huse capacities hcap)
  exact ⟨capacities, hcap, hsquare, hn, hp, hp ▸ hpositive⟩

namespace FlowModel

section Steps

variable (c : Settings K) {flow : M K}

omit [ExactBacking M] in
theorem cancel_ok [LawfulBacking M] (h : Square flow) : cancel c flow =
    .ok (if c.cancelReciprocal then Flow.cancelled flow else flow) := by
  unfold cancel
  split_ifs
  · exact Flow.cancelReciprocal_ok h
  · rfl

omit [ExactBacking M] in
/-- Cancelling only takes from a flow, and if it is asked for it leaves no opposite flow. -/
theorem ensures_cancel [LawfulBacking M] (h : Square flow) (hc : Cleared flow)
    (hpos : ∀ e ∈ edges flow, 0 ≤ e.value) : Ensures (cancel c flow) fun corrected =>
      Reduced flow corrected ∧ (c.cancelReciprocal = true → ∀ u v, (u, v) ∈ pattern flow →
        (v, u) ∈ pattern flow → min (entry corrected u v) (entry corrected v u) = 0) := by
  rw [cancel_ok c h]
  refine ensures_pure ?_
  split_ifs with hon
  · exact ⟨Flow.reduced_cancelled h hc hpos, fun _ u v huv hvu => Flow.min_cancelled h huv hvu⟩
  · exact ⟨.refl h hc hpos, fun hask => (hon hask).elim⟩

/-- With capacities a flow is cut to them, and its price is no less than its cost. -/
theorem price_used [LawfulLibrary K] {c : Settings K} (hcost : 0 < c.cost.constant)
    (huse : c.useCapacities = true) {capacities : M K} (h : Square flow)
    (hpos : ∀ e ∈ edges flow, 0 ≤ e.value) (hcap : Square capacities)
    (hn : numNodes capacities = numNodes flow) (hp : pattern capacities = pattern flow)
    (hpositive : ∀ u v, (u, v) ∈ pattern flow → 0 < entry capacities u v) :
    Ensures (price c (some capacities) flow) fun priced =>
      priced.1 = Flow.clipped flow capacities ∧ c.cost.total priced.1 ≤ priced.2 := by
  have hreduced := Flow.reduced_clipped h hpos fun u v huv => (hpositive u v huv).le
  obtain ⟨cost, hprice, hle⟩ := CostFunction.total_le_totalWithCapacities hcost
    hreduced.onPattern.square hreduced.nonneg_edges hcap (hreduced.onPattern.nodes.trans hn.symm)
    (hreduced.onPattern.pattern.trans hp.symm)
  unfold price
  rw [huse]
  dsimp only
  rw [Flow.clip_ok h hcap hn.symm hp.symm, ok_bind, hprice]
  exact ensures_pure ⟨rfl, hle⟩

end Steps

structure KeptFlow (c : Settings K) (i : FlowInstance M K) (primal flow : M K) : Prop where
  onPattern : OnPattern i.adjacency flow
  nonneg : ∀ u v, (u, v) ∈ pattern i.adjacency → 0 ≤ entry flow u v
  le : ∀ u v, (u, v) ∈ pattern i.adjacency → entry flow u v ≤ entry primal u v
  opposite : c.cancelReciprocal = true → ∀ u v, (u, v) ∈ pattern i.adjacency →
    (v, u) ∈ pattern i.adjacency → min (entry flow u v) (entry flow v u) = 0

/-- Later steps do not undo it, as long as they only take from the flow. -/
theorem KeptFlow.reduced {c : Settings K} {i : FlowInstance M K}
    {primal corrected flow : M K} (h : KeptFlow c i primal corrected) (k : Reduced corrected flow) :
    KeptFlow c i primal flow where
  onPattern := h.onPattern.trans k.onPattern
  nonneg u v huv := k.nonneg u v (h.onPattern.pattern ▸ huv)
  le u v huv := (k.le u v (h.onPattern.pattern ▸ huv)).trans (h.le u v huv)
  opposite hask u v huv hvu := k.min_eq_zero (h.onPattern.pattern ▸ huv) (h.onPattern.pattern ▸ hvu)
    (h.opposite hask u v huv hvu)

structure FinalFlow (c : Settings K) (i : FlowInstance M K) (primal flow : M K) (cost : K) : Prop
    extends KeptFlow c i primal flow where
  used : c.useCapacities = true → ∃ capacities, i.capacities = some capacities ∧
    (∀ u v, (u, v) ∈ pattern i.adjacency → entry flow u v ≤ entry capacities u v) ∧
    c.cost.total flow ≤ cost
  unused : c.useCapacities = false → cost = c.cost.total flow ∧ cost ≤ c.cost.total primal

namespace Stages

variable [LawfulLibrary K] {m : FlowModel K} {i : FlowInstance M K} {e : Evaluation M K}
  {primal : Redistribution.Solution M K} {corrected : M K} {initial : List K}
  {dual : DualAscent.Solution M K} (h : Stages m i e primal corrected initial dual)
include h

/-- Redistribution gives a flow on the edges of the graph that is nowhere below zero. -/
theorem primalFlow (ha : Square i.adjacency) : OnPattern i.adjacency primal.flow ∧
    (∀ d ∈ edges primal.flow, 0 ≤ d.value) ∧
    (primal.residual = 0 ↔ Flow.Conserves primal.flow i.demands) := by
  obtain ⟨hweights, hstochastic⟩ := WeightRule.ensures_weights LawfulLibrary.exp_pos
    LawfulLibrary.exp_zero m.settings.weightRule ha e.scores e.weights h.weights
  have hd : i.demands.length = numNodes e.weights :=
    (i.ensures_checked _ () h.check).demands.trans hweights.nodes.symm
  obtain ⟨hon, hpos, hres⟩ :=
    Redistribution.ensures_flow hweights.square hd hstochastic.nonneg _ primal h.solved
  exact ⟨hweights.trans hon, hpos, hres⟩

theorem keptFlow (ha : Square i.adjacency) :
    Reduced primal.flow corrected ∧ KeptFlow m.settings i primal.flow corrected := by
  obtain ⟨hon, hpos, -⟩ := h.primalFlow ha
  obtain ⟨hreduced, hopposite⟩ :=
    ensures_cancel m.settings hon.square hon.cleared hpos corrected h.cancelled
  rw [hon.pattern] at hopposite
  exact ⟨hreduced, hon.trans hreduced.onPattern, fun u v huv => hreduced.nonneg u v (hon.pattern ▸ huv),
    fun u v huv => hreduced.le u v (hon.pattern ▸ huv), hopposite⟩

omit [ExactBacking M] [LawfulLibrary K] in
/-- Without capacities the corrected flow is the final one. -/
theorem priced_unused (huse : m.settings.useCapacities = false) :
    e.flow = corrected ∧ e.cost = m.settings.cost.total corrected := by
  have hpriced := h.priced
  rw [price_unused m.settings huse, Except.ok.injEq, Prod.mk.injEq] at hpriced
  exact ⟨hpriced.1.symm, hpriced.2.symm⟩

/-- With capacities, which are positive, the final flow is the corrected one cut to them. -/
theorem priced_used (hcost : 0 < m.settings.cost.constant) (hi : i.Assembled)
    (huse : m.settings.useCapacities = true) :
    ∃ capacities, i.capacities = some capacities ∧
      (∀ u v, (u, v) ∈ pattern corrected → 0 < entry capacities u v) ∧
      e.flow = Flow.clipped corrected capacities ∧ m.settings.cost.total e.flow ≤ e.cost := by
  obtain ⟨hreduced, hkept⟩ := h.keptFlow hi.adjacency
  have hon := hkept.onPattern
  obtain ⟨capacities, hcap, hsquare, hn, hp, hpositive⟩ := hi.exists_capacities h.check huse
  have hpriced := h.priced
  rw [hcap] at hpriced
  rw [← hon.pattern] at hpositive
  have hflow := price_used hcost huse hon.square hreduced.nonneg_edges hsquare
    (hn.trans hon.nodes.symm) (hp.trans hon.pattern.symm) hpositive _ hpriced
  exact ⟨capacities, hcap, hpositive, hflow⟩

theorem finalFlow (hcost : 0 < m.settings.cost.constant) (hi : i.Assembled) :
    FinalFlow m.settings i primal.flow e.flow e.cost := by
  obtain ⟨hreduced, hkept⟩ := h.keptFlow hi.adjacency
  have hon := hkept.onPattern
  cases huse : m.settings.useCapacities with
  | false =>
    obtain ⟨hflow, hprice⟩ := h.priced_unused huse
    refine { toKeptFlow := hflow ▸ hkept, used := ?_, unused := fun _ => ⟨hflow ▸ hprice, ?_⟩ }
    · rw [huse]
      exact nofun
    · rw [hprice]
      exact CostFunction.total_le_of_reduced hcost (h.primalFlow hi.adjacency).1.square hreduced
  | true =>
    obtain ⟨capacities, hcap, hpositive, hflow, hprice⟩ := h.priced_used hcost hi huse
    have hlast := Flow.reduced_clipped hon.square hreduced.nonneg_edges
      fun u v huv => (hpositive u v huv).le
    refine { toKeptFlow := hflow ▸ hkept.reduced hlast, used := fun _ => ?_, unused := ?_ }
    · refine ⟨capacities, hcap, fun u v huv => ?_, hprice⟩
      rw [hflow]
      exact Flow.entry_clipped_le hon.square (hon.pattern ▸ huv)
    · rw [huse]
      exact nofun

end Stages

/-- However long redistribution runs and whatever the switches of valid settings are: the final flow of
an evaluation lives on the edges of the graph between zero and the flow of redistribution. With
cancelling one of two opposite edges has nothing, also after clipping; with capacities no edge has
more than its capacity and the cost is at least what the flow costs without them; otherwise it is what
the flow costs, and no more than what the flow of redistribution costs. -/
theorem evaluate_finalFlow [LawfulLibrary K] (m : FlowModel K) (hc : m.settings.validate = .ok ())
    {i : FlowInstance M K} (hi : i.Assembled) :
    (Ensures (m.evaluate i) fun e => ∃ primal,
      Redistribution.solve m.settings.flowRounds.toNat e.weights i.demands = .ok primal ∧
        FinalFlow m.settings i primal.flow e.flow e.cost) ∧
    (m.Drawn m.settings → i.check m.settings = .ok () →
      ∃ e, m.evaluate i = .ok e) := by
  constructor
  · intro e he
    obtain ⟨primal, corrected, initial, dual, hstages⟩ := evaluate_stages he
    have hcost := (CostFunction.validate_eq_ok_iff _).1 ((Settings.validate_eq_ok_iff _).1 hc).cost
    exact ⟨primal, hstages.solved, hstages.finalFlow hcost hi⟩
  · intro hdrawn hcheck
    have hon := hi.onNodes
    obtain ⟨e, he, -⟩ := evaluate_yields hdrawn hi.adjacency hon hi.capacities hcheck
    exact ⟨e, he⟩

theorem smallInstance_accepted : smallInstance.Accepted smallSettings where
  demands := rfl
  hops := rfl
  embeddings := Grid.shaped_zeros 2 1
  features := Grid.shaped_zeros 2 1
  capacities _ := ⟨_, rfl, (samePattern_iff (SparseMatrix.square_exchange 1.5 1.5)
    (SparseMatrix.square_exchange 1 1)).2 ⟨rfl, by simp [pattern]⟩⟩
  backing := rfl
  size := ⟨2, rfl, rfl⟩
  positive _ capacities hcap := by
    cases hcap
    simp
    norm_num

theorem evaluate_finalFlow_small :
    ∃ (m : FlowModel ℝ) (e : Evaluation SparseMatrix ℝ)
      (primal : Redistribution.Solution SparseMatrix ℝ),
      draw (pure 1) smallSettings () = .ok m ∧ smallSettings.validate = .ok () ∧
      smallInstance.Assembled ∧ m.evaluate smallInstance = .ok e ∧
      FinalFlow smallSettings smallInstance primal.flow e.flow e.cost := by
  obtain ⟨m, hm, hdrawn⟩ := draw_yields (pure 1) smallSettings_valid smallSettings_headsFit ()
  have hsettings := hdrawn.settings_eq
  have hcheck : smallInstance.check smallSettings = .ok () :=
    FlowInstance.check_eq_ok_iff.2 smallInstance_accepted
  obtain ⟨hensures, hyields⟩ :=
    evaluate_finalFlow m (hsettings.symm ▸ smallSettings_valid) smallInstance_assembled
  rw [hsettings] at hensures hyields
  obtain ⟨e, he⟩ := hyields hdrawn hcheck
  obtain ⟨primal, -, hflow⟩ := hensures e he
  exact ⟨m, e, primal, hm, smallSettings_valid, smallInstance_assembled, he, hflow⟩

end FlowModel

end NeuralFlow
