import Mathlib
import NeuralFlow.Proofs.FinalFlow

/-! The gap of an evaluation. The residual is measured before opposite flow is cancelled and the flow is
clipped, and the cost afterwards; but cancelling keeps every balance, and clipping changes nothing if
the capacities suffice. So a residual of zero makes the final flow a flow that conserves, whose cost
the bound cannot exceed. -/

namespace NeuralFlow.FlowModel

open EdgeMatrix LawfulBacking

variable {M : Type → Type} [EdgeMatrix M]

def correctedFlow {α : Type} [Scalar α] (c : Settings α) (weights : M α) (demands : List α) :
    Outcome α (M α) := do
  let primal ← Redistribution.solve c.flowRounds.toNat weights demands
  cancel c primal.flow

variable [ExactBacking M] {K : Type} [ExactScalar K] [LawfulLibrary K]

namespace Stages

variable {m : FlowModel K} {i : FlowInstance M K} {e : Evaluation M K}
  {primal : Redistribution.Solution M K} {corrected : M K} {initial : List K}
  {dual : DualAscent.Solution M K} (h : Stages m i e primal corrected initial dual)
include h

omit [ExactBacking M] [LawfulLibrary K] in
theorem correctedFlow_ok :
    correctedFlow m.settings e.weights i.demands = .ok corrected := by
  rw [correctedFlow, h.solved]
  exact h.cancelled

/-- A residual of zero says that the corrected flow conserves. -/
theorem conserves (ha : Square i.adjacency) (hres : e.residual = 0) :
    Flow.Conserves corrected i.demands := by
  obtain ⟨hon, hpos, hiff⟩ := h.primalFlow ha
  have hcons := hiff.1 (h.residual ▸ hres)
  have hcancelled := h.cancelled
  rw [cancel_ok m.settings hon.square, Except.ok.injEq] at hcancelled
  rw [← hcancelled]
  split_ifs
  · exact Flow.conserves_cancelled hon.square hon.cleared hpos hcons
  · exact hcons

/-- The bound is below the cost of the corrected flow. -/
theorem bound_le_total (hcost : m.settings.cost.Admissible) (ha : Square i.adjacency)
    (hres : e.residual = 0) : e.bound ≤ m.settings.cost.total corrected := by
  obtain ⟨hreduced, hkept⟩ := h.keptFlow ha
  have hon := hkept.onPattern
  have hvalue := DualAscent.ensures_value _ ha _ _ dual h.ascended
  rw [h.bound, hvalue]
  exact DualAscent.value_le_total hcost hon.square hon.nodes hon.pattern hreduced.nonneg_edges
    (h.conserves ha hres) _

/-- Where the capacities suffice the corrected flow costs no more than is reported. -/
theorem total_le_cost (hcost : 0 < m.settings.cost.constant) (hi : i.Assembled)
    (hwithin : m.settings.useCapacities = true → ∀ capacities, i.capacities = some capacities →
      ∀ u v, (u, v) ∈ pattern i.adjacency → entry corrected u v ≤ entry capacities u v) :
    m.settings.cost.total corrected ≤ e.cost := by
  cases huse : m.settings.useCapacities with
  | false => exact (h.priced_unused huse).2.ge
  | true =>
    have hkept := (h.keptFlow hi.adjacency).2
    have hon := hkept.onPattern
    have hfinal := (h.finalFlow hcost hi).onPattern
    obtain ⟨capacities, hcap, -, hflow, hprice⟩ := h.priced_used hcost hi huse
    refine le_trans (le_of_eq ?_) hprice
    rw [CostFunction.total_eq_sum _ hon.square, CostFunction.total_eq_sum _ hfinal.square,
      hon.pattern, hfinal.pattern]
    refine congrArg List.sum (List.map_congr_left fun p hp => ?_)
    rw [hflow, Flow.entry_clipped_of_le hon.square (hon.pattern ▸ hp) (hkept.nonneg _ _ hp)
      (hwithin huse capacities hcap _ _ hp)]

end Stages

/-- With an admissible cost the gap of an evaluation is not negative, whether or not opposite flow is
cancelled, if no imbalance is reported and, where capacities are used, no edge of the corrected flow
exceeds its capacity. -/
theorem gap_nonneg (m : FlowModel K) (hc : m.settings.validate = .ok ())
    (hsmall : m.settings.cost.family = .exponential →
      CostFunction.smallNumber ≤ m.settings.cost.constant)
    {i : FlowInstance M K} (hi : i.Assembled) {e : Evaluation M K} (he : m.evaluate i = .ok e)
    (hres : e.residual = 0)
    (hwithin : m.settings.useCapacities = true → ∀ corrected capacities,
      correctedFlow m.settings e.weights i.demands = .ok corrected → i.capacities = some capacities →
        ∀ u v, (u, v) ∈ pattern i.adjacency → entry corrected u v ≤ entry capacities u v) :
    0 ≤ e.gap := by
  obtain ⟨primal, corrected, initial, dual, hstages⟩ := evaluate_stages he
  have hcost := (CostFunction.validate_eq_ok_iff _).1 ((Settings.validate_eq_ok_iff _).1 hc).cost
  have hbound := hstages.bound_le_total ⟨hcost, hsmall⟩ hi.adjacency hres
  have htotal := hstages.total_le_cost hcost hi fun huse capacities hcap =>
    hwithin huse corrected capacities hstages.correctedFlow_ok hcap
  exact sub_nonneg.2 (hbound.trans htotal)

/-! One unit between two nodes. -/

/-- Two nodes that point at each other have one way to go each, which gets all the weight. -/
theorem eq_exchange_of_rowStochastic {w : SparseMatrix ℝ} (hon : OnPattern (.exchange 1 1) w)
    (h : WeightRule.RowStochastic (.exchange (1 : ℝ) 1) w) : w = .exchange 1 1 := by
  obtain ⟨x, y, hedges⟩ : ∃ x y : ℝ, edges w = [⟨0, 1, x⟩, ⟨1, 0, y⟩] := by
    have hpattern : (edges w).map Edge.ends = [(0, 1), (1, 0)] := by
      rw [← pattern_eq_map_ends, hon.pattern]
      simp [pattern]
    obtain ⟨⟨u, v, x⟩, rest, hfirst, hd, hrest⟩ := List.map_eq_cons_iff.1 hpattern
    obtain ⟨⟨u', v', y⟩, last, hsecond, he, hlast⟩ := List.map_eq_cons_iff.1 hrest
    obtain ⟨rfl, rfl⟩ := Prod.mk.inj hd
    obtain ⟨rfl, rfl⟩ := Prod.mk.inj he
    exact ⟨x, y, by rw [hfirst, hsecond, List.map_eq_nil_iff.1 hlast]⟩
  have hsums : [x, y] = [1, 1] := by
    have hrows := h.rowSums
    rw [ExactBacking.rowSums_eq hon.square hon.cleared, hon.nodes] at hrows
    simpa [List.range_succ, outflow, row, hedges] using hrows
  rw [SparseMatrix.eq_compress_edges hon.square, hon.nodes, hedges]
  simp only [List.cons.injEq, and_true] at hsums
  rw [hsums.1, hsums.2]
  rfl

/-- The unit goes from the first node to the second, and there it stays. -/
theorem solve_exchange : ∃ primal, Redistribution.solve 2 (SparseMatrix.exchange (1 : ℝ) 1) [1, -1] =
    .ok primal ∧ primal.residual = 0 ∧
      primal.flow = Redistribution.spread (SparseMatrix.exchange 1 1) [1, 0] := by
  have hsquare := SparseMatrix.square_exchange (1 : ℝ) 1
  have hdemands : ([1, -1] : List ℝ).length = numNodes (SparseMatrix.exchange (1 : ℝ) 1) := rfl
  obtain ⟨primal, hsolve, hflow, hres⟩ := Redistribution.solve_ok hsquare hdemands 2
  have hstill := onPattern_withValues hsquare fun _ _ _ => (0 : ℝ)
  have hrow : ∀ v < 2, outflow (SparseMatrix.exchange (1 : ℝ) 1) v = 1 := by
    intro v hv
    interval_cases v <;> simp [outflow, row]
  have hfirst : Redistribution.nextFlow (SparseMatrix.exchange (1 : ℝ) 1) [1, -1]
      (Redistribution.still (SparseMatrix.exchange 1 1)) =
        Redistribution.spread (SparseMatrix.exchange 1 1) [1, 0] := by
    refine congrArg (Redistribution.spread _) ?_
    rw [Redistribution.still, EdgeMatrix.map, Redistribution.excess_eq hstill.square hstill.cleared rfl]
    simp [List.range_succ, inflow, edges_withValues hsquare]
  have hcons : Flow.Conserves (Redistribution.spread (SparseMatrix.exchange (1 : ℝ) 1) [1, 0])
      [1, -1] := by
    simp [Flow.Conserves, Redistribution.spread, List.range_succ, outflow, inflow, row,
      edges_withValues hsquare]
  have hstays := Redistribution.nextFlow_eq_of_conserves hsquare hrow hdemands
    ⟨[1, 0], rfl, by simp, rfl⟩ hcons
  have hlast : primal.flow = Redistribution.spread (SparseMatrix.exchange 1 1) [1, 0] := by
    rw [hflow, Function.iterate_succ_apply', Function.iterate_one, hfirst, hstays]
  exact ⟨primal, hsolve, hres.2 (hlast ▸ hcons), hlast⟩

theorem entry_exchange (x y : ℝ) : entry (SparseMatrix.exchange x y) 0 1 = x ∧
    entry (SparseMatrix.exchange x y) 1 0 = y := by
  have hsquare := SparseMatrix.square_exchange x y
  exact ⟨entry_of_mem hsquare (e := ⟨0, 1, x⟩) (by simp),
    entry_of_mem hsquare (e := ⟨1, 0, y⟩) (by simp)⟩

theorem mem_pattern_exchange {x y : ℝ} {u v : ℕ} :
    (u, v) ∈ pattern (SparseMatrix.exchange x y) ↔ u = 0 ∧ v = 1 ∨ u = 1 ∧ v = 0 := by
  simp [pattern]

/-- What is kept of the unit is at most one and a half on both edges. -/
theorem KeptFlow.le_of_unit {c : Settings ℝ} {flow : SparseMatrix ℝ}
    (h : KeptFlow c smallInstance (Redistribution.spread (SparseMatrix.exchange 1 1) [1, 0]) flow) :
    entry flow 0 1 ≤ 1.5 ∧ entry flow 1 0 ≤ 1.5 := by
  have hsquare := SparseMatrix.square_exchange (1 : ℝ) 1
  have hthere : (0, 1) ∈ pattern (SparseMatrix.exchange (1 : ℝ) 1) :=
    mem_pattern_exchange.2 (.inl ⟨rfl, rfl⟩)
  have hback : (1, 0) ∈ pattern (SparseMatrix.exchange (1 : ℝ) 1) :=
    mem_pattern_exchange.2 (.inr ⟨rfl, rfl⟩)
  constructor
  · refine (h.le 0 1 hthere).trans ?_
    rw [Redistribution.spread, entry_withValues hsquare _ hthere, (entry_exchange 1 1).1]
    norm_num
  · refine (h.le 1 0 hback).trans ?_
    rw [Redistribution.spread, entry_withValues hsquare _ hback, (entry_exchange 1 1).2]
    norm_num

theorem gap_nonneg_small :
    ∃ (m : FlowModel ℝ) (e : Evaluation SparseMatrix ℝ) (corrected : SparseMatrix ℝ),
      draw (pure 1) smallSettings () = .ok m ∧ m.evaluate smallInstance = .ok e ∧
      e.residual = 0 ∧ correctedFlow smallSettings e.weights [1, -1] = .ok corrected ∧
      entry corrected 0 1 ≤ 1.5 ∧ entry corrected 1 0 ≤ 1.5 ∧ 0 ≤ e.gap := by
  obtain ⟨m, hm, hdrawn⟩ := draw_yields (pure 1) smallSettings_valid smallSettings_headsFit ()
  have hsettings := hdrawn.settings_eq
  have hassembled := smallInstance_assembled
  obtain ⟨e, he, -⟩ := evaluate_yields hdrawn hassembled.adjacency
    hassembled.onNodes hassembled.capacities (FlowInstance.check_eq_ok_iff.2 smallInstance_accepted)
  obtain ⟨primal, corrected, initial, dual, hstages⟩ := evaluate_stages he
  -- the weights are known, and so is the flow
  obtain ⟨hon, hstochastic⟩ := WeightRule.ensures_weights LawfulLibrary.exp_pos
    LawfulLibrary.exp_zero _ hassembled.adjacency _ _ hstages.weights
  have hsolved := hstages.solved
  rw [hsettings, eq_exchange_of_rowStochastic hon hstochastic] at hsolved
  obtain ⟨unit, hunit, hres, hflow⟩ := solve_exchange
  obtain rfl : primal = unit := Except.ok.inj (hsolved.symm.trans hunit)
  have hkept := (hstages.keptFlow hassembled.adjacency).2
  rw [hflow] at hkept
  have hentries := hkept.le_of_unit
  have hcorrected := hstages.correctedFlow_ok
  have hzero : e.residual = 0 := hstages.residual.trans hres
  refine ⟨m, e, corrected, hm, he, hzero, hsettings ▸ hcorrected, hentries.1, hentries.2, ?_⟩
  refine gap_nonneg m (hsettings.symm ▸ smallSettings_valid) ?_ hassembled he hzero ?_
  · rw [hsettings]
    intro hfamily
    cases hfamily
  · rintro - corrected' capacities hcorrected' ⟨⟩ u v huv
    obtain rfl : corrected = corrected' := Except.ok.inj (hcorrected.symm.trans hcorrected')
    rcases mem_pattern_exchange.1 huv with ⟨rfl, rfl⟩ | ⟨rfl, rfl⟩
    · exact hentries.1.trans (entry_exchange 1.5 1.5).1.ge
    · exact hentries.2.trans (entry_exchange 1.5 1.5).2.ge

end NeuralFlow.FlowModel
