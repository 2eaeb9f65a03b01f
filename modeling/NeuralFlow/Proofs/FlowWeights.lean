import Mathlib
import NeuralFlow.FlowWeights
import NeuralFlow.Proofs.Backing.Sparse
import NeuralFlow.Proofs.Simplex

/-! Flow weights as transition probabilities. Every row with edges is a row of proportions, whatever
the scores are, and nothing is stored beside the edges. -/

namespace NeuralFlow

open EdgeMatrix LawfulBacking

namespace WeightRule

section Shapes

variable {M : Type → Type} [EdgeMatrix M] [LawfulBacking M] {α : Type} [Scalar α]

theorem edgeScores_yields (rule : WeightRule α) {adjacency : M α} (h : Square adjacency)
    {scores : List α} (hl : scores.length = numNodes adjacency) :
    Yields (rule.edgeScores adjacency scores) (OnPattern adjacency) := by
  refine withValuesM_yields h fun e he => ?_
  obtain ⟨hu, hv⟩ := ends_lt h e he
  rw [← hl] at hu hv
  rw [List.getElem?_eq_getElem hu, List.getElem?_eq_getElem hv]
  exact ⟨_, rfl⟩

omit [LawfulBacking M] in
theorem weights_of_edgeScores {rule : WeightRule α} {adjacency raw : M α} {scores : List α}
    (hl : scores.length = numNodes adjacency) (hraw : rule.edgeScores adjacency scores = .ok raw) :
    rule.weights adjacency scores = .ok (rule.normalize raw) := by
  rw [WeightRule.weights, if_neg (not_not.2 hl)]
  change (rule.edgeScores adjacency scores >>= _) = _
  rw [hraw, ok_bind]
  rfl

theorem weights_ok (rule : WeightRule α) {adjacency : M α} (h : Square adjacency) {scores : List α}
    (hl : scores.length = numNodes adjacency) : rule.weights adjacency scores =
      .ok (rule.normalize (withValues adjacency (atEnds scores scores rule.pairing.pair))) :=
  weights_of_edgeScores hl (lookUpEnds_ok h hl hl _)

theorem onPattern_normalize (rule : WeightRule α) {raw : M α} (h : Square raw) (hc : Cleared raw) :
    OnPattern raw (rule.normalize raw) := onPattern_mapRows h hc _

theorem weights_yields (rule : WeightRule α) {adjacency : M α} (h : Square adjacency)
    {scores : List α} (hl : scores.length = numNodes adjacency) :
    Yields (rule.weights adjacency scores) (OnPattern adjacency) := by
  obtain ⟨raw, hraw, hon⟩ := rule.edgeScores_yields h hl
  exact ⟨_, weights_of_edgeScores hl hraw,
    hon.trans (rule.onPattern_normalize hon.square hon.cleared)⟩

theorem length_normalizeRow (normalization : Normalization α) (zs : List α) :
    (normalization.normalizeRow zs).length = zs.length := by
  cases normalization with
  | softmax => exact Simplex.length_softmax zs
  | sparsemax epsilon => exact Simplex.length_sparsemax epsilon zs

/-- The values of a row with edges are its normalised scores. -/
theorem map_value_row_normalize (rule : WeightRule α) {raw : M α} (h : Square raw)
    (hc : Cleared raw) {u : ℕ} (hu : u < numNodes raw) (hne : row raw u ≠ []) :
    (row (rule.normalize raw) u).map Edge.value =
      rule.normalization.normalizeRow ((row raw u).map Edge.value) := by
  rw [normalize, map_value_row_mapRows h hc _ hu]
  exact newValues_of_length_eq hne fun _ values => length_normalizeRow _ values

end Shapes

section Exact

variable {M : Type → Type} [EdgeMatrix M] [ExactBacking M] {K : Type} [ExactScalar K]

/-- Weights on the edges of a graph with which every node passes on just what it has; a node without
edges passes on nothing. -/
structure RowStochastic (adjacency weights : M K) : Prop where
  nodes : numNodes weights = numNodes adjacency
  pattern : pattern weights = pattern adjacency
  nonneg : ∀ e ∈ edges weights, 0 ≤ e.value
  rowSums : rowSums weights =
    (List.range (numNodes adjacency)).map fun u => if row adjacency u = [] then 0 else 1
  blank : ∀ u < numNodes adjacency, ∀ v < numNodes adjacency,
    (u, v) ∉ EdgeMatrix.pattern adjacency → get? weights u v = some 0

omit [ExactBacking M] [ExactScalar K] in
theorem row_eq_nil_iff {a b : M K} (h : EdgeMatrix.pattern a = EdgeMatrix.pattern b) (u : ℕ) :
    row a u = [] ↔ row b u = [] := by
  rw [← List.map_eq_nil_iff (f := Edge.ends), map_ends_row, h, ← map_ends_row, List.map_eq_nil_iff]

variable (hpos : ∀ a : K, 0 < Scalar.exp a) (hzero : Scalar.exp (0 : K) = 1)

include hpos hzero

omit [EdgeMatrix M] [ExactBacking M] in
theorem proportions_normalizeRow (normalization : Normalization K) {zs : List K} (h : zs ≠ []) :
    Simplex.Proportions (normalization.normalizeRow zs) := by
  cases normalization with
  | softmax => exact Simplex.proportions_softmax hpos hzero h
  | sparsemax epsilon => exact Simplex.proportions_sparsemax epsilon h

/-- A row with edges is a row of proportions. -/
theorem proportions_row (rule : WeightRule K) {raw : M K} (h : Square raw) (hc : Cleared raw)
    {u : ℕ} (hu : u < numNodes raw) (hne : row raw u ≠ []) :
    Simplex.Proportions ((row (rule.normalize raw) u).map Edge.value) := by
  rw [rule.map_value_row_normalize h hc hu hne]
  exact proportions_normalizeRow hpos hzero rule.normalization (by simpa using hne)

theorem rowStochastic_normalize (rule : WeightRule K) {adjacency raw : M K}
    (hon : OnPattern adjacency raw) :
    RowStochastic adjacency (rule.normalize raw) := by
  have hnormal := rule.onPattern_normalize hon.square hon.cleared
  have hall := hon.trans hnormal
  have hrow : ∀ u < numNodes adjacency, row adjacency u ≠ [] →
      Simplex.Proportions ((row (rule.normalize raw) u).map Edge.value) := fun u hu hne =>
    proportions_row hpos hzero rule hon.square hon.cleared (hon.nodes.symm ▸ hu)
      ((row_eq_nil_iff hon.pattern u).not.2 hne)
  refine ⟨hall.nodes, hall.pattern, fun e he => ?_, ?_, fun u hu v hv hnot => ?_⟩
  · have hmem : e ∈ row (rule.normalize raw) e.src := mem_row_iff.2 ⟨he, rfl⟩
    have hu : e.src < numNodes adjacency := hall.nodes ▸ (ends_lt hall.square e he).1
    have hne : row adjacency e.src ≠ [] :=
      (row_eq_nil_iff hall.pattern e.src).not.1 (List.ne_nil_of_mem hmem)
    exact (hrow e.src hu hne).nonneg _ (List.mem_map_of_mem hmem)
  · rw [ExactBacking.rowSums_eq hall.square hall.cleared, hall.nodes]
    refine List.map_congr_left fun u hu => ?_
    split_ifs with hnil
    · rw [outflow, (row_eq_nil_iff hall.pattern u).2 hnil]
      rfl
    · exact (hrow u (List.mem_range.1 hu) hnil).sum_eq_one
  · rw [← hall.pattern] at hnot
    rw [← hall.nodes] at hu hv
    exact get?_blank hall.square hall.cleared hu hv hnot

/-- Weights that were made are row-stochastic, with nothing stored off the pattern. -/
theorem ensures_weights (rule : WeightRule K) {adjacency : M K} (h : Square adjacency)
    (scores : List K) : Ensures (rule.weights adjacency scores) fun weights =>
      OnPattern adjacency weights ∧ RowStochastic adjacency weights := by
  by_cases hl : scores.length = numNodes adjacency
  · obtain ⟨raw, hraw, hon⟩ := rule.edgeScores_yields h hl
    rw [weights_of_edgeScores hl hraw]
    exact ensures_pure ⟨hon.trans (rule.onPattern_normalize hon.square hon.cleared),
      rowStochastic_normalize hpos hzero rule hon⟩
  · rw [WeightRule.weights, if_pos hl]
    exact (ensures_throw _).bind_of_fails

/-- With a score for each node there are weights. They are row-stochastic on the edges of the graph,
for both pairings and both normalizations and any bound below which sparsemax drops an entry, and
the least denominator is never used. -/
theorem weights_rowStochastic (rule : WeightRule K) {adjacency : M K} (h : Square adjacency)
    {scores : List K} (hl : scores.length = numNodes adjacency) :
    (∃ weights, rule.weights adjacency scores = .ok weights ∧ RowStochastic adjacency weights) ∧
    (∀ (x : K) (xs : List K), Simplex.softmax (x :: xs) =
      (Simplex.exponentials x xs).map (· / Scalar.runningSum (Simplex.exponentials x xs))) ∧
    ∀ zs : List K, zs ≠ [] → Scalar.larger (Scalar.runningSum (Simplex.project zs))
      Simplex.denominatorGuard = Scalar.runningSum (Simplex.project zs) := by
  refine ⟨?_, fun x xs => ?_, fun zs hne => ?_⟩
  · obtain ⟨raw, hraw, hon⟩ := rule.edgeScores_yields h hl
    exact ⟨_, weights_of_edgeScores hl hraw, rowStochastic_normalize hpos hzero rule hon⟩
  · rw [Exact.runningSum_eq_sum]
    exact Simplex.softmax_eq_div_sum hpos hzero x xs
  · rw [Exact.runningSum_eq_sum, (Simplex.proportions_project hne).sum_eq_one, Exact.larger_eq_max,
      max_eq_left Simplex.denominatorGuard_le_one]

omit hpos hzero

/-- Two nodes that point at each other pass on all they have. -/
theorem weights_rowStochastic_exchange :
    (∀ a : ℝ, 0 < Scalar.exp a) ∧ Scalar.exp (0 : ℝ) = 1 ∧
    (∃ w, weights ⟨.softmax, .sum⟩ (SparseMatrix.exchange (1 : ℝ) 1) [2, -3] = .ok w ∧
      RowStochastic (SparseMatrix.exchange (1 : ℝ) 1) w) ∧
    ∃ w, weights ⟨.sparsemax (1 / 2), .product⟩ (SparseMatrix.exchange (1 : ℝ) 1) [2, -3] = .ok w ∧
      RowStochastic (SparseMatrix.exchange (1 : ℝ) 1) w := by
  have hsquare := SparseMatrix.square_exchange (1 : ℝ) 1
  exact ⟨Real.exp_pos, Real.exp_zero,
    (weights_rowStochastic Real.exp_pos Real.exp_zero ⟨.softmax, .sum⟩ hsquare rfl).1,
    (weights_rowStochastic Real.exp_pos Real.exp_zero ⟨.sparsemax (1 / 2), .product⟩ hsquare rfl).1⟩

end Exact

end WeightRule

end NeuralFlow
