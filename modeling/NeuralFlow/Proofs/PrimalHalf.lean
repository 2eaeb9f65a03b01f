import Mathlib
import NeuralFlow.Proofs.Backing.Dense
import NeuralFlow.Proofs.Flow
import NeuralFlow.Proofs.Redistribution

/-! The primal half of an evaluation, from scores to the cost of a flow, with arithmetic that may
round. It adds up over columns and over all edges but never over rows, and both backings do this in
row order. So the values are the same in both, provided that the zeros a dense matrix holds off the
pattern do no harm. -/

namespace NeuralFlow

open EdgeMatrix LawfulBacking

variable {α : Type} [Scalar α]

/-- Both backings add up what comes into a node in the same order. -/
theorem colSums_eq_of_alike
    (hzero : ∀ xs : List α, Scalar.runningSum xs + 0 = Scalar.runningSum xs) {a : DenseMatrix α}
    {b : SparseMatrix α} (h : Alike a b) : colSums a = colSums b := by
  obtain ⟨es, hes, hn, hb⟩ := h.square.2
  have hdense : colSums a = (List.range (numNodes a)).map (columnSum a) :=
    DenseMatrix.colSums_eq_columnSum hzero h.square.1 h.cleared.1
  have hsparse := SparseMatrix.colSums_eq_columnSum hes fun e he => (hn e he).1
  rw [← hb] at hsparse
  refine hdense.trans (Eq.trans ?_ hsparse.symm)
  rw [show numNodes a = b.rows from h.nodes]
  exact List.map_congr_left fun v _ => by rw [columnSum, columnSum, h.edges]

/-- What the primal half computes from, before a backing is chosen. -/
structure PrimalData (α : Type) where
  nodes : ℕ
  edges : List (Edge α)
  scores : List α
  rule : WeightRule α
  demands : List α
  rounds : ℕ
  cost : CostFunction α
  cancelReciprocal : Bool
  capacities : Option (List (Edge α))

structure PrimalStages (M : Type → Type) (α : Type) where
  weights : M α
  flow : M α
  cancelled : M α
  clipped : M α
  cost : α

namespace PrimalData

section Run

variable {M : Type → Type} [EdgeMatrix M]

def cancel (d : PrimalData α) (flow : M α) : Outcome α (M α) :=
  if d.cancelReciprocal then Flow.cancelReciprocal flow else .ok flow

def price (d : PrimalData α) (flow : M α) : Outcome α (M α × α) :=
  match d.capacities with
  | none => .ok (flow, d.cost.total flow)
  | some es => do
    let capacities ← ofEdges d.nodes es
    let clipped ← Flow.clip flow capacities
    return (clipped, ← d.cost.totalWithCapacities clipped capacities)

def run (d : PrimalData α) : Outcome α (PrimalStages M α) := do
  let adjacency : M α ← ofEdges d.nodes d.edges
  let weights ← d.rule.weights adjacency d.scores
  let primal ← Redistribution.solve d.rounds weights d.demands
  let cancelled ← d.cancel primal.flow
  let (clipped, cost) ← d.price cancelled
  return { weights, flow := primal.flow, cancelled, clipped, cost }

end Run

/-! The stages agree. -/

structure StagesAgree {M N : Type → Type} [EdgeMatrix M] [EdgeMatrix N] (s : PrimalStages M α)
    (t : PrimalStages N α) : Prop where
  weights : EdgeMatrix.edges s.weights = EdgeMatrix.edges t.weights
  flow : EdgeMatrix.edges s.flow = EdgeMatrix.edges t.flow
  cancelled : EdgeMatrix.edges s.cancelled = EdgeMatrix.edges t.cancelled
  clipped : EdgeMatrix.edges s.clipped = EdgeMatrix.edges t.clipped
  cost : s.cost = t.cost

section Agreement

variable {M N : Type → Type} [EdgeMatrix M] [LawfulBacking M] [EdgeMatrix N] [LawfulBacking N]

theorem agree_cancel (d : PrimalData α) {a : M α} {b : N α} (h : Alike a b) :
    Agree Alike (d.cancel a) (d.cancel b) := by
  unfold cancel
  split_ifs
  · exact agree_cancelReciprocal h
  · exact .ok h

theorem agree_price (d : PrimalData α) {a : M α} {b : N α} (h : Alike a b) :
    Agree (fun p q => Alike p.1 q.1 ∧ p.2 = q.2) (d.price a) (d.price b) := by
  unfold price
  cases d.capacities with
  | none =>
    have hcost : d.cost.total a = d.cost.total b := h.sumEdges _
    exact .ok ⟨h, hcost⟩
  | some es =>
    refine (agree_ofEdges d.nodes es).bind fun capacities capacities' hcap => ?_
    refine (h.zipMap hcap.2 _).bind fun clipped clipped' hclip => ?_
    exact (agree_totalWithCapacities d.cost hclip hcap.2).bind fun _ _ hcost => .ok ⟨hclip, hcost⟩

/-- Where the sums over columns agree, whole runs do. -/
theorem agree_run (hcols : ∀ {a : M α} {b : N α}, Alike a b → colSums a = colSums b)
    (d : PrimalData α) :
    Agree StagesAgree (d.run : Outcome α (PrimalStages M α))
      (d.run : Outcome α (PrimalStages N α)) := by
  refine (agree_ofEdges d.nodes d.edges).bind fun a b hab => ?_
  refine (agree_weights d.rule hab.2 d.scores).bind fun weights weights' hweights => ?_
  refine (agree_solve_flow hcols d.rounds hweights d.demands).bind fun s s' hflow => ?_
  refine (d.agree_cancel hflow).bind fun cancelled cancelled' hcancel => ?_
  refine (d.agree_price hcancel).bind fun priced priced' hpriced => .ok ?_
  exact {
    weights := hweights.edges
    flow := hflow.edges
    cancelled := hcancel.edges
    clipped := hpriced.1.edges
    cost := hpriced.2 }

end Agreement

/-! Runs of data that fit together succeed. -/

structure Fits (d : PrimalData α) : Prop where
  edges : ∀ e ∈ d.edges, e.Fits d.nodes
  scores : d.scores.length = d.nodes
  demands : d.demands.length = d.nodes
  capacities : ∀ cs, d.capacities = some cs → (∀ e ∈ cs, e.Fits d.nodes) ∧
    ∀ p, p ∈ cs.map Edge.ends ↔ p ∈ d.edges.map Edge.ends

section Success

variable {M : Type → Type} [EdgeMatrix M] [LawfulBacking M]

omit [LawfulBacking M] [Scalar α] in
/-- The same positions make the same pattern. -/
theorem pattern_eq_of_ofEdges {a b : M α} {es fs : List (Edge α)}
    (ha : EdgeMatrix.edges a = SparseMatrix.inRowOrder es)
    (hb : EdgeMatrix.edges b = SparseMatrix.inRowOrder fs)
    (h : ∀ p, p ∈ es.map Edge.ends ↔ p ∈ fs.map Edge.ends) : pattern a = pattern b := by
  rw [pattern_eq_map_ends, pattern_eq_map_ends, ha, hb]
  refine (SparseMatrix.rowOrdered_inRowOrder es).ends_eq (SparseMatrix.rowOrdered_inRowOrder fs)
    fun p => ?_
  rw [SparseMatrix.mem_ends_inRowOrder, SparseMatrix.mem_ends_inRowOrder, h]

theorem cancel_yields (d : PrimalData α) {a flow : M α} (h : OnPattern a flow) :
    Yields (d.cancel flow) (OnPattern a) := by
  unfold cancel
  split_ifs
  · exact Flow.cancelReciprocal_yields h
  · exact yields_pure h

theorem price_yields {d : PrimalData α} (h : d.Fits) {a flow : M α} (hnodes : numNodes a = d.nodes)
    (ha : EdgeMatrix.edges a = SparseMatrix.inRowOrder d.edges) (hon : OnPattern a flow) :
    Yields (d.price flow) fun _ => True := by
  unfold price
  cases hcap : d.capacities with
  | none => exact yields_pure trivial
  | some cs =>
    obtain ⟨hfit, hsame⟩ := h.capacities cs hcap
    obtain ⟨b, hb, hsquare, -, hn, hedges⟩ := ofEdges_ok (M := M) hfit
    simp only [hb, ok_bind]
    exact (clip_price_yields d.cost hon hsquare (hn.trans hnodes.symm)
      (pattern_eq_of_ofEdges hedges ha hsame)).mono fun _ _ => trivial

theorem run_yields {d : PrimalData α} (h : d.Fits) :
    Yields (d.run : Outcome α (PrimalStages M α)) fun _ => True := by
  obtain ⟨a, ha, hsquare, -, hn, hedges⟩ := ofEdges_ok (M := M) h.edges
  have hd : d.demands.length = numNodes a := h.demands.trans hn.symm
  rw [run, ha, ok_bind]
  refine (WeightRule.weights_yields d.rule hsquare
    (h.scores.trans hn.symm)).bind fun weights hw => ?_
  refine (Redistribution.solve_yields hw.square (hd.trans hw.nodes.symm) d.rounds).bind
    fun primal hprimal => ?_
  refine (d.cancel_yields (hw.trans hprimal)).bind fun cancelled hcancel => ?_
  exact (price_yields h hn hedges hcancel).bind fun _ _ => yields_pure trivial

end Success

/-- With any numbers for which a zero added to a partial sum changes nothing, the primal half gives
the same values in both backings, at every stage and for the cost, or fails in both; on data that
fit together it does not fail. -/
theorem dense_sparse_agree_exactly
    (hzero : ∀ xs : List α, Scalar.runningSum xs + 0 = Scalar.runningSum xs) (d : PrimalData α) :
    Agree StagesAgree (d.run : Outcome α (PrimalStages DenseMatrix α))
      (d.run : Outcome α (PrimalStages SparseMatrix α)) ∧
    (d.Fits → ∃ s t, (d.run : Outcome α (PrimalStages DenseMatrix α)) = .ok s ∧
      (d.run : Outcome α (PrimalStages SparseMatrix α)) = .ok t ∧ StagesAgree s t) := by
  have hagree := d.agree_run (M := DenseMatrix)
    (N := SparseMatrix) fun h => colSums_eq_of_alike hzero h
  refine ⟨hagree, fun hfit => ?_⟩
  obtain ⟨s, hs, -⟩ := run_yields (M := DenseMatrix) hfit
  obtain ⟨t, ht, -⟩ := run_yields (M := SparseMatrix) hfit
  rw [hs, ht] at hagree
  cases hagree with
  | ok h => exact ⟨s, t, hs, ht, h⟩

noncomputable def exchange : PrimalData ℝ where
  nodes := 2
  edges := [⟨0, 1, 1⟩, ⟨1, 0, 1⟩]
  scores := [1, 0.5]
  rule := ⟨.sparsemax 0.25, .product⟩
  demands := [1, -1]
  rounds := 3
  cost := ⟨.cubic, 1.5⟩
  cancelReciprocal := true
  capacities := some [⟨1, 0, 2.5⟩, ⟨0, 1, 1⟩]

theorem fits_exchange : exchange.Fits where
  edges := by simp [exchange, Edge.Fits]
  scores := rfl
  demands := rfl
  capacities := by
    rintro cs ⟨⟩
    simp [exchange, Edge.Fits, Edge.ends, or_comm]

theorem dense_sparse_agree_exactly_exchange :
    (∀ xs : List ℝ, Scalar.runningSum xs + 0 = Scalar.runningSum xs) ∧
    ∃ s t, (exchange.run : Outcome ℝ (PrimalStages DenseMatrix ℝ)) = .ok s ∧
      (exchange.run : Outcome ℝ (PrimalStages SparseMatrix ℝ)) = .ok t ∧ StagesAgree s t := by
  have hzero : ∀ xs : List ℝ, Scalar.runningSum xs + 0 = Scalar.runningSum xs :=
    fun xs => add_zero _
  exact ⟨hzero, (dense_sparse_agree_exactly hzero exchange).2 fits_exchange⟩

end PrimalData

end NeuralFlow
