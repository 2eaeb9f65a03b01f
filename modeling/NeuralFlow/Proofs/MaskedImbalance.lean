import Mathlib
import NeuralFlow.Proofs.Backing.Sparse
import NeuralFlow.Proofs.Redistribution
import NeuralFlow.Proofs.Single

/-! What the residual tells in single precision. It is the largest of the imbalances that are numbers, and
a node whose inflow and outflow are both infinite has none; so the residual speaks for all nodes only as
long as no node is undetermined. -/

namespace NeuralFlow

namespace Flow

open EdgeMatrix LawfulBacking

section Imbalances

variable {M : Type → Type} [EdgeMatrix M] [LawfulBacking M] {α : Type} [Scalar α]

def imbalanceAt (flow : M α) (demands : List α) (v : ℕ) : α :=
  (rowSums flow).getD v 0 - (colSums flow).getD v 0 - demands.getD v 0

/-- With a demand for each node the imbalances are those of the nodes. -/
theorem imbalance_eq_map {flow : M α} (h : Square flow) {demands : List α}
    (hd : demands.length = numNodes flow) :
    imbalance flow demands = .ok ((List.range (numNodes flow)).map (imbalanceAt flow demands)) := by
  have hrow := length_rowSums h
  have hcol := length_colSums h
  have hlen : (List.zipWith (· - ·) (rowSums flow) (colSums flow)).length = demands.length := by
    simp [hrow, hcol, hd]
  rw [imbalance, combine_of_length_eq _ hlen]
  refine congrArg Except.ok (List.ext_getElem (by simp [hrow, hcol, hd]) fun v hv hv' => ?_)
  have hlt : v < numNodes flow := by simpa using hv'
  simp [imbalanceAt, hlt, hrow, hcol, hd]

theorem residual_eq_foldl {flow : M α} (h : Square flow) {demands : List α}
    (hd : demands.length = numNodes flow) : residual flow demands = .ok
      (((List.range (numNodes flow)).map fun v =>
        Scalar.abs (imbalanceAt flow demands v)).foldl Scalar.larger 0) := by
  rw [residual, imbalance_eq_map h hd, ok_bind, List.map_map]
  rfl

/-- A node without a net flow: what flows out or in is undefined, or both are infinite. -/
def Undetermined (flow : M Float32) (v : ℕ) : Prop :=
  ((rowSums flow).getD v 0).isNaN = true ∨ ((colSums flow).getD v 0).isNaN = true ∨
    ((rowSums flow).getD v 0).isInf = true ∧ ((rowSums flow).getD v 0 == (colSums flow).getD v 0) = true

end Imbalances

section Single

open Single

variable {M : Type → Type} [EdgeMatrix M]

/-- Finite demands make no difference. -/
theorem isNumber_imbalanceAt {flow : M Float32} {demands : List Float32} {v : ℕ}
    (hd : (demands.getD v 0).isFinite = true) :
    IsNumber (imbalanceAt flow demands v) ↔ ¬ Undetermined flow v := by
  have hdef : imbalanceAt flow demands v =
    (rowSums flow).getD v 0 - (colSums flow).getD v 0 - demands.getD v 0 := rfl
  rw [hdef, Undetermined]
  obtain ⟨out, hout⟩ : ∃ out, (rowSums flow).getD v 0 = out := ⟨_, rfl⟩
  obtain ⟨inn, hinn⟩ : ∃ inn, (colSums flow).getD v 0 = inn := ⟨_, rfl⟩
  rw [hout, hinn]
  have hnet : IsNumber (out - inn - demands.getD v 0) ↔ IsNumber (out - inn) := by
    refine isNumber_sub_iff.trans ⟨fun h => h.1.1, fun h => ⟨⟨h, isNumber_of_isFinite hd⟩, fun heq => ?_⟩⟩
    exact (isFinite_iff.1 hd).2.ne (heq.2 ▸ (isInf_iff.1 heq.1).2)
  have hnumber : ∀ x : Float32, IsNumber x ↔ ¬ x.isNaN = true := fun x => by
    rw [IsNumber, Bool.not_eq_true]
  refine hnet.trans (isNumber_sub_iff.trans ?_)
  rw [not_or, not_or, ← hnumber, ← hnumber, and_assoc]
  refine and_congr_right fun hx => and_congr_right fun hy => not_congr (and_congr_right fun _ => ?_)
  exact (beq_iff.trans (and_iff_right ⟨hx, hy⟩)).symm

end Single

end Flow

namespace Redistribution

open EdgeMatrix LawfulBacking Single

/-- With finite demands redistribution gives a flow and a residual that is a number. The residual is zero
or attained at some node, and it bounds the imbalance of a node exactly if the node is not undetermined;
an undetermined node leaves no trace in it. -/
theorem residual_bounds_iff {M : Type → Type} [EdgeMatrix M] [LawfulBacking M] {weights : M Float32}
    (hw : Square weights) {demands : List Float32} (hd : demands.length = numNodes weights)
    (hfinite : ∀ d ∈ demands, d.isFinite = true) (rounds : ℕ) :
    ∃ s, solve rounds weights demands = .ok s ∧ s.residual.isNaN = false ∧
      (s.residual = 0 ∨
        ∃ v < numNodes weights, s.residual = (Flow.imbalanceAt s.flow demands v).abs) ∧
      ∀ v < numNodes weights, ((Flow.imbalanceAt s.flow demands v).isNaN = false ∧
        (Flow.imbalanceAt s.flow demands v).abs ≤ s.residual) ↔ ¬ Flow.Undetermined s.flow v := by
  have hon := (flowAfter_ok hw hd rounds).2
  obtain ⟨r, hr, hsolve⟩ := exists_solve_eq hw hd rounds
  obtain ⟨flow, hflow⟩ : ∃ flow, (nextFlow weights demands)^[rounds] (still weights) = flow := ⟨_, rfl⟩
  rw [hflow] at hon hr hsolve
  rw [Flow.residual_eq_foldl hon.square (hd.trans hon.nodes.symm), Except.ok.injEq, hon.nodes] at hr
  obtain ⟨hnumber, -, hbound, hmem⟩ := foldl_larger (x := (0 : Float32)) rfl
    ((List.range (numNodes weights)).map fun v => (Flow.imbalanceAt flow demands v).abs)
  refine ⟨_, hsolve, ?_⟩
  subst hr
  refine ⟨hnumber, ?_, fun v hv => ?_⟩
  · rcases List.mem_cons.1 hmem with hzero | hmem
    · exact Or.inl hzero
    · obtain ⟨v, hv, heq⟩ := List.mem_map.1 hmem
      exact Or.inr ⟨v, List.mem_range.1 hv, heq.symm⟩
  · have hlt : v < demands.length := hd ▸ hv
    have hdemand : (demands.getD v 0).isFinite = true := by
      rw [List.getD_eq_getElem _ _ hlt]
      exact hfinite _ (List.getElem_mem hlt)
    rw [← Flow.isNumber_imbalanceAt hdemand]
    refine ⟨fun h => h.1, fun h => ⟨h, le_iff.2 ⟨⟨isNumber_abs.2 h, hnumber⟩, ?_⟩⟩⟩
    exact hbound _ (List.mem_map_of_mem (List.mem_range.2 hv)) (isNumber_abs.2 h)

def infinite : Float32 := .ofModel (.pack (.infinity .positive))

set_option maxRecDepth 10000 in
/-- Two nodes pass all they have to each other. With large demands both flows become infinite in the second
round, and the residual of this flow is zero. -/
theorem residual_bounds_iff_diverged : ∃ s,
    solve 2 (SparseMatrix.exchange 1 1) [3e38, (3e38 : Float32)] = .ok s ∧ s.residual = 0 ∧
    ∀ v < 2, Flow.Undetermined s.flow v ∧
      ¬ ((Flow.imbalanceAt s.flow [3e38, 3e38] v).isNaN = false ∧
        (Flow.imbalanceAt s.flow [3e38, 3e38] v).abs ≤ s.residual) := by
  have hfinite : ∀ d ∈ [3e38, (3e38 : Float32)], d.isFinite = true := by
    simp only [List.forall_mem_cons]
    exact ⟨by decide +kernel, by decide +kernel, nofun⟩
  obtain ⟨s, hs, -, -, hnode⟩ :=
    residual_bounds_iff (SparseMatrix.square_exchange (1 : Float32) 1) rfl hfinite 2
  have hrun : solve 2 (SparseMatrix.exchange 1 1) [3e38, (3e38 : Float32)] =
      .ok ⟨SparseMatrix.exchange infinite infinite, 2, 0⟩ := by with_unfolding_all rfl
  obtain rfl := Except.ok.inj (hs.symm.trans hrun)
  have hmasked : ∀ v < 2, Flow.Undetermined (SparseMatrix.exchange infinite infinite) v := by
    intro v hv
    interval_cases v <;> exact Or.inr (Or.inr ⟨rfl, rfl⟩)
  exact ⟨_, hs, rfl, fun v hv => ⟨hmasked v hv, fun h => (hnode v hv).1 h (hmasked v hv)⟩⟩

end Redistribution

end NeuralFlow
