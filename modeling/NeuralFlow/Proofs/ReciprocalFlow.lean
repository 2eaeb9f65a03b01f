import Mathlib
import NeuralFlow.Proofs.Canonical
import NeuralFlow.Proofs.Pricing

/-! Cancelling opposite flow on any graph. It always succeeds, only takes flow away, and takes the same
from both edges of a mutual pair; so balances stay, no cost rises, and a second time nothing is left to
cancel. -/

namespace NeuralFlow.Flow

open EdgeMatrix LawfulBacking

variable {M : Type → Type} [EdgeMatrix M] {K : Type} [ExactScalar K]

def net (flow : M K) : List K := List.zipWith (· - ·) (rowSums flow) (colSums flow)

structure WithoutOpposite [LawfulBacking M] (flow next : M K) : Prop extends Reduced flow next where
  one_way : ∀ u v, (u, v) ∈ pattern flow → (v, u) ∉ pattern flow → entry next u v = entry flow u v
  opposite : ∀ u v, (u, v) ∈ pattern flow → (v, u) ∈ pattern flow → u ≠ v →
    min (entry next u v) (entry next v u) = 0
  loop : ∀ u, (u, u) ∈ pattern flow → entry next u u = 0
  net_eq : net next = net flow
  settled : cancelReciprocal next = .ok next

section Exact

variable [ExactBacking M] {flow : M K} (h : Square flow) (hc : Cleared flow)

include h hc in
theorem net_eq_map :
    net flow = (List.range (numNodes flow)).map fun w => outflow flow w - inflow flow w := by
  rw [net, ExactBacking.rowSums_eq h hc, ExactBacking.colSums_eq h hc, List.zipWith_map,
    List.zipWith_self]

variable (hpos : ∀ e ∈ edges flow, 0 ≤ e.value)

include h hc hpos

theorem net_cancelled : net (cancelled flow) = net flow := by
  have hon := onPattern_cancelled h
  rw [net_eq_map hon.square hon.cleared, net_eq_map h hc, hon.nodes]
  exact List.map_congr_left fun w hw => balance_cancelled h hc hpos (List.mem_range.1 hw)

/-- Where one of two opposite edges has nothing, cancelling takes nothing. -/
theorem cancelled_cancelled [CanonicalBacking M] :
    cancelled (cancelled flow) = cancelled flow := by
  have hon := onPattern_cancelled h
  refine withValues_eq_self hon.square hon.cleared fun e he => ?_
  obtain ⟨hu, hv⟩ := ends_lt hon.square e he
  rw [hon.nodes] at hu hv
  rw [← entry_of_mem hon.square he, entry_cancelled_of_nonneg h hc hpos hu hv,
    entry_cancelled_of_nonneg h hc hpos hv hu]
  rcases le_total (entry flow e.src e.dst) (entry flow e.dst e.src) with hle | hle
  · rw [max_eq_right (sub_nonpos.2 hle), max_eq_left (sub_nonneg.2 hle)]
    exact max_eq_right (by linarith)
  · rw [max_eq_left (sub_nonneg.2 hle), max_eq_right (sub_nonpos.2 hle), sub_zero]
    exact max_eq_left (sub_nonneg.2 hle)

theorem withoutOpposite_cancelled [CanonicalBacking M] : WithoutOpposite flow (cancelled flow) where
  toReduced := reduced_cancelled h hc hpos
  one_way u v huv hvu := by
    obtain ⟨hu, hv⟩ := lt_of_mem_pattern h huv
    rw [entry_cancelled h huv, entry_eq_zero h hc hv hu hvu, sub_zero]
    exact max_eq_left (entry_nonneg h hc hpos hu hv)
  opposite u v huv hvu _ := min_cancelled h huv hvu
  loop u huu := by rw [← min_cancelled h huu huu, min_self]
  net_eq := net_cancelled h hc hpos
  settled := by
    rw [cancelReciprocal_ok (onPattern_cancelled h).square, cancelled_cancelled h hc hpos]

end Exact

/-- Cancelling opposite flow succeeds on every flow that is nowhere below zero, whatever its pattern:
edges without an opposite edge keep their flow, of a mutual pair one edge is left with nothing, loops
are left with nothing, every node keeps its balance, doing it again changes nothing, and no cost rises. -/
theorem cancelReciprocal_yields_withoutOpposite [ExactBacking M] [CanonicalBacking M] {flow : M K}
    (h : Square flow) (hc : Cleared flow) (hpos : ∀ e ∈ edges flow, 0 ≤ e.value) :
    Yields (cancelReciprocal flow) fun next => WithoutOpposite flow next ∧
      ∀ [LawfulLibrary K] (family : CostFamily) (constant : K) (cost : CostFunction K),
        CostFunction.ofFamily family constant = .ok cost → cost.total next ≤ cost.total flow := by
  refine ⟨_, cancelReciprocal_ok h, withoutOpposite_cancelled h hc hpos, ?_⟩
  intro _ family constant cost haccept
  obtain ⟨hscale, rfl⟩ := CostFunction.ofFamily_eq_ok_iff.1 haccept
  exact CostFunction.total_le_of_reduced hscale h (reduced_cancelled h hc hpos)

def looped : SparseMatrix ℝ :=
  .compress 3 3 [⟨0, 0, 4⟩, ⟨0, 1, 3⟩, ⟨1, 0, 5⟩, ⟨1, 2, 1⟩]

theorem square_looped : Square looped :=
  SparseMatrix.square_compress (by simp [RowOrdered, Edge.Before]) (by simp)

theorem edges_looped : edges looped = [⟨0, 0, 4⟩, ⟨0, 1, 3⟩, ⟨1, 0, 5⟩, ⟨1, 2, 1⟩] :=
  SparseMatrix.edges_compress (by simp [RowOrdered, Edge.Before]) (by simp)

theorem cancelReciprocal_yields_withoutOpposite_looped :
    Square looped ∧ Cleared looped ∧ (∀ e ∈ edges looped, 0 ≤ e.value) ∧
    CostFunction.ofFamily .cubic (2 : ℝ) = .ok ⟨.cubic, 2⟩ ∧
    Yields (cancelReciprocal looped) fun next => WithoutOpposite looped next ∧
      entry next 0 0 = 0 ∧ entry next 1 2 = 1 ∧
      CostFunction.total ⟨.cubic, 2⟩ next ≤ CostFunction.total ⟨.cubic, 2⟩ looped := by
  have haccept : CostFunction.ofFamily .cubic (2 : ℝ) = .ok ⟨.cubic, 2⟩ :=
    CostFunction.ofFamily_eq_ok_iff.2 ⟨by norm_num, rfl⟩
  have hpos : ∀ e ∈ edges looped, 0 ≤ e.value := by simp [edges_looped]
  obtain ⟨next, hnext, hwithout, hcosts⟩ :=
    cancelReciprocal_yields_withoutOpposite square_looped trivial hpos
  have hpattern : pattern looped = [(0, 0), (0, 1), (1, 0), (1, 2)] := by
    simp [pattern, edges_looped]
  refine ⟨square_looped, trivial, hpos, haccept, next, hnext, hwithout,
    hwithout.loop 0 (by simp [hpattern]), ?_, hcosts _ _ _ haccept⟩
  rw [hwithout.one_way 1 2 (by simp [hpattern]) (by simp [hpattern])]
  exact entry_of_mem (e := ⟨1, 2, 1⟩) square_looped (by simp [edges_looped])

end NeuralFlow.Flow
