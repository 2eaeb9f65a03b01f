import Mathlib
import NeuralFlow.Proofs.Cancellation
import NeuralFlow.Proofs.Cost

/-! The price of a flow. Totals are sums over the pattern, so flows on one pattern are compared edge by
edge: less flow costs less, and prices with capacities are never below prices without. -/

namespace NeuralFlow

open EdgeMatrix LawfulBacking

variable {M : Type → Type} [EdgeMatrix M] [LawfulBacking M] {K : Type} [ExactScalar K]

/-- A flow on the edges of another one that lies between nothing and this one everywhere. -/
structure Reduced (bound flow : M K) : Prop where
  onPattern : OnPattern bound flow
  nonneg : ∀ u v, (u, v) ∈ pattern bound → 0 ≤ entry flow u v
  le : ∀ u v, (u, v) ∈ pattern bound → entry flow u v ≤ entry bound u v

namespace Reduced

variable {a b : M K}

theorem refl (h : Square a) (hc : Cleared a) (hpos : ∀ e ∈ edges a, 0 ≤ e.value) : Reduced a a where
  onPattern := ⟨h, hc, rfl, rfl⟩
  nonneg := (forall_edges_iff h (P := fun _ _ x => 0 ≤ x)).1 hpos
  le _ _ _ := le_rfl

theorem nonneg_edges (h : Reduced a b) : ∀ e ∈ edges b, 0 ≤ e.value :=
  (forall_edges_iff h.onPattern.square (P := fun _ _ x => 0 ≤ x)).2 fun u v huv =>
    h.nonneg u v (h.onPattern.pattern ▸ huv)

/-- Where one of two edges has nothing, reducing leaves it so. -/
theorem min_eq_zero (h : Reduced a b) {u v : ℕ} (huv : (u, v) ∈ pattern a) (hvu : (v, u) ∈ pattern a)
    (hzero : min (entry a u v) (entry a v u) = 0) : min (entry b u v) (entry b v u) = 0 :=
  le_antisymm (hzero ▸ min_le_min (h.le u v huv) (h.le v u hvu))
    (le_min (h.nonneg u v huv) (h.nonneg v u hvu))

end Reduced

namespace Flow

variable {flow capacities : M K}

theorem reduced_cancelled (h : Square flow) (hc : Cleared flow) (hpos : ∀ e ∈ edges flow, 0 ≤ e.value) :
    Reduced flow (cancelled flow) where
  onPattern := onPattern_cancelled h
  nonneg u v huv := by
    rw [entry_cancelled h huv]
    exact le_max_right _ _
  le u v huv := by
    obtain ⟨hu, hv⟩ := lt_of_mem_pattern h huv
    have hle := entry_nonneg h hc hpos hv hu
    rw [entry_cancelled h huv]
    exact max_le (sub_le_self _ hle) (entry_nonneg h hc hpos hu hv)

def clipped (flow capacities : M K) : M K :=
  withValues flow fun u v x => min (max x 0) (entry capacities u v)

theorem clip_ok (h : Square flow) (hcap : Square capacities)
    (hn : numNodes flow = numNodes capacities) (hp : pattern flow = pattern capacities) :
    clip flow capacities = .ok (clipped flow capacities) := by
  rw [clip, zipMap_ok h hcap ((sameLayout_iff h hcap).2 ⟨hn, hp⟩)]
  simp only [Exact.smaller_eq_min, Exact.larger_eq_max]
  rfl

theorem entry_clipped (h : Square flow) {u v : ℕ} (huv : (u, v) ∈ pattern flow) :
    entry (clipped flow capacities) u v = min (max (entry flow u v) 0) (entry capacities u v) :=
  entry_withValues h _ huv

theorem entry_clipped_le (h : Square flow) {u v : ℕ} (huv : (u, v) ∈ pattern flow) :
    entry (clipped flow capacities) u v ≤ entry capacities u v := by
  rw [entry_clipped h huv]
  exact min_le_right _ _

theorem reduced_clipped (h : Square flow) (hpos : ∀ e ∈ edges flow, 0 ≤ e.value)
    (hcap : ∀ u v, (u, v) ∈ pattern flow → 0 ≤ entry capacities u v) :
    Reduced flow (clipped flow capacities) where
  onPattern := onPattern_withValues h _
  nonneg u v huv := by
    rw [entry_clipped h huv]
    exact le_min (le_max_right _ _) (hcap u v huv)
  le u v huv := by
    have hentry := (forall_edges_iff h (P := fun _ _ x => 0 ≤ x)).1 hpos u v huv
    rw [entry_clipped h huv, max_eq_left hentry]
    exact min_le_left _ _

/-- A flow within the capacities is not cut. -/
theorem entry_clipped_of_le (h : Square flow) {u v : ℕ} (huv : (u, v) ∈ pattern flow)
    (hpos : 0 ≤ entry flow u v) (hle : entry flow u v ≤ entry capacities u v) :
    entry (clipped flow capacities) u v = entry flow u v := by
  rw [entry_clipped h huv, max_eq_left hpos, min_eq_left hle]

end Flow

namespace CostFunction

theorem total_eq_sum (cost : CostFunction K) {flow : M K} (h : Square flow) :
    cost.total flow = ((pattern flow).map fun p => cost.apply (entry flow p.1 p.2)).sum :=
  sumEdges_eq h _

theorem totalWithCapacities_ok (cost : CostFunction K) {flow capacities : M K} (h : Square flow)
    (hcap : Square capacities) (hn : numNodes flow = numNodes capacities)
    (hp : pattern flow = pattern capacities) :
    cost.totalWithCapacities flow capacities = .ok ((pattern flow).map fun p =>
      cost.applyWithCapacity (entry flow p.1 p.2) (entry capacities p.1 p.2)).sum := by
  rw [totalWithCapacities, zipMap_ok h hcap ((sameLayout_iff h hcap).2 ⟨hn, hp⟩), ok_bind]
  refine congrArg Except.ok ?_
  rw [sumEdges_eq (square_withValues h _), pattern_withValues h]
  refine congrArg List.sum (List.map_congr_left fun p hpair => ?_)
  rw [entry_withValues h _ hpair]
  rfl

variable [LawfulLibrary K]

/-- Reducing a flow does not raise its cost. -/
theorem total_le_of_reduced {cost : CostFunction K} (hc : 0 < cost.constant) {bound flow : M K}
    (hbound : Square bound) (h : Reduced bound flow) : cost.total flow ≤ cost.total bound := by
  rw [total_eq_sum cost h.onPattern.square, total_eq_sum cost hbound, h.onPattern.pattern]
  exact List.sum_le_sum fun p hp => apply_mono hc (h.nonneg p.1 p.2 hp) (h.le p.1 p.2 hp)

/-- Capacities do not make flow cheaper. -/
theorem total_le_totalWithCapacities {cost : CostFunction K} (hc : 0 < cost.constant)
    {flow capacities : M K} (h : Square flow) (hpos : ∀ e ∈ edges flow, 0 ≤ e.value)
    (hcap : Square capacities) (hn : numNodes flow = numNodes capacities)
    (hp : pattern flow = pattern capacities) :
    Yields (cost.totalWithCapacities flow capacities) fun price => cost.total flow ≤ price := by
  refine ⟨_, totalWithCapacities_ok cost h hcap hn hp, ?_⟩
  rw [total_eq_sum cost h]
  have hentry := (forall_edges_iff h (P := fun _ _ x => 0 ≤ x)).1 hpos
  exact List.sum_le_sum fun p hpair => apply_le_applyWithCapacity hc (hentry p.1 p.2 hpair) _

end CostFunction

end NeuralFlow
