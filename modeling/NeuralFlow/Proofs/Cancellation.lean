import Mathlib
import NeuralFlow.Proofs.Entries

/-! Cancellation of opposite flow. Both edges of a mutual pair lose what they have in common, so the
smaller one is left with nothing, no edge gains anything, and what goes from one node to another on
balance stays. -/

namespace NeuralFlow.Flow

open EdgeMatrix LawfulBacking

variable {M : Type → Type} [EdgeMatrix M]

/-- Each edge loses what it has in common with the opposite one. -/
theorem cancelReciprocal_eq [LawfulBacking M] {α : Type} [Scalar α] {flow : M α} (h : Square flow) :
    cancelReciprocal flow =
      .ok (withValues flow fun u v x => Scalar.relu (x - common x (entry flow v u))) := by
  have hback : OnPattern flow (EdgeMatrix.reverse flow) := onPattern_withValues h _
  have hlayout := (sameLayout_iff h hback.square).2 ⟨hback.nodes.symm, hback.pattern.symm⟩
  rw [cancelReciprocal, zipMap_ok h hback.square hlayout]
  refine congrArg Except.ok (withValues_congr fun e he => ?_)
  have hopposite : entry (EdgeMatrix.reverse flow) e.src e.dst = entry flow e.dst e.src :=
    entry_withValues h _ (mem_pattern_of_mem he)
  change Scalar.relu (e.value - common e.value (entry (EdgeMatrix.reverse flow) e.src e.dst)) = _
  rw [hopposite]

variable {K : Type} [ExactScalar K]

theorem common_eq_min (x y : K) : common x y = min x y := by
  have hhalf : (OfScientific.ofScientific 5 true 1 : K) = 1 / 2 := by norm_num
  change OfScientific.ofScientific 5 true 1 * (x + y - |x - y|) = min x y
  rw [hhalf]
  rcases le_total x y with h | h
  · rw [min_eq_left h, abs_of_nonpos (sub_nonpos.2 h)]
    ring
  · rw [min_eq_right h, abs_of_nonneg (sub_nonneg.2 h)]
    ring

/-- What is left of a value without what it has in common with another one. -/
theorem sub_min_eq_max (x y : K) : x - min x y = max (x - y) 0 := by
  rw [← max_sub_sub_left, sub_self, max_comm]

def cancelled (flow : M K) : M K := withValues flow fun u v x => max (x - entry flow v u) 0

variable [LawfulBacking M] {flow : M K} {u v : ℕ}

theorem onPattern_cancelled (h : Square flow) : OnPattern flow (cancelled flow) :=
  onPattern_withValues h _

theorem cancelReciprocal_ok (h : Square flow) : cancelReciprocal flow = .ok (cancelled flow) := by
  rw [cancelReciprocal_eq h]
  refine congrArg Except.ok (withValues_congr fun e _ => ?_)
  rw [common_eq_min, sub_min_eq_max, Exact.relu_eq_max, max_eq_left (le_max_right _ _)]

theorem entry_cancelled (h : Square flow) (huv : (u, v) ∈ pattern flow) :
    entry (cancelled flow) u v = max (entry flow u v - entry flow v u) 0 :=
  entry_withValues h _ huv

/-- One of two opposite edges is left with nothing. -/
theorem min_cancelled (h : Square flow) (huv : (u, v) ∈ pattern flow) (hvu : (v, u) ∈ pattern flow) :
    min (entry (cancelled flow) u v) (entry (cancelled flow) v u) = 0 := by
  rw [entry_cancelled h huv, entry_cancelled h hvu]
  rcases le_total (entry flow u v) (entry flow v u) with hle | hle
  · rw [max_eq_right (sub_nonpos.2 hle)]
    exact min_eq_left (le_max_right _ _)
  · rw [max_eq_right (sub_nonpos.2 hle)]
    exact min_eq_right (le_max_right _ _)

section Balance

variable (h : Square flow) (hc : Cleared flow) (hpos : ∀ e ∈ edges flow, 0 ≤ e.value)

include h hc hpos

/-- A place without an edge counts as an edge without flow. -/
theorem entry_cancelled_of_nonneg (hu : u < numNodes flow) (hv : v < numNodes flow) :
    entry (cancelled flow) u v = max (entry flow u v - entry flow v u) 0 := by
  by_cases huv : (u, v) ∈ pattern flow
  · exact entry_cancelled h huv
  · have hon := onPattern_cancelled h
    rw [entry_eq_zero hon.square hon.cleared (hon.nodes.symm ▸ hu) (hon.nodes.symm ▸ hv)
      (hon.pattern.symm ▸ huv), entry_eq_zero h hc hu hv huv,
      max_eq_right (sub_nonpos.2 (entry_nonneg h hc hpos hv hu))]

/-- Between two nodes the flow on balance stays. -/
theorem entry_cancelled_sub (hu : u < numNodes flow) (hv : v < numNodes flow) :
    entry (cancelled flow) u v - entry (cancelled flow) v u = entry flow u v - entry flow v u := by
  rw [entry_cancelled_of_nonneg h hc hpos hu hv, entry_cancelled_of_nonneg h hc hpos hv hu]
  rcases le_total (entry flow u v) (entry flow v u) with hle | hle
  · rw [max_eq_right (sub_nonpos.2 hle), max_eq_left (sub_nonneg.2 hle)]
    ring
  · rw [max_eq_left (sub_nonneg.2 hle), max_eq_right (sub_nonpos.2 hle)]
    ring

/-- The balance of every node stays. -/
theorem balance_cancelled (hu : u < numNodes flow) :
    outflow (cancelled flow) u - inflow (cancelled flow) u = outflow flow u - inflow flow u := by
  have hon := onPattern_cancelled h
  have hu' : u < numNodes (cancelled flow) := hon.nodes.symm ▸ hu
  rw [outflow_eq_sum hon.square hon.cleared hu', inflow_eq_sum hon.square hon.cleared hu',
    outflow_eq_sum h hc hu, inflow_eq_sum h hc hu, hon.nodes, ← Finset.sum_sub_distrib,
    ← Finset.sum_sub_distrib]
  exact Finset.sum_congr rfl fun v hv => entry_cancelled_sub h hc hpos hu (Finset.mem_range.1 hv)

theorem conserves_cancelled {demands : List K} (hcons : Conserves flow demands) :
    Conserves (cancelled flow) demands := by
  rw [← hcons, Conserves, (onPattern_cancelled h).nodes]
  exact List.map_congr_left fun u hu => balance_cancelled h hc hpos (List.mem_range.1 hu)

end Balance

end NeuralFlow.Flow
