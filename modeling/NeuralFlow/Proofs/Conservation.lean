import Mathlib
import NeuralFlow.Flow
import NeuralFlow.Proofs.Backing
import NeuralFlow.Proofs.Outcome

/-! Flows that meet their demands. Sums over edges are regrouped by the nodes where the edges start or
end: all that flows out flows in, and prices paid along edges are prices paid for imbalances. -/

namespace NeuralFlow

open EdgeMatrix LawfulBacking

variable {K : Type} [ExactScalar K]

theorem sum_map_range (n : ℕ) (f : ℕ → K) :
    ((List.range n).map f).sum = ∑ w ∈ Finset.range n, f w := rfl

theorem sum_getD (xs : List K) : ∑ w ∈ Finset.range xs.length, xs.getD w 0 = xs.sum := by
  rw [← sum_map_range]
  refine congrArg List.sum (List.ext_getElem (by simp) fun i hi hi' => ?_)
  simp [hi']

/-- An inner product is a sum over positions. -/
theorem dot_eq_sum_range {xs ys : List K} (h : xs.length = ys.length) :
    Scalar.dot xs ys = ∑ w ∈ Finset.range ys.length, xs.getD w 0 * ys.getD w 0 := by
  rw [Exact.dot_eq_sum, ← sum_map_range]
  congr 1
  refine List.ext_getElem (by simp [h]) fun i hi _ => ?_
  have hi' : i < ys.length := by simpa [h] using hi
  simp [hi', h]

/-- The edges grouped by a node of each. -/
theorem sum_grouped {es : List (Edge K)} (key : Edge K → ℕ) {n : ℕ} (h : ∀ e ∈ es, key e < n)
    (f : ℕ → K) : (es.map fun e => f (key e) * e.value).sum =
      ∑ w ∈ Finset.range n, f w * ((es.filter (key · == w)).map Edge.value).sum := by
  induction es with
  | nil => simp
  | cons e es ih =>
    have hstep : ∀ w, f w * (((e :: es).filter (key · == w)).map Edge.value).sum =
        (if key e = w then f w * e.value else 0) +
          f w * ((es.filter (key · == w)).map Edge.value).sum := by
      intro w
      by_cases hw : key e = w
      · simp [hw, mul_add]
      · simp [hw]
    have hkey : key e ∈ Finset.range n := Finset.mem_range.2 (h e (by simp))
    simp only [hstep]
    rw [Finset.sum_add_distrib, ← ih fun d hd => h d (List.mem_cons_of_mem _ hd),
      Finset.sum_ite_eq, if_pos hkey, List.map_cons, List.sum_cons]

variable {M : Type → Type} [EdgeMatrix M] [LawfulBacking M]

theorem sum_outflow {a : M K} (h : Square a) (f : ℕ → K) :
    ((edges a).map fun e => f e.src * e.value).sum =
      ∑ w ∈ Finset.range (numNodes a), f w * outflow a w :=
  sum_grouped Edge.src (fun e he => (ends_lt h e he).1) f

theorem sum_inflow {a : M K} (h : Square a) (f : ℕ → K) :
    ((edges a).map fun e => f e.dst * e.value).sum =
      ∑ w ∈ Finset.range (numNodes a), f w * inflow a w :=
  sum_grouped Edge.dst (fun e he => (ends_lt h e he).2) f

/-- All that flows out of nodes flows into nodes. -/
theorem sum_outflow_eq_sum_inflow {a : M K} (h : Square a) :
    ∑ w ∈ Finset.range (numNodes a), outflow a w = ∑ w ∈ Finset.range (numNodes a), inflow a w := by
  have hout := sum_outflow h fun _ => 1
  have hin := sum_inflow h fun _ => 1
  simp only [one_mul] at hout hin
  rw [← hout, hin]

/-- Prices at the ends of edges are prices of what the nodes send out. -/
theorem sum_differences {a : M K} (h : Square a) (p : ℕ → K) :
    ((edges a).map fun e => (p e.src - p e.dst) * e.value).sum =
      ∑ w ∈ Finset.range (numNodes a), p w * (outflow a w - inflow a w) := by
  simp only [sub_mul]
  rw [Exact.sum_map_sub, sum_outflow h, sum_inflow h, ← Finset.sum_sub_distrib]
  exact Finset.sum_congr rfl fun w _ => (mul_sub _ _ _).symm

namespace Flow

def Conserves (flow : M K) (demands : List K) : Prop :=
  (List.range (numNodes flow)).map (fun w => outflow flow w - inflow flow w) = demands

omit [LawfulBacking M] in
theorem Conserves.length_eq {flow : M K} {demands : List K} (h : Conserves flow demands) :
    demands.length = numNodes flow := by
  rw [← h, List.length_map, List.length_range]

omit [LawfulBacking M] in
/-- Conserving is having no imbalance at any node. -/
theorem conserves_iff {flow : M K} {demands : List K} (hd : demands.length = numNodes flow) :
    Conserves flow demands ↔
      ∀ w < numNodes flow, outflow flow w - inflow flow w = demands.getD w 0 := by
  constructor
  · intro h w hw
    rw [← h]
    simp [hw]
  · intro h
    refine List.ext_getElem (by simp [hd]) fun w hw hw' => ?_
    have hlt : w < numNodes flow := hd ▸ hw'
    rw [List.getElem_map, List.getElem_range, h w hlt, List.getD_eq_getElem _ _ hw']

theorem foldl_max_abs_eq_zero_iff {xs : List K} :
    (xs.map Scalar.abs).foldl Scalar.larger 0 = 0 ↔ ∀ x ∈ xs, x = 0 := by
  have hbound : ∀ (ys : List K) (z : K), 0 ≤ z →
      ((ys.map Scalar.abs).foldl Scalar.larger z = 0 ↔ z = 0 ∧ ∀ y ∈ ys, y = 0) := by
    intro ys
    induction ys with
    | nil => simp
    | cons y ys ih =>
      intro z hz
      have hmax : max z |y| = 0 ↔ z = 0 ∧ y = 0 := by
        rw [← abs_eq_zero (a := y)]
        constructor
        · intro h
          have hzle := le_max_left z |y|
          have hyle := le_max_right z |y|
          exact ⟨le_antisymm (h ▸ hzle) hz, le_antisymm (h ▸ hyle) (abs_nonneg y)⟩
        · rintro ⟨rfl, hy⟩
          rw [hy, max_self]
      rw [List.map_cons, List.foldl_cons, Exact.larger_eq_max, Exact.abs_eq,
        ih _ (le_max_of_le_left hz), hmax, List.forall_mem_cons, and_assoc]
  simpa using hbound xs 0 le_rfl

variable {M : Type → Type} [EdgeMatrix M] [ExactBacking M]

theorem imbalance_ok {flow : M K} (h : Square flow) (hc : Cleared flow) {demands : List K}
    (hd : demands.length = numNodes flow) : imbalance flow demands = .ok
      ((List.range (numNodes flow)).map fun w =>
        outflow flow w - inflow flow w - demands.getD w 0) := by
  rw [imbalance, ExactBacking.rowSums_eq h hc, ExactBacking.colSums_eq h hc]
  simp only [List.zipWith_map, List.zipWith_self]
  rw [combine_of_length_eq _ (by simp [hd]), orFault_some]
  refine congrArg Except.ok (List.ext_getElem (by simp [hd]) fun w hw hw' => ?_)
  have hlt : w < demands.length := by simpa [hd] using hw'
  simp [hlt]

/-- The residual is zero for the flows that conserve and for no others. -/
theorem residual_yields {flow : M K} (h : Square flow) (hc : Cleared flow) {demands : List K}
    (hd : demands.length = numNodes flow) :
    ∃ r, residual flow demands = .ok r ∧ (r = 0 ↔ Conserves flow demands) := by
  rw [residual, imbalance_ok h hc hd, ok_bind]
  refine ⟨_, rfl, ?_⟩
  rw [foldl_max_abs_eq_zero_iff, conserves_iff hd, List.forall_mem_map]
  simp only [List.mem_range, sub_eq_zero]

end Flow

end NeuralFlow
