import Mathlib
import NeuralFlow.FlowWeights
import NeuralFlow.Proofs.Relabelling.Matrix
import NeuralFlow.Proofs.Simplex

/-! Proportions do not depend on the order of a row. The largest value, the sums and the sorted values
of a row are those of any other order of it, and every value finds its share from them. -/

namespace NeuralFlow

namespace Simplex

variable {K : Type} [ExactScalar K]

def top : List K → K
  | [] => 0
  | x :: xs => Scalar.maximum x xs

theorem le_top {zs : List K} {z : K} (hz : z ∈ zs) : z ≤ top zs := by
  have hfold : ∀ (xs : List K) (x y : K), y ≤ x ∨ y ∈ xs → y ≤ xs.foldl Scalar.larger x := by
    intro xs
    induction xs with
    | nil => simp
    | cons w xs ih =>
      intro x y hy
      rw [List.foldl_cons, Exact.larger_eq_max]
      refine ih _ y ?_
      rcases hy with hy | hy
      · exact Or.inl (hy.trans (le_max_left x w))
      · rcases List.mem_cons.1 hy with rfl | hy
        · exact Or.inl (le_max_right x y)
        · exact Or.inr hy
  cases zs with
  | nil => simp at hz
  | cons x xs => exact hfold xs x z ((List.mem_cons.1 hz).imp_left Eq.le)

theorem top_eq_of_perm {zs ws : List K} (h : zs.Perm ws) : top zs = top ws := by
  cases zs with
  | nil => rw [h.nil_eq]
  | cons z zs =>
    cases ws with
    | nil => exact absurd h.eq_nil (List.cons_ne_nil z zs)
    | cons w ws =>
      have hz : top (z :: zs) ∈ w :: ws := h.mem_iff.1 (maximum_mem z zs)
      have hw : top (w :: ws) ∈ z :: zs := h.mem_iff.2 (maximum_mem w ws)
      exact le_antisymm (le_top hz) (le_top hw)

theorem softmax_eq_map (zs : List K) : softmax zs = zs.map fun z => Scalar.exp (z - top zs) /
    Scalar.larger (Scalar.runningSum (zs.map fun w => Scalar.exp (w - top zs))) denominatorGuard := by
  cases zs with
  | nil => rfl
  | cons z zs => exact List.map_map

theorem orderFree_softmax : OrderFree (softmax : List K → List K) := by
  refine ⟨_, softmax_eq_map, fun zs ws h => ?_⟩
  have hsum := (h.map fun z => Scalar.exp (z - top ws)).sum_eq
  simp only [top_eq_of_perm h, Exact.runningSum_eq_sum, hsum]

theorem sortFalling_eq_of_perm {zs ws : List K} (h : zs.Perm ws) : sortFalling zs = sortFalling ws := by
  refine List.Perm.eq_of_pairwise (fun x y _ _ hxy hyx => le_antisymm hyx hxy)
    (pairwise_sortFalling zs) (pairwise_sortFalling ws) ?_
  exact (sortFalling_perm zs).trans (h.trans (sortFalling_perm ws).symm)

theorem orderFree_project : OrderFree (project : List K → List K) :=
  ⟨_, fun _ => rfl, fun zs ws h => by rw [threshold, threshold, sortFalling_eq_of_perm h]⟩

def prunedShare (epsilon : K) (ps : List K) (p : K) : K :=
  let kept := Scalar.runningSum (ps.filter fun p => decide (epsilon ≤ p))
  if 0 < kept then if epsilon ≤ p then p / kept else 0
  else p / Scalar.larger (Scalar.runningSum ps) denominatorGuard

theorem orderFree_prune (epsilon : K) : OrderFree (prune epsilon) := by
  refine ⟨prunedShare epsilon, fun ps => ?_, fun ps qs h => ?_⟩
  · unfold prune prunedShare
    dsimp only
    split <;> rfl
  · have hkept := (h.filter fun p => decide (epsilon ≤ p)).sum_eq
    funext p
    simp only [prunedShare, Exact.runningSum_eq_sum, hkept, h.sum_eq]

theorem orderFree_sparsemax (epsilon : K) : OrderFree (sparsemax epsilon) :=
  OrderFree.comp (f := project) (g := prune epsilon) orderFree_project (orderFree_prune epsilon)

end Simplex

theorem Normalization.orderFree {K : Type} [ExactScalar K] (rule : Normalization K) :
    OrderFree rule.normalizeRow := by
  cases rule with
  | softmax => exact Simplex.orderFree_softmax
  | sparsemax epsilon => exact Simplex.orderFree_sparsemax epsilon

end NeuralFlow
