import Mathlib
import NeuralFlow.Proofs.Cancellation
import NeuralFlow.Proofs.Backing.Sparse
import NeuralFlow.Proofs.Single.Common

/-! Cancellation of opposite flow in single precision. Of similar flows the smaller one is cancelled up to
rounding. A flow that is lost in the sum with the opposite one stays as it is, and two flows with an
infinite sum are both lost. -/

namespace NeuralFlow.Flow

open EdgeMatrix LawfulBacking Single

/-- What is left of two opposite values. The smaller one is left with a small part of the sum: with next to
nothing if the sum is not large for it, and with all it had if the other one is much larger. -/
structure NearlyCancelled (x y x' y' : Float32) : Prop where
  nonneg : NonNeg x' ∧ NonNeg y'
  le : val x' ≤ val x ∧ val y' ≤ val y
  small : min (val x') (val y') ≤ (val x + val y) / 2 ^ 22 + 1 / 2 ^ 149
  similar : val x + val y ≤ 80 * max 1 (min (val x) (val y)) →
    min (val x') (val y') ≤ 1 / 10 ^ 5 * max 1 (min (val x) (val y))
  kept : 2 ^ 26 * min (val x) (val y) ≤ max (val x) (val y) → val x' = val x ∧ val y' = val y
  lost : (x + y).isInf = true → val x' = 0

variable {x y : Float32}

/-- The smaller of two opposite values is left with little. -/
theorem min_left_le (hx : x.isFinite = true) (hx0 : 0 ≤ val x) (hy : y.isFinite = true)
    (hy0 : 0 ≤ val y) :
    min (val (Scalar.relu (x - common x y))) (val (Scalar.relu (y - common y x))) ≤
      1002 / 1000 * ((val x + val y) / 2 ^ 23) + 1 / 2 ^ 149 := by
  rcases le_total (val x) (val y) with h | h
  · exact min_le_of_left_le (val_left_small hx hx0 hy hy0 h)
  · exact min_le_of_right_le (add_comm (val x) (val y) ▸ val_left_small hy hy0 hx hx0 h)

theorem nearlyCancelled (hx : x.isFinite = true) (hx0 : 0 ≤ val x) (hy : y.isFinite = true)
    (hy0 : 0 ≤ val y) :
    NearlyCancelled x y (Scalar.relu (x - common x y)) (Scalar.relu (y - common y x)) where
  nonneg := ⟨nonNeg_relu _, nonNeg_relu _⟩
  le := ⟨val_left_le hx hx0 hy hy0, val_left_le hy hy0 hx hx0⟩
  small := by linarith [min_left_le hx hx0 hy hy0]
  similar hsum := by
    have hone : 1 ≤ max 1 (min (val x) (val y)) := le_max_left _ _
    linarith [min_left_le hx hx0 hy hy0]
  kept hsmall := ⟨val_left_eq hx hx0 hy hy0 hsmall,
    val_left_eq hy hy0 hx hx0 (by rwa [min_comm, max_comm])⟩
  lost := val_left_of_infinite hx hx0 hy hy0

variable {M : Type → Type} [EdgeMatrix M] [LawfulBacking M]

/-- With finite flows that are not negative cancellation always succeeds, keeps the edges, and leaves of
each mutual pair what is said above. -/
theorem cancelReciprocal_nearlyCancels {flow : M Float32} (h : Square flow)
    (hflow : ∀ e ∈ edges flow, e.value.isFinite = true ∧ 0 ≤ e.value) :
    ∃ next, cancelReciprocal flow = .ok next ∧ OnPattern flow next ∧
      ∀ u v, (u, v) ∈ pattern flow → (v, u) ∈ pattern flow →
        NearlyCancelled (entry flow u v) (entry flow v u) (entry next u v) (entry next v u) := by
  have hentry := (forall_edges_iff h (P := fun _ _ x => x.isFinite = true ∧ 0 ≤ x)).1 hflow
  simp only [le_iff, val_zero] at hentry
  refine ⟨_, cancelReciprocal_eq h, onPattern_withValues h _, fun u v huv hvu => ?_⟩
  rw [entry_withValues h _ huv, entry_withValues h _ hvu]
  obtain ⟨hx, -, hx0⟩ := hentry u v huv
  obtain ⟨hy, -, hy0⟩ := hentry v u hvu
  exact nearlyCancelled hx hx0 hy hy0

/-- Opposite to a large flow a unit of flow is not cancelled at all. -/
theorem cancelReciprocal_nearlyCancels_kept :
    ∃ next, cancelReciprocal (SparseMatrix.exchange (1e10 : Float32) 1) = .ok next ∧
      val (entry next 0 1) = 10 ^ 10 ∧ val (entry next 1 0) = 1 := by
  obtain ⟨-, hval⟩ : (1e10 : Float32).isFinite = true ∧ val 1e10 = 10 ^ 10 :=
    constant_spec 9765625 10 (by norm_num) rfl (by norm_num)
  have hsquare := SparseMatrix.square_exchange (1e10 : Float32) 1
  have hflow : ∀ e ∈ edges (SparseMatrix.exchange (1e10 : Float32) 1),
      e.value.isFinite = true ∧ 0 ≤ e.value := by decide +kernel
  obtain ⟨next, hnext, -, hpairs⟩ := cancelReciprocal_nearlyCancels hsquare hflow
  have hentry : entry (SparseMatrix.exchange (1e10 : Float32) 1) 0 1 = 1e10 :=
    entry_of_mem hsquare (e := ⟨0, 1, 1e10⟩) (by simp)
  have hentry' : entry (SparseMatrix.exchange (1e10 : Float32) 1) 1 0 = 1 :=
    entry_of_mem hsquare (e := ⟨1, 0, 1⟩) (by simp)
  have hpair := hpairs 0 1 (by decide) (by decide)
  rw [hentry, hentry'] at hpair
  obtain ⟨hlarge, hone⟩ := hpair.kept (by rw [hval, val_one]; norm_num)
  exact ⟨next, hnext, hlarge.trans hval, hone.trans val_one⟩

end NeuralFlow.Flow
