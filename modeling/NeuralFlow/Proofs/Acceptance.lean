import Mathlib
import NeuralFlow.Proofs.Exact
import NeuralFlow.Proofs.FlowModel

/-! What the checks of an instance accept. In exact arithmetic every value is finite, so the checks
ask for the backing, for sizes, and for positive capacities on the edges of the graph. -/

namespace NeuralFlow

open EdgeMatrix

namespace FlowInstance

variable {M : Type → Type} [EdgeMatrix M] {K : Type} [ExactScalar K] {i : FlowInstance M K}
  {c : Settings K}

structure Accepted (c : Settings K) (i : FlowInstance M K) : Prop extends i.Checked c where
  backing : EdgeMatrix.backing M = c.backing
  size : ∃ hopCount, c.hopCount = .ok hopCount ∧ i.hops.size = hopCount.toNat
  positive : c.useCapacities = true → ∀ capacities, i.capacities = some capacities →
    ∀ e ∈ edges capacities, 0 < e.value

theorem checkDemands_eq_ok {demands : List K} {nodes : ℕ} (h : demands.length = nodes) :
    checkDemands demands nodes = .ok () := by
  rw [checkDemands, if_neg (not_not.2 h)]
  split
  · rename_i hfind
    have hbad := List.find?_some hfind
    simp at hbad
  · rfl

theorem checkNodeInput_eq_ok (what : String) {table : Grid K} {nodes width : ℕ}
    (h : table.Shaped nodes width) : checkNodeInput what table nodes width = .ok () := by
  have hfind : firstNotFinite table = none := by
    simp [firstNotFinite]
  rw [checkNodeInput, if_neg (not_not.2 h.rows_eq), if_neg (not_not.2 h.cols_eq), hfind]

theorem checkCapacities_ok_iff {α : Type} [Scalar α] {capacities adjacency : M α} :
    checkCapacities capacities adjacency = .ok () ↔ samePattern capacities adjacency = true ∧
      ∀ e ∈ edges capacities, Scalar.isFinite e.value = true ∧ 0 < e.value := by
  have hfind : ((edges capacities).find? fun e =>
      !(Scalar.isFinite e.value && decide (0 < e.value))) = none ↔
        ∀ e ∈ edges capacities, Scalar.isFinite e.value = true ∧ 0 < e.value := by
    simp
  unfold checkCapacities
  rw [← hfind]
  cases samePattern capacities adjacency with
  | false => simp
  | true =>
    cases hfound : (edges capacities).find? fun e =>
      !(Scalar.isFinite e.value && decide (0 < e.value)) <;> simp

theorem checkCapacities_eq_ok_iff {capacities adjacency : M K} :
    checkCapacities capacities adjacency = .ok () ↔
      samePattern capacities adjacency = true ∧ ∀ e ∈ edges capacities, 0 < e.value := by
  simp [checkCapacities_ok_iff]

theorem ensures_accepted (c : Settings K) (i : FlowInstance M K) :
    Ensures (i.check c) fun _ => i.Accepted c := by
  intro _ hok
  have hc := i.ensures_checked c () hok
  have hsize := i.ensures_size c () hok
  suffices h : Ensures (i.check c) fun _ => EdgeMatrix.backing M = c.backing ∧
      (c.useCapacities = true → ∀ capacities, i.capacities = some capacities →
        ∀ e ∈ edges capacities, 0 < e.value) by
    obtain ⟨hbacking, hpositive⟩ := h () hok
    exact ⟨hc, hbacking, hsize, hpositive⟩
  have hbacking : Ensures (checkBacking M c) fun _ => EdgeMatrix.backing M = c.backing := by
    intro _ h
    unfold checkBacking at h
    split_ifs at h with hb
    exact hb
  refine hbacking.bind fun _ hb => (ensures_all _).bind fun _ _ => ?_
  obtain ⟨hopCount, hcount, heq⟩ := hsize
  rw [hcount, ok_bind, if_neg (not_not.2 heq), if_neg (not_not.2 hc.hops)]
  refine (ensures_all _).bind fun _ _ => (ensures_all _).bind fun _ _ => ?_
  by_cases huse : c.useCapacities = true
  · obtain ⟨capacities, hcap, -⟩ := hc.capacities huse
    rw [if_pos huse, hcap]
    intro _ h
    refine ⟨hb, fun _ _ hsome => ?_⟩
    cases hsome
    exact (checkCapacities_eq_ok_iff.1 h).2
  · rw [if_neg huse]
    exact ensures_pure ⟨hb, fun hon => absurd hon huse⟩

theorem check_eq_ok_iff : i.check c = .ok () ↔ i.Accepted c := by
  refine ⟨i.ensures_accepted c (), fun h => ?_⟩
  have hbacking : checkBacking M c = .ok () := if_pos h.backing
  obtain ⟨hopCount, hcount, hsize⟩ := h.size
  rw [check, hbacking, ok_bind]
  dsimp only
  rw [checkDemands_eq_ok h.demands, ok_bind, hcount, ok_bind, if_neg (not_not.2 hsize),
    if_neg (not_not.2 h.hops), checkNodeInput_eq_ok _ h.embeddings, checkNodeInput_eq_ok _ h.features]
  by_cases huse : c.useCapacities = true
  · obtain ⟨capacities, hcap, hsame⟩ := h.capacities huse
    rw [if_pos huse, hcap]
    exact checkCapacities_eq_ok_iff.2 ⟨hsame, h.positive huse capacities hcap⟩
  · rw [if_neg huse]
    rfl

end FlowInstance

end NeuralFlow
