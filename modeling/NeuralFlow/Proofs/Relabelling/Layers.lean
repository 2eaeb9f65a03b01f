import Mathlib
import NeuralFlow.Proofs.Aligned.Layers
import NeuralFlow.Proofs.Relabelling.Rows

/-! Layers on relabelled nodes. Attention looks from a node at its neighbors only, so relabelled hops
carry lines that are moved to lines that are moved, and all rounds of message passing do. -/

namespace NeuralFlow

open EdgeMatrix

variable {n : ℕ} {π : Relabelling n} {M : Type → Type} [EdgeMatrix M] [ExactBacking M] {K : Type}
  [ExactScalar K]

namespace HopAttention

structure Projections.Moves (π : Relabelling n) (p q : Projections K) : Prop where
  query : π.MovesLines p.query q.query
  key : π.MovesLines p.key q.key
  value : π.MovesLines p.value q.value

variable {p q : Projections K} {hop hop' : M K}

omit [ExactScalar K] in
theorem Projections.moves_eq (π : Relabelling n) :
    (Projections.Moves π : Projections K → Projections K → Prop) =
      Projections.Aligned n fun u v => π u = v := by
  funext p q
  have heq := π.movesLines_eq (α := K)
  exact propext ⟨fun h => ⟨heq ▸ h.query, heq ▸ h.key, heq ▸ h.value⟩,
    fun h => ⟨heq ▸ h.query, heq ▸ h.key, heq ▸ h.value⟩⟩

omit [ExactScalar K] in
theorem moves_head (h : Projections.Moves π p q) (lo hi : ℕ) :
    Agree (Projections.Moves π) (p.head lo hi) (q.head lo hi) := by
  rw [Projections.moves_eq] at h ⊢
  exact aligned_head h lo hi

theorem moves_headMessage (a : HopAttention K) (h : Relabelled π hop hop')
    (hp : Projections.Moves π p q) (head : ℕ) :
    Agree π.MovesLines (a.headMessage hop p head) (a.headMessage hop' q head) := by
  refine (moves_head hp _ _).bind fun own own' hown => ?_
  refine (h.lookUpEnds hown.query.lines hown.key.lines fun query key =>
    Scalar.dot query key / Scalar.sqrt (a.headWidth : K)).bind fun raw raw' hraw => ?_
  have hweights := hraw.mapRows Simplex.orderFree_softmax
  refine (hweights.times hown.value).bind fun mean mean' hmean => ?_
  rw [hp.query.rows_left, hp.query.rows_right]
  rw [Relabelling.movesLines_eq] at hmean ⊢
  exact Agree.orFault_rel hmean.stretchLines?

/-- Relabelled hops carry messages along the new names. -/
theorem carriesHeads_relabelled (h : Relabelled π hop hop') :
    CarriesHeads n (fun u v => π u = v) (fun u v => π u = v) hop hop' := by
  intro a p q head hpq
  rw [← Projections.moves_eq] at hpq
  rw [← Relabelling.movesLines_eq]
  exact moves_headMessage a h hpq head

end HopAttention

namespace FlowModel

structure NodeState.Moves (π : Relabelling n) (s t : NodeState K) : Prop where
  encoding : π.MovesLines s.encoding t.encoding
  shares : π.MovesLines s.shares t.shares

omit [ExactScalar K] in
theorem NodeState.moves_eq (π : Relabelling n) :
    (NodeState.Moves π : NodeState K → NodeState K → Prop) =
      NodeState.Aligned n fun u v => π u = v := by
  funext s t
  have heq := π.movesLines_eq (α := K)
  exact propext ⟨fun h => ⟨heq ▸ h.encoding, heq ▸ h.shares⟩,
    fun h => ⟨heq ▸ h.encoding, heq ▸ h.shares⟩⟩

theorem moves_decode (decoder : Perceptron K) {x y : Grid K} (h : π.MovesLines x y) :
    Agree π.Moves (decode decoder x) (decode decoder y) := by
  rw [Relabelling.movesLines_eq] at h
  rw [Relabelling.moves_eq]
  exact aligned_decode decoder h

end FlowModel

end NeuralFlow
