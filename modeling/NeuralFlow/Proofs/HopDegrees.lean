import Mathlib
import NeuralFlow.Proofs.SameView
import NeuralFlow.Proofs.Walks
import NeuralFlow.Scalar.Single

/-! What a set says of its hops. The number of nodes is read off hop zero, and the largest degrees come
of a pass over the rows of each hop; both are right for all hops, whether the set was given or built. -/

namespace NeuralFlow

open EdgeMatrix LawfulBacking

class DegreeBacking (M : Type → Type) [EdgeMatrix M] extends LawfulBacking M where
  rowDegree?_eq {α : Type} {a : M α} {u : ℕ} : Square a → u < numNodes a →
    rowDegree? a u = some (row a u).length

instance : DegreeBacking DenseMatrix where
  rowDegree?_eq _ hu := DenseMatrix.rowDegree?_eq hu

instance : DegreeBacking SparseMatrix where
  rowDegree?_eq h hu := SparseMatrix.rowDegree?_eq h hu

namespace HopSet

section Degrees

variable {M : Type → Type} [EdgeMatrix M] {α : Type}

structure IsMaxDegree (hop : M α) (d : ℕ) : Prop where
  bound : ∀ u < EdgeMatrix.numNodes hop, ∃ k ≤ d, rowDegree? hop u = some k ∧ k = (row hop u).length
  attained : EdgeMatrix.numNodes hop ≠ 0 → ∃ u < EdgeMatrix.numNodes hop, rowDegree? hop u = some d
  empty : EdgeMatrix.numNodes hop = 0 → d = 0

structure Described (set : HopSet M α) : Prop where
  nodes : ∀ hop ∈ set.hops, EdgeMatrix.numNodes hop = set.numNodes
  degrees : List.Forall₂ IsMaxDegree set.hops set.maxDegrees

variable [DegreeBacking M]

/-- The fold over the rows finds the largest of all degrees. -/
theorem maxDegree_eq {hop : M α} (h : Square hop) :
    maxDegree hop =
      (((List.range (EdgeMatrix.numNodes hop)).map fun u => (row hop u).length).max?).getD 0 := by
  have hrows : (List.range (EdgeMatrix.numNodes hop)).map (fun u => (rowDegree? hop u).getD 0) =
      (List.range (EdgeMatrix.numNodes hop)).map fun u => (row hop u).length := by
    refine List.map_congr_left fun u hu => ?_
    rw [DegreeBacking.rowDegree?_eq h (List.mem_range.1 hu), Option.getD_some]
  rw [maxDegree, ← hrows, ← Nat.zero_max (Option.getD _ 0), ← List.foldl_max, List.foldl_map]

theorem isMaxDegree_maxDegree {hop : M α} (h : Square hop) : IsMaxDegree hop (maxDegree hop) := by
  rw [maxDegree_eq h]
  cases hmax : ((List.range (EdgeMatrix.numNodes hop)).map fun u => (row hop u).length).max? with
  | none =>
    -- only the empty list has no largest member
    have hzero : EdgeMatrix.numNodes hop = 0 := by simpa [List.max?_eq_none_iff] using hmax
    exact ⟨by simp [hzero], fun hne => absurd hzero hne, fun _ => rfl⟩
  | some d =>
    obtain ⟨hmem, hle⟩ := List.max?_eq_some_iff.1 hmax
    obtain ⟨u, hu, hd⟩ := List.mem_map.1 hmem
    have hlt := List.mem_range.1 hu
    constructor
    · intro w hw
      have hbound := hle _ (List.mem_map_of_mem (List.mem_range.2 hw))
      exact ⟨_, hbound, DegreeBacking.rowDegree?_eq h hw, rfl⟩
    · intro _
      refine ⟨u, hlt, ?_⟩
      rw [DegreeBacking.rowDegree?_eq h hlt, hd, Option.getD_some]
    · intro hzero
      omega

/-- Rooted hops are described truly. -/
theorem Rooted.described {set : HopSet M α} {n : ℕ} (h : Rooted set.hops n)
    (hsquare : ∀ hop ∈ set.hops, Square hop) : set.Described where
  nodes hop hmem := (h.nodes hop hmem).trans h.numNodes_eq.symm
  degrees := by
    rw [maxDegrees, List.forall₂_map_right_iff, List.forall₂_same]
    exact fun hop hmem => isMaxDegree_maxDegree (hsquare hop hmem)

end Degrees

variable {M : Type → Type} [EdgeMatrix M] [DegreeBacking M] {α : Type} [Scalar α]

/-- Square hops make a set if and only if there is a hop zero, its edges are the loops at its nodes, and
all hops have these nodes. Hops that a rule builds are of this kind, so that they make the very set that
they are in. Whether it was given or built, a set has the nodes of each of its hops, and its degrees are
the largest ones of the hops. -/
theorem rooted_from_any_source {hops : List (M α)} (hsquare : ∀ hop ∈ hops, Square hop)
    (rule : HopRule) (adjacency : M α) :
    ((∃ set, ofHops hops = .ok set) ↔ ∃ n, Rooted hops n) ∧
    Ensures (ofHops hops) (fun set => set.hops = hops ∧ set.Described) ∧
    Ensures (rule.build adjacency) (fun set => Rooted set.hops (EdgeMatrix.numNodes adjacency) ∧
      ofHops set.hops = .ok set ∧ set.Described) ∧
    (Square adjacency → Scalar.isFinite (1 : α) = true → ∃ set, rule.build adjacency = .ok set) := by
  refine ⟨?_, ?_, ?_, ?_⟩
  · simp [ofHops_ok_iff hsquare]
  · intro set hset
    obtain ⟨rfl, n, hrooted⟩ := (ofHops_ok_iff hsquare).1 hset
    exact ⟨rfl, Rooted.described hrooted hsquare⟩
  · intro set hset
    obtain ⟨hbuilt, hrooted⟩ := rule.rooted_build adjacency set hset
    exact ⟨hrooted, (ofHops_ok_iff hbuilt).2 ⟨rfl, _, hrooted⟩, hrooted.described hbuilt⟩
  · intro hadjacency hone
    obtain ⟨set, hset, -⟩ := rule.build_isHop hone hadjacency
    exact ⟨set, hset⟩

/-- The loops at two nodes that point at each other make a set with their edges. The edges alone make
none, although they are as many as the nodes. -/
theorem rooted_from_any_source_exchange :
    (∀ hop ∈ [SparseMatrix.identity 2, SparseMatrix.exchange (1 : Float32) 1], Square hop) ∧
    (∃ set, ofHops [SparseMatrix.identity 2, SparseMatrix.exchange (1 : Float32) 1] = .ok set ∧
      set.Described ∧ set.numNodes = 2 ∧ set.maxDegrees = [1, 1]) ∧
    (¬ ∃ set, ofHops [SparseMatrix.exchange (1 : Float32) 1] = .ok set) ∧
    ∃ set, HopRule.build ⟨2, true⟩ (SparseMatrix.exchange (1 : Float32) 1) = .ok set ∧
      ofHops set.hops = .ok set ∧ set.Described := by
  have hone : Scalar.isFinite (1 : Float32) = true := by decide +kernel
  have hexchange := SparseMatrix.square_exchange (1 : Float32) 1
  have hsquare : ∀ hop ∈ [SparseMatrix.identity 2, SparseMatrix.exchange (1 : Float32) 1],
      Square hop := by
    simp [SparseMatrix.square_identity, hexchange]
  have halone : ∀ hop ∈ [SparseMatrix.exchange (1 : Float32) 1], Square hop := by simp [hexchange]
  have hrooted : Rooted [SparseMatrix.identity 2, SparseMatrix.exchange (1 : Float32) 1] 2 := by
    refine ⟨⟨SparseMatrix.identity 2, rfl, fun u v => ?_⟩,
      List.forall_mem_cons.2 ⟨rfl, List.forall_mem_singleton.2 rfl⟩⟩
    rw [SparseMatrix.pattern_identity]
    exact mem_diagonal
  obtain ⟨hmade, hgiven, hbuilt, hbuilds⟩ :=
    rooted_from_any_source hsquare ⟨2, true⟩ (SparseMatrix.exchange (1 : Float32) 1)
  obtain ⟨set, hset⟩ := hmade.2 ⟨2, hrooted⟩
  obtain ⟨hhops, hdescribed⟩ := hgiven set hset
  obtain ⟨built, hbuild⟩ := hbuilds hexchange hone
  obtain ⟨-, hagain, hdescribed'⟩ := hbuilt built hbuild
  refine ⟨hsquare, ⟨set, hset, hdescribed, ?_, ?_⟩, fun hsome => ?_, built, hbuild, hagain, hdescribed'⟩
  · rw [numNodes, hhops]
    rfl
  · rw [maxDegrees, hhops]
    rfl
  · -- as many edges as nodes, but no loop
    obtain ⟨n, ⟨first, hfirst, hloops⟩, -⟩ :=
      (rooted_from_any_source halone ⟨0, false⟩ (SparseMatrix.exchange (1 : Float32) 1)).1.1 hsome
    cases hfirst
    have hedge : (0, 1) ∈ pattern (SparseMatrix.exchange (1 : Float32) 1) := by simp [pattern]
    exact absurd ((hloops 0 1).1 hedge).1 (by decide)

end HopSet

end NeuralFlow
