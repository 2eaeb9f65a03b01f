import Mathlib
import NeuralFlow.Hops
import NeuralFlow.Proofs.Backing

/-! Sets of hops. Hop zero is tested by a count and a look at the diagonal alone; as no pattern lists a
pair twice, this finds out whether its edges are the loops at the nodes and no others. However a set is
made, its hops start with the loops, and all of them have the same nodes. -/

namespace NeuralFlow

open EdgeMatrix LawfulBacking

namespace HopSet

variable {M : Type → Type} [EdgeMatrix M] {α : Type}

/-- Hops that start with the loops at `n` nodes, and with no other edge, and all have these nodes. -/
structure Rooted (hops : List (M α)) (n : ℕ) : Prop where
  head : ∃ first, hops.head? = some first ∧ ∀ u v, (u, v) ∈ pattern first ↔ u = v ∧ u < n
  nodes : ∀ hop ∈ hops, EdgeMatrix.numNodes hop = n

theorem Rooted.numNodes_eq {set : HopSet M α} {n : ℕ} (h : Rooted set.hops n) : set.numNodes = n := by
  obtain ⟨first, hfirst, -⟩ := h.head
  rw [numNodes, hfirst]
  exact h.nodes first (List.mem_of_head? hfirst)

/-- When a list of hops makes a set, which then holds them as they are. -/
theorem ofHops_eq_ok_iff {hops : List (M α)} {set : HopSet M α} :
    ofHops hops = .ok set ↔ set = ⟨hops⟩ ∧ ∃ first, hops.head? = some first ∧
      isIdentity first = true ∧
      ∀ hop ∈ hops, EdgeMatrix.numNodes hop = EdgeMatrix.numNodes first := by
  cases hops with
  | nil => simp [ofHops]
  | cons first rest =>
    have hfind : ((first :: rest).find? fun hop =>
          EdgeMatrix.numNodes hop != EdgeMatrix.numNodes first) = none ↔
        ∀ hop ∈ first :: rest, EdgeMatrix.numNodes hop = EdgeMatrix.numNodes first := by
      simp only [List.find?_eq_none, bne_iff_ne, ne_eq, not_not]
    simp only [ofHops, List.head?_cons, Option.some.injEq, exists_eq_left']
    by_cases hid : isIdentity first = true
    · simp only [hid, Bool.not_true, Bool.false_eq_true, if_false, true_and]
      by_cases hall : ∀ hop ∈ first :: rest, EdgeMatrix.numNodes hop = EdgeMatrix.numNodes first
      · rw [hfind.2 hall, Except.ok.injEq, eq_comm, and_iff_left hall]
      · obtain ⟨hop, hhop⟩ := Option.ne_none_iff_exists'.1 (mt hfind.1 hall)
        rw [hhop]
        exact iff_of_false nofun fun h => hall h.2
    · simp [hid]

variable [LawfulBacking M]

/-- A diagonal that lies inside the pattern and is as long is all of it. -/
theorem isIdentity_iff {a : M α} (h : Square a) :
    isIdentity a = true ↔ ∀ u v, (u, v) ∈ pattern a ↔ u = v ∧ u < EdgeMatrix.numNodes a := by
  have hnodup : (pattern a).Nodup := (rowOrdered h).ends_nodup
  have hloops : (∀ i ∈ List.range (EdgeMatrix.numNodes a), hasEdge a i i = true) ↔
      diagonal (EdgeMatrix.numNodes a) ⊆ pattern a := by
    rw [diagonal, List.subset_def, List.forall_mem_map]
    exact forall₂_congr fun i hi => hasEdge_iff h (List.mem_range.1 hi) (List.mem_range.1 hi)
  have hcount : numEdges a = EdgeMatrix.numNodes a ↔
      (diagonal (EdgeMatrix.numNodes a)).length = (pattern a).length := by
    rw [numEdges_eq h, length_diagonal, length_pattern, eq_comm]
  have hperm : isIdentity a = true ↔ (diagonal (EdgeMatrix.numNodes a)).Perm (pattern a) := by
    rw [isIdentity, Bool.and_eq_true, beq_iff_eq, List.all_eq_true, hloops, hcount,
      perm_iff_length_subset (nodup_diagonal _)]
  rw [hperm, List.perm_ext_iff_of_nodup (nodup_diagonal _) hnodup, Prod.forall]
  refine forall₂_congr fun u v => ?_
  rw [mem_diagonal]
  exact iff_comm

/-- Square hops make a set if and only if they are rooted. -/
theorem ofHops_ok_iff {hops : List (M α)} (h : ∀ hop ∈ hops, Square hop) {set : HopSet M α} :
    ofHops hops = .ok set ↔ set = ⟨hops⟩ ∧ ∃ n, Rooted hops n := by
  rw [ofHops_eq_ok_iff]
  refine and_congr_right fun _ => ?_
  constructor
  · rintro ⟨first, hfirst, hid, hnodes⟩
    have hloops := (isIdentity_iff (h first (List.mem_of_head? hfirst))).1 hid
    exact ⟨_, ⟨first, hfirst, hloops⟩, hnodes⟩
  · rintro ⟨n, ⟨first, hfirst, hloops⟩, hnodes⟩
    have hmem := List.mem_of_head? hfirst
    obtain rfl := hnodes first hmem
    exact ⟨first, hfirst, (isIdentity_iff (h first hmem)).2 hloops, hnodes⟩

structure OnNodes (set : HopSet M α) (n : ℕ) : Prop where
  square : ∀ hop ∈ set.hops, Square hop ∧ EdgeMatrix.numNodes hop = n
  nonempty : set.hops ≠ []

theorem Rooted.onNodes {set : HopSet M α} {n : ℕ} (h : Rooted set.hops n)
    (hsquare : ∀ hop ∈ set.hops, Square hop) : set.OnNodes n where
  square hop hmem := ⟨hsquare hop hmem, h.nodes hop hmem⟩
  nonempty hnil := by
    obtain ⟨first, hfirst, -⟩ := h.head
    rw [hnil] at hfirst
    cases hfirst

theorem onNodes_ofHops {hops : List (M α)} (h : ∀ hop ∈ hops, Square hop) {set : HopSet M α}
    (hset : ofHops hops = .ok set) : set.OnNodes set.numNodes := by
  obtain ⟨rfl, n, hrooted⟩ := (ofHops_ok_iff h).1 hset
  rw [hrooted.numNodes_eq]
  exact hrooted.onNodes h

end HopSet

variable {M : Type → Type} [EdgeMatrix M] [LawfulBacking M] {α : Type} [Scalar α]

/-- What a rule builds is rooted on the nodes of the graph, with any rule and on any graph. -/
theorem HopRule.rooted_build (rule : HopRule) (adjacency : M α) :
    Ensures (rule.build adjacency) fun set =>
      (∀ hop ∈ set.hops, Square hop) ∧ HopSet.Rooted set.hops (numNodes adjacency) := by
  refine (ofEdges_ensures _ _).bind fun first hfirst => ?_
  obtain ⟨-, hsquare, -, hnodes, hedges⟩ := hfirst
  refine (Ensures.mapM fun es _ => ofEdges_ensures (M := M) (numNodes adjacency) es).bind
    fun rest hrest => ensures_pure ?_
  have hbuilt : ∀ hop ∈ first :: rest, Square hop ∧ numNodes hop = numNodes adjacency := by
    intro hop hmem
    rcases List.mem_cons.1 hmem with rfl | hmem
    · exact ⟨hsquare, hnodes⟩
    · obtain ⟨es, -, hsquare, -, hnodes, -⟩ := hrest hop hmem
      exact ⟨hsquare, hnodes⟩
  have hloops : ∀ u v, (u, v) ∈ pattern first ↔ u = v ∧ u < numNodes adjacency := by
    intro u v
    rw [pattern_eq_map_ends, hedges, SparseMatrix.mem_ends_inRowOrder, List.map_map]
    exact mem_diagonal
  exact ⟨fun hop hmem => (hbuilt hop hmem).1, ⟨first, rfl, hloops⟩,
    fun hop hmem => (hbuilt hop hmem).2⟩

theorem HopRule.onNodes_build (rule : HopRule) {adjacency : M α} :
    Ensures (rule.build adjacency) fun set => set.OnNodes (numNodes adjacency) ∧
      set.numNodes = numNodes adjacency :=
  (rule.rooted_build adjacency).mono fun _ ⟨hsquare, hrooted⟩ =>
    ⟨hrooted.onNodes hsquare, hrooted.numNodes_eq⟩

end NeuralFlow
