import Mathlib
import NeuralFlow.Proofs.Backing.Dense
import NeuralFlow.Proofs.Entries
import NeuralFlow.Proofs.FixedPoint

/-! Redistribution on a ring. Each node sends on all it has to the next one, so after `t` rounds a node
sends out the largest sum of demands over the last nodes up to it, of which there are at most `t`. With
demands that cancel out, going around more than once adds nothing, so the flow is final as soon as the
rounds have gone around, and conserves. -/

namespace NeuralFlow.Redistribution

open EdgeMatrix LawfulBacking

section Windows

variable {K : Type} [ExactScalar K] {demands : List K}

def demandAt (demands : List K) (place : ℤ) : K := demands.getD (place % demands.length).toNat 0

/-- The demand at a place and at the `j` places before it, together. -/
def windowSum (demands : List K) (place : ℤ) (j : ℕ) : K :=
  ∑ i ∈ Finset.range (j + 1), demandAt demands (place - i)

theorem demandAt_congr {k l : ℤ} (h : k ≡ l [ZMOD demands.length]) :
    demandAt demands k = demandAt demands l := by
  rw [demandAt, demandAt, h.eq]

theorem demandAt_natCast {v : ℕ} (hv : v < demands.length) :
    demandAt demands v = demands.getD v 0 := by
  rw [demandAt, Int.emod_eq_of_lt (Int.natCast_nonneg v) (Int.ofNat_lt.2 hv), Int.toNat_natCast]

theorem windowSum_congr {k l : ℤ} (h : k ≡ l [ZMOD demands.length]) (j : ℕ) :
    windowSum demands k j = windowSum demands l j :=
  Finset.sum_congr rfl fun i _ => demandAt_congr (h.sub_right i)

theorem windowSum_zero (k : ℤ) : windowSum demands k 0 = 0 + demandAt demands k := by
  simp [windowSum]

theorem windowSum_succ (k : ℤ) (j : ℕ) :
    windowSum demands k (j + 1) = windowSum demands (k - 1) j + demandAt demands k := by
  rw [windowSum, Finset.sum_range_succ', windowSum, Nat.cast_zero, sub_zero]
  refine congrArg (· + demandAt demands k) (Finset.sum_congr rfl fun i _ => ?_)
  rw [Nat.cast_succ, sub_sub, add_comm (1 : ℤ)]

/-- One place further, the demand that is new is the one that is left behind. -/
theorem periodic_sum_around (demands : List K) : Function.Periodic
    (fun k : ℤ => ∑ i ∈ Finset.range demands.length, demandAt demands (k - i)) 1 := by
  intro k
  have hlast := Finset.sum_range_succ (fun i : ℕ => demandAt demands (k + 1 - i)) demands.length
  have hfirst := Finset.sum_range_succ' (fun i : ℕ => demandAt demands (k + 1 - i)) demands.length
  have hends : demandAt demands (k + 1 - demands.length) = demandAt demands (k + 1 - (0 : ℕ)) :=
    demandAt_congr (by simp [Int.ModEq])
  rw [hlast, hends] at hfirst
  refine (add_right_cancel hfirst).trans (Finset.sum_congr rfl fun i _ => ?_)
  rw [Nat.cast_succ, add_sub_add_right_eq_sub]

/-- Once around the ring every demand is met once. -/
theorem sum_around (demands : List K) (k : ℤ) :
    ∑ i ∈ Finset.range demands.length, demandAt demands (k - i) = demands.sum := by
  have hback := (periodic_sum_around demands).sub_zsmul_eq (x := k) (k - (demands.length - 1))
  rw [zsmul_one, Int.cast_id, sub_sub_cancel] at hback
  rw [← hback, ← sum_getD, ← Finset.sum_range_reflect]
  refine Finset.sum_congr rfl fun i hi => ?_
  have hlt := Finset.mem_range.1 hi
  have hplace : (demands.length : ℤ) - 1 - (demands.length - 1 - i : ℕ) = i := by omega
  rw [hplace, demandAt_natCast hlt]

/-- Where the demands cancel out, a way once more around adds nothing. -/
theorem periodic_windowSum (hsum : demands.sum = 0) (k : ℤ) :
    Function.Periodic (windowSum demands k) demands.length := by
  intro j
  rw [windowSum, Nat.add_right_comm, Nat.add_comm, Finset.sum_range_add, sum_around, hsum, zero_add,
    windowSum]
  refine Finset.sum_congr rfl fun i _ => demandAt_congr ?_
  have hplace : k - (demands.length + i : ℕ) = k - i - demands.length := by omega
  rw [hplace, Int.ModEq, Int.sub_emod_right]

def reached (demands : List K) (place : ℤ) (rounds : ℕ) : Set K :=
  insert 0 (windowSum demands place '' Set.Iio rounds)

/-- What a round reaches from a place is what the round before reached from the place before, with the
demand added. -/
theorem reached_succ (k : ℤ) (t : ℕ) : reached demands k (t + 1) =
    insert 0 ((· + demandAt demands k) '' reached demands (k - 1) t) := by
  rw [reached, reached]
  refine congrArg (insert 0) (Set.ext fun x => ?_)
  simp only [Set.mem_image, Set.mem_Iio, Set.mem_insert_iff, exists_eq_or_imp]
  constructor
  · rintro ⟨j, hj, rfl⟩
    cases j with
    | zero => exact Or.inl (windowSum_zero k).symm
    | succ j =>
      exact Or.inr ⟨_, ⟨j, Nat.lt_of_succ_lt_succ hj, rfl⟩, (windowSum_succ k j).symm⟩
  · rintro (rfl | ⟨_, ⟨j, hj, rfl⟩, rfl⟩)
    · exact ⟨0, Nat.succ_pos t, windowSum_zero k⟩
    · exact ⟨j + 1, Nat.succ_lt_succ hj, windowSum_succ k j⟩

theorem reached_congr {k l : ℤ} (h : k ≡ l [ZMOD demands.length]) (t : ℕ) :
    reached demands k t = reached demands l t := by
  rw [reached, reached, funext (windowSum_congr h)]

theorem isGreatest_reached_zero (k : ℤ) : IsGreatest (reached demands k 0) 0 := by
  simp [reached, isGreatest_singleton]

theorem isGreatest_reached_succ {k : ℤ} {t : ℕ} {x : K}
    (h : IsGreatest (reached demands (k - 1) t) x) :
    IsGreatest (reached demands k (t + 1)) (max (x + demandAt demands k) 0) := by
  have hmono : Monotone (· + demandAt demands k) := fun _ _ hle => add_le_add_left hle _
  rw [reached_succ, max_comm]
  exact (hmono.map_isGreatest h).insert 0

/-- Where the demands cancel out, one round less than there are places reaches all there is. -/
theorem reached_eq (hsum : demands.sum = 0) (hpos : 0 < demands.length) (k : ℤ) {t : ℕ}
    (ht : demands.length - 1 ≤ t) : reached demands k t = reached demands k demands.length := by
  apply Set.Subset.antisymm
  · refine Set.insert_subset_insert ?_
    rintro _ ⟨j, -, rfl⟩
    exact ⟨j % demands.length, Nat.mod_lt j hpos, (periodic_windowSum hsum k).map_mod_nat j⟩
  · rintro _ (rfl | ⟨j, hj, rfl⟩)
    · exact Set.mem_insert 0 _
    · rcases (Nat.le_sub_one_of_lt hj).lt_or_eq with hlt | rfl
      · exact Set.mem_insert_of_mem 0 ⟨j, hlt.trans_le ht, rfl⟩
      · -- the longest sum is over all places
        rw [windowSum, Nat.sub_add_cancel hpos, sum_around, hsum]
        exact Set.mem_insert 0 _

end Windows

/-! The ring itself. -/

section Rings

variable {M : Type → Type} [EdgeMatrix M] [ExactBacking M] {K : Type} [ExactScalar K]
  {weights flow : M K} {n : ℕ}

def ringEdges (n : ℕ) : List (Edge K) := (List.range n).map fun u => ⟨u, (u + 1) % n, 1⟩

structure IsRing (n : ℕ) (weights : M K) : Prop where
  square : Square weights
  cleared : Cleared weights
  nodes : numNodes weights = n
  mem_edges : ∀ e : Edge K, e ∈ edges weights ↔ e.src < n ∧ e.dst = (e.src + 1) % n ∧ e.value = 1

theorem mem_ringEdges {e : Edge K} :
    e ∈ ringEdges n ↔ e.src < n ∧ e.dst = (e.src + 1) % n ∧ e.value = 1 := by
  obtain ⟨u, v, x⟩ := e
  simp only [ringEdges, List.mem_map, List.mem_range, Edge.mk.injEq]
  constructor
  · rintro ⟨u, hu, rfl, rfl, rfl⟩
    exact ⟨hu, rfl, rfl⟩
  · rintro ⟨hu, rfl, rfl⟩
    exact ⟨u, hu, rfl, rfl, rfl⟩

theorem ofEdges_isRing (n : ℕ) : Yields (ofEdges n (ringEdges n) : Outcome K (M K)) (IsRing n) := by
  have hfit : ∀ e ∈ (ringEdges n : List (Edge K)), e.Fits n := by
    intro e he
    obtain ⟨hlt, hdst, -⟩ := mem_ringEdges.1 he
    exact ⟨hlt, hdst ▸ Nat.mod_lt _ (Nat.zero_lt_of_lt hlt), rfl⟩
  obtain ⟨a, ha, hsquare, hcleared, hnodes, hedges⟩ := ofEdges_ok (M := M) hfit
  have hnodup : ((ringEdges n : List (Edge K)).map Edge.ends).Nodup := by
    rw [ringEdges, List.map_map]
    exact List.nodup_range.map fun u v huv => congrArg Prod.fst huv
  refine ⟨a, ha, hsquare, hcleared, hnodes, fun e => ?_⟩
  rw [hedges, (SparseMatrix.inRowOrder_perm hnodup).mem_iff, mem_ringEdges]

namespace IsRing

theorem mem_pattern (h : IsRing n weights) {u v : ℕ} :
    (u, v) ∈ pattern weights ↔ u < n ∧ v = (u + 1) % n := by
  constructor
  · intro huv
    obtain ⟨x, he⟩ := exists_edge huv
    exact ⟨((h.mem_edges _).1 he).1, ((h.mem_edges _).1 he).2.1⟩
  · rintro ⟨hu, hv⟩
    exact mem_pattern_of_mem ((h.mem_edges ⟨u, v, 1⟩).2 ⟨hu, hv, rfl⟩)

/-- A node sends everything along its one edge. -/
theorem outflow_eq (h : IsRing n weights) (hon : OnPattern weights flow) {u : ℕ} (hu : u < n) :
    outflow flow u = entry flow u ((u + 1) % n) := by
  have hnodes := hon.nodes.trans h.nodes
  have hlt : (u + 1) % n < n := Nat.mod_lt _ (Nat.zero_lt_of_lt hu)
  rw [outflow_eq_sum hon.square hon.cleared (hnodes.symm ▸ hu), hnodes]
  refine Finset.sum_eq_single_of_mem _ (Finset.mem_range.2 hlt) fun v hv hne => ?_
  refine entry_eq_zero hon.square hon.cleared (hnodes.symm ▸ hu)
    (hnodes.symm ▸ Finset.mem_range.1 hv) fun huv => hne ?_
  exact (h.mem_pattern.1 (hon.pattern ▸ huv)).2

/-- A node takes in what the node before it sends. -/
theorem inflow_eq (h : IsRing n weights) (hon : OnPattern weights flow) {u : ℕ} (hu : u < n) :
    inflow flow ((u + 1) % n) = outflow flow u := by
  have hnodes := hon.nodes.trans h.nodes
  have hlt : (u + 1) % n < n := Nat.mod_lt _ (Nat.zero_lt_of_lt hu)
  rw [h.outflow_eq hon hu, inflow_eq_sum hon.square hon.cleared (hnodes.symm ▸ hlt), hnodes]
  refine Finset.sum_eq_single_of_mem _ (Finset.mem_range.2 hu) fun w hw hne => ?_
  refine entry_eq_zero hon.square hon.cleared (hnodes.symm ▸ Finset.mem_range.1 hw)
    (hnodes.symm ▸ hlt) fun hwv => hne ?_
  -- no two nodes have the same next one
  have hsame := (h.mem_pattern.1 (hon.pattern ▸ hwv)).2
  have hmod := Nat.ModEq.add_right_cancel' 1 (show u + 1 ≡ w + 1 [MOD n] from hsame)
  exact (hmod.eq_of_lt_of_lt hu (Finset.mem_range.1 hw)).symm

/-- Every node passes on all it has. -/
theorem outflow_weights (h : IsRing n weights) {u : ℕ} (hu : u < n) : outflow weights u = 1 := by
  have hself : OnPattern weights weights := ⟨h.square, h.cleared, rfl, rfl⟩
  have hedge : (⟨u, (u + 1) % n, 1⟩ : Edge K) ∈ edges weights := (h.mem_edges _).2 ⟨hu, rfl, rfl⟩
  exact (h.outflow_eq hself hu).trans (entry_of_mem h.square hedge)

/-- After some rounds a node sends out the largest sum of demands that the rounds have reached. -/
theorem isGreatest_outflow (h : IsRing n weights) {demands : List K} (hd : demands.length = n) (t : ℕ)
    {v : ℕ} (hv : v < n) : IsGreatest (reached demands v t)
      (outflow ((nextFlow weights demands)^[t] (still weights)) v) := by
  have hdw : demands.length = numNodes weights := hd.trans h.nodes.symm
  have hon := fun k => (flowAfter_ok h.square hdw k).2
  induction t generalizing v with
  | zero =>
    have hedge := h.mem_pattern.2 ⟨hv, rfl⟩
    rw [h.outflow_eq (hon 0) hv, Function.iterate_zero_apply, still, EdgeMatrix.map,
      entry_withValues h.square _ hedge]
    exact isGreatest_reached_zero _
  | succ t ih =>
    -- the node before
    obtain ⟨u, hu, rfl⟩ : ∃ u < n, (u + 1) % n = v := by
      cases v with
      | zero => exact ⟨n - 1, Nat.sub_lt hv one_pos, by rw [Nat.sub_one_add_one_eq_of_pos hv, Nat.mod_self]⟩
      | succ v => exact ⟨v, Nat.lt_of_succ_lt hv, Nat.mod_eq_of_lt hv⟩
    have hplace : (((u + 1) % n : ℕ) : ℤ) - 1 ≡ u [ZMOD demands.length] := by
      have hnext := (Int.mod_modEq (u + 1) demands.length).sub_right 1
      rw [add_sub_cancel_right] at hnext
      rwa [Int.natCast_mod, Nat.cast_succ, ← hd]
    have hrow : ∀ w < numNodes weights, outflow weights w = 1 := fun w hw =>
      h.outflow_weights (h.nodes ▸ hw)
    have hgreatest := ih hu
    rw [← reached_congr hplace] at hgreatest
    have hstep := isGreatest_reached_succ hgreatest
    rwa [demandAt_natCast (hd.symm ▸ hv), ← h.inflow_eq (hon t) hu,
      ← outflow_nextFlow h.square hrow (hon t) hdw (h.nodes.symm ▸ hv),
      ← Function.iterate_succ_apply' (nextFlow weights demands)] at hstep

end IsRing

/-- On a ring, with demands that cancel out: after one round less than there are nodes, and after any
more, the flow conserves, and along the edge out of a node goes the largest sum of the demands of the
nodes up to it, or nothing if all these sums are below zero. -/
theorem ring_solve_conserves {demands : List K} (hd : demands.length = n) (hsum : demands.sum = 0)
    {t : ℕ} (ht : n - 1 ≤ t) :
    Yields (ofEdges n (ringEdges n) : Outcome K (M K)) fun weights =>
      Yields (solve t weights demands) fun s => s.residual = 0 ∧ ∀ v < n,
        IsGreatest (insert 0 (windowSum demands v '' Set.Iio n))
          (entry s.flow v ((v + 1) % n)) := by
  refine (ofEdges_isRing n).mono fun weights h => ?_
  have hdw : demands.length = numNodes weights := hd.trans h.nodes.symm
  have hon := fun k => (flowAfter_ok h.square hdw k).2
  have hfinal : ∀ k, n - 1 ≤ k → ∀ v < n, IsGreatest (reached demands v n)
      (outflow ((nextFlow weights demands)^[k] (still weights)) v) := by
    intro k hk v hv
    have hpos : 0 < demands.length := hd ▸ Nat.zero_lt_of_lt hv
    have hall := reached_eq hsum hpos v (hd.symm ▸ hk)
    rw [hd] at hall
    exact hall ▸ h.isGreatest_outflow hd k hv
  obtain ⟨s, hs, hflow, hres⟩ := solve_ok h.square hdw t
  refine ⟨s, hs, hres.2 ?_, fun v hv => ?_⟩
  · rw [hflow]
    refine conserves_of_outflow_eq h.square (fun v hv => h.outflow_weights (h.nodes ▸ hv)) (hon t) hdw
      hsum fun v hv => ?_
    have hlt : v < n := h.nodes ▸ hv
    rw [← Function.iterate_succ_apply' (nextFlow weights demands)]
    exact (hfinal (t + 1) (Nat.le_succ_of_le ht) v hlt).unique (hfinal t ht v hlt)
  · rw [hflow, ← h.outflow_eq (hon t) hv]
    exact hfinal t ht v hv

end Rings

/-- Four nodes in a ring, two of them with more than they need. -/
theorem ring_solve_conserves_four :
    ([3, -2, 1, -2] : List ℝ).length = 4 ∧ ([3, -2, 1, -2] : List ℝ).sum = 0 ∧
    Yields (ofEdges 4 (ringEdges 4) : Outcome ℝ (DenseMatrix ℝ)) fun weights =>
      Yields (solve 3 weights [3, -2, 1, -2]) fun s => s.residual = 0 ∧ ∀ v : ℕ, v < 4 →
        IsGreatest (insert 0 (windowSum [3, -2, 1, -2] v '' Set.Iio 4))
          (entry s.flow v ((v + 1) % 4)) := by
  have hsum : ([3, -2, 1, -2] : List ℝ).sum = 0 := by norm_num
  exact ⟨rfl, hsum, ring_solve_conserves rfl hsum le_rfl⟩

end NeuralFlow.Redistribution
