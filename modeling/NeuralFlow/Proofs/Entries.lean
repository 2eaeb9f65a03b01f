import Mathlib
import NeuralFlow.Proofs.Conservation

/-! Matrices by position. An entry is what is stored for an edge, and zero elsewhere; matrices on one
pattern are compared entry by entry, and rows and columns are sums of entries over all nodes. -/

namespace NeuralFlow

/-- In row order an edge is alone at its place. -/
theorem RowOrdered.filter_ends {α : Type} {es : List (Edge α)} (h : RowOrdered es) {e : Edge α}
    (he : e ∈ es) : es.filter (fun d => d.dst == e.dst && d.src == e.src) = [e] := by
  induction es with
  | nil => simp at he
  | cons d es ih =>
    obtain ⟨hbefore, hrest⟩ := List.pairwise_cons.1 h
    rcases List.mem_cons.1 he with rfl | he
    · have hnone : es.filter (fun d => d.dst == e.dst && d.src == e.src) = [] := by
        refine List.filter_eq_nil_iff.2 fun f hf hsame => ?_
        have hne := (hbefore f hf).ends_ne
        rw [Ne, Edge.ends_eq_iff] at hne
        simp only [Bool.and_eq_true, beq_iff_eq] at hsame
        exact hne ⟨hsame.2.symm, hsame.1.symm⟩
      rw [List.filter_cons_of_pos (by simp), hnone]
    · have hne := (hbefore e he).ends_ne
      rw [Ne, Edge.ends_eq_iff] at hne
      rw [List.filter_cons_of_neg, ih hrest he]
      simp only [Bool.and_eq_true, beq_iff_eq]
      exact fun hsame => hne ⟨hsame.2, hsame.1⟩

namespace EdgeMatrix

open LawfulBacking

section Values

variable {M : Type → Type} [EdgeMatrix M] {α : Type} [Scalar α]

def entry (a : M α) (u v : ℕ) : α := (get? a u v).getD 0

variable [LawfulBacking M] {a : M α} {u v : ℕ}

omit [LawfulBacking M] [Scalar α] in
theorem exists_edge (huv : (u, v) ∈ pattern a) : ∃ x, (⟨u, v, x⟩ : Edge α) ∈ edges a := by
  obtain ⟨⟨u, v, x⟩, he, hends⟩ := List.mem_map.1 huv
  obtain ⟨rfl, rfl⟩ := Prod.mk.inj hends
  exact ⟨x, he⟩

omit [Scalar α] in
theorem lt_of_mem_pattern (h : Square a) (huv : (u, v) ∈ pattern a) :
    u < numNodes a ∧ v < numNodes a := by
  obtain ⟨x, he⟩ := exists_edge huv
  exact ends_lt h _ he

theorem entry_of_mem (h : Square a) {e : Edge α} (he : e ∈ edges a) :
    entry a e.src e.dst = e.value := by
  rw [entry, get?_edge h e he, Option.getD_some]

theorem entry_eq_zero (h : Square a) (hc : Cleared a) (hu : u < numNodes a) (hv : v < numNodes a)
    (huv : (u, v) ∉ pattern a) : entry a u v = 0 := by
  rw [entry, get?_blank h hc hu hv huv, Option.getD_some]

/-- What holds of the values of all edges holds of the entries on the pattern. -/
theorem forall_edges_iff (h : Square a) {P : ℕ → ℕ → α → Prop} :
    (∀ e ∈ edges a, P e.src e.dst e.value) ↔ ∀ u v, (u, v) ∈ pattern a → P u v (entry a u v) := by
  constructor
  · intro hall u v huv
    obtain ⟨x, he⟩ := exists_edge huv
    exact (entry_of_mem h he).symm ▸ hall _ he
  · intro hall e he
    exact entry_of_mem h he ▸ hall _ _ (mem_pattern_of_mem he)

theorem pattern_withValues (h : Square a) (f : ℕ → ℕ → α → α) :
    pattern (withValues a f) = pattern a := (onPattern_withValues h f).pattern

theorem entry_withValues (h : Square a) (f : ℕ → ℕ → α → α) (huv : (u, v) ∈ pattern a) :
    entry (withValues a f) u v = f u v (entry a u v) := by
  obtain ⟨x, he⟩ := exists_edge huv
  have he' : (⟨u, v, f u v x⟩ : Edge α) ∈ edges (withValues a f) := by
    rw [edges_withValues h]
    exact List.mem_map.2 ⟨_, he, rfl⟩
  rw [entry_of_mem (square_withValues h f) he', entry_of_mem h he]

omit [LawfulBacking M] in
/-- Functions that give the same values on the edges give the same matrix. -/
theorem withValues_congr {f g : ℕ → ℕ → α → α}
    (hfg : ∀ e ∈ edges a, f e.src e.dst e.value = g e.src e.dst e.value) :
    withValues a f = withValues a g :=
  congrArg (refill a) (List.map_congr_left hfg)

/-- The values of all edges are the entries on the pattern. -/
theorem map_edges_eq {β : Type} (h : Square a) (f : ℕ → ℕ → α → β) :
    (edges a).map (fun e => f e.src e.dst e.value) =
      (pattern a).map fun p => f p.1 p.2 (entry a p.1 p.2) := by
  rw [pattern, List.map_map]
  refine List.map_congr_left fun e he => ?_
  rw [Function.comp_apply, entry_of_mem h he]

end Values

variable {M : Type → Type} [EdgeMatrix M] [LawfulBacking M] {K : Type} [ExactScalar K] {a : M K}
  {u v : ℕ}

theorem sumEdges_eq (h : Square a) (f : ℕ → ℕ → K → K) :
    sumEdges a f = ((pattern a).map fun p => f p.1 p.2 (entry a p.1 p.2)).sum := by
  rw [sumEdges, Exact.runningSum_eq_sum, map_edges_eq h]

/-- Without edges below zero there are no entries below zero. -/
theorem entry_nonneg (h : Square a) (hc : Cleared a) (hpos : ∀ e ∈ edges a, 0 ≤ e.value)
    (hu : u < numNodes a) (hv : v < numNodes a) : 0 ≤ entry a u v := by
  by_cases huv : (u, v) ∈ pattern a
  · exact (forall_edges_iff h (P := fun _ _ x => 0 ≤ x)).1 hpos u v huv
  · exact (entry_eq_zero h hc hu hv huv).ge

/-- The values at one place are the entry there. -/
theorem sum_place (h : Square a) (hc : Cleared a) (hu : u < numNodes a) (hv : v < numNodes a) :
    (((edges a).filter fun e => e.dst == v && e.src == u).map Edge.value).sum = entry a u v := by
  by_cases huv : (u, v) ∈ pattern a
  · obtain ⟨x, he⟩ := exists_edge huv
    have hfilter := (rowOrdered h).filter_ends he
    rw [hfilter, entry_of_mem h he, List.map_singleton, List.sum_singleton]
  · have hnone : (edges a).filter (fun e => e.dst == v && e.src == u) = [] := by
      refine List.filter_eq_nil_iff.2 fun e he hends => ?_
      simp only [Bool.and_eq_true, beq_iff_eq] at hends
      exact huv (hends.1 ▸ hends.2 ▸ mem_pattern_of_mem he)
    rw [hnone, entry_eq_zero h hc hu hv huv, List.map_nil, List.sum_nil]

theorem outflow_eq_sum (h : Square a) (hc : Cleared a) (hu : u < numNodes a) :
    outflow a u = ∑ v ∈ Finset.range (numNodes a), entry a u v := by
  have hends : ∀ e ∈ row a u, e.dst < numNodes a := fun e he =>
    (ends_lt h e (mem_row_iff.1 he).1).2
  have hgrouped := sum_grouped Edge.dst hends fun _ => 1
  simp only [one_mul] at hgrouped
  rw [outflow, hgrouped]
  refine Finset.sum_congr rfl fun v hv => ?_
  rw [row, List.filter_filter, sum_place h hc hu (Finset.mem_range.1 hv)]

theorem inflow_eq_sum (h : Square a) (hc : Cleared a) (hv : v < numNodes a) :
    inflow a v = ∑ u ∈ Finset.range (numNodes a), entry a u v := by
  have hends : ∀ e ∈ (edges a).filter (·.dst == v), e.src < numNodes a := fun e he =>
    (ends_lt h e (List.mem_filter.1 he).1).1
  have hgrouped := sum_grouped Edge.src hends fun _ => 1
  simp only [one_mul] at hgrouped
  rw [inflow, hgrouped]
  refine Finset.sum_congr rfl fun u hu => ?_
  rw [List.filter_filter, ← sum_place h hc (Finset.mem_range.1 hu) hv]
  refine congrArg (fun es => (List.map Edge.value es).sum) (List.filter_congr fun e _ => ?_)
  exact Bool.and_comm _ _

end EdgeMatrix

end NeuralFlow
