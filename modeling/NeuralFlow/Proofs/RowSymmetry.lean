import Mathlib
import NeuralFlow.Proofs.Canonical
import NeuralFlow.Proofs.FlowWeights
import NeuralFlow.Proofs.NearestPoint
import NeuralFlow.Proofs.Relabelling.Rows

/-! Symmetries of rows of proportions. Only the differences of scores count, not their places in the
row, and a larger score is worth no less. So with summed scores a node has no say in how its own flow
is divided, apart from a loop. -/

namespace NeuralFlow

open EdgeMatrix LawfulBacking

namespace Simplex

variable {K : Type} [ExactScalar K]

/-! Shifted rows. -/

theorem top_shift {zs : List K} (h : zs ≠ []) (a : K) : top (zs.map (· + a)) = top zs + a := by
  obtain ⟨z, zs, rfl⟩ := List.exists_cons_of_ne_nil h
  have hmem : top ((z :: zs).map (· + a)) ∈ (z :: zs).map (· + a) := maximum_mem _ _
  obtain ⟨w, hw, hweq⟩ := List.mem_map.1 hmem
  refine le_antisymm ?_ (le_top (List.mem_map_of_mem (maximum_mem z zs)))
  rw [← hweq]
  exact add_le_add_left (le_top hw) a

/-- Exponentials are taken relative to the largest score. -/
theorem softmax_shift (zs : List K) (a : K) : softmax (zs.map (· + a)) = softmax zs := by
  rcases eq_or_ne zs [] with rfl | h
  · rfl
  · simp only [softmax_eq_map, top_shift h, List.map_map, Function.comp_def, add_sub_add_right_eq_sub]

/-- Raising the level lowers what is above it, as long as there is something. -/
theorem sum_partsAbove_lt {zs : List K} {s t : K} (hst : s < t) (hpos : 0 < (partsAbove t zs).sum) :
    (partsAbove t zs).sum < (partsAbove s zs).sum := by
  have hexists : ∃ z ∈ zs, t < z := by
    by_contra! hnone
    have hzero : partsAbove t zs = zs.map fun _ => 0 :=
      List.map_congr_left fun z hz => max_eq_right (sub_nonpos.2 (hnone z hz))
    simp [hzero] at hpos
  refine List.sum_lt_sum _ _ (fun z _ => max_le_max (by linarith) le_rfl) ?_
  obtain ⟨z, hz, htz⟩ := hexists
  refine ⟨z, hz, ?_⟩
  rw [max_eq_left (by linarith), max_eq_left (by linarith)]
  linarith

/-- There is one level above which the parts of a row add up to one. -/
theorem eq_threshold {zs : List K} (h : zs ≠ []) {level : K} (hone : (partsAbove level zs).sum = 1) :
    level = threshold zs := by
  have hsum : (partsAbove (threshold zs) zs).sum = 1 := by
    rw [← project_eq_partsAbove]
    exact (proportions_project h).sum_eq_one
  rcases lt_trichotomy level (threshold zs) with hlt | heq | hgt
  · exact absurd (hone.trans hsum.symm) (sum_partsAbove_lt hlt (hsum ▸ one_pos)).ne'
  · exact heq
  · exact absurd (hone.trans hsum.symm) (sum_partsAbove_lt hgt (hone ▸ one_pos)).ne

theorem threshold_shift {zs : List K} (h : zs ≠ []) (a : K) :
    threshold (zs.map (· + a)) = threshold zs + a := by
  refine (eq_threshold (by simpa using h) ?_).symm
  have hparts : partsAbove (threshold zs + a) (zs.map (· + a)) = project zs := by
    rw [project_eq_partsAbove]
    simp only [partsAbove, List.map_map, Function.comp_def, add_sub_add_right_eq_sub]
  rw [hparts, (proportions_project h).sum_eq_one]

theorem project_shift (zs : List K) (a : K) : project (zs.map (· + a)) = project zs := by
  rcases eq_or_ne zs [] with rfl | h
  · rfl
  · simp only [project, threshold_shift h, List.map_map, Function.comp_def, add_sub_add_right_eq_sub]

theorem sparsemax_shift (epsilon : K) (zs : List K) (a : K) :
    sparsemax epsilon (zs.map (· + a)) = sparsemax epsilon zs :=
  congrArg (prune epsilon) (project_shift zs a)

/-! The order of shares. -/

def KeepsOrder (zs ps : List K) : Prop :=
  ∃ share : K → K, ps = zs.map share ∧ MonotoneOn share {z | z ∈ zs}

theorem KeepsOrder.trans {zs ps qs : List K} (h : KeepsOrder zs ps) (k : KeepsOrder ps qs) :
    KeepsOrder zs qs := by
  obtain ⟨share, rfl, hshare⟩ := h
  obtain ⟨share', rfl, hshare'⟩ := k
  exact ⟨share' ∘ share, List.map_map, fun z hz w hw hzw =>
    hshare' (List.mem_map_of_mem hz) (List.mem_map_of_mem hw) (hshare hz hw hzw)⟩

theorem keepsOrder_softmax (hmono : Monotone (Scalar.exp : K → K)) (zs : List K) :
    KeepsOrder zs (softmax zs) := by
  refine ⟨_, softmax_eq_map zs, fun z _ w _ hzw => ?_⟩
  have hguard : (0 : K) < denominatorGuard := by
    change (0 : K) < OfScientific.ofScientific 1 true 10
    norm_num
  refine div_le_div_of_nonneg_right (hmono (sub_le_sub_right hzw _)) ?_
  rw [Exact.larger_eq_max]
  exact hguard.le.trans (le_max_right _ _)

theorem keepsOrder_project (zs : List K) : KeepsOrder zs (project zs) :=
  ⟨_, project_eq_partsAbove zs, fun _ _ _ _ hzw => max_le_max (sub_le_sub_right hzw _) le_rfl⟩

/-- What is dropped is below what is not, and what is left is scaled by one positive number. -/
theorem keepsOrder_prune (epsilon : K) {ps : List K} (h : Proportions ps) :
    KeepsOrder ps (prune epsilon ps) := by
  by_cases hkept : 0 < keptSum epsilon ps
  · refine ⟨_, prune_of_kept epsilon hkept, fun p _ q hq hpq => ?_⟩
    split_ifs with hp hq' hq'
    · exact div_le_div_of_nonneg_right hpq hkept.le
    · exact absurd (hp.trans hpq) hq'
    · exact div_nonneg (h.nonneg q hq) hkept.le
    · exact le_rfl
  · exact ⟨id, by rw [prune_of_none_kept epsilon h hkept, List.map_id], monotoneOn_id⟩

theorem keepsOrder_sparsemax (epsilon : K) {zs : List K} (h : zs ≠ []) :
    KeepsOrder zs (sparsemax epsilon zs) :=
  (keepsOrder_project zs).trans (keepsOrder_prune epsilon (proportions_project h))

/-- A map of rows that sees nothing but how much larger some values are than others. -/
def Impartial (f : List K → List K) : Prop :=
  ∀ {n : ℕ} (z : Fin n → K), ∃ r : Fin n → K, f (List.ofFn z) = List.ofFn r ∧
    (∀ a, f (List.ofFn fun i => z i + a) = List.ofFn r) ∧
    (∀ σ : Equiv.Perm (Fin n), f (List.ofFn (z ∘ σ)) = List.ofFn (r ∘ σ)) ∧
    ∀ i j, z j ≤ z i → r j ≤ r i

theorem impartial {f : List K → List K} (hshift : ∀ zs a, f (zs.map (· + a)) = f zs)
    (horder : OrderFree f) (hkeeps : ∀ zs, zs ≠ [] → KeepsOrder zs (f zs)) : Impartial f := by
  obtain ⟨share, hf, hperm⟩ := horder
  intro n z
  have hz : f (List.ofFn z) = List.ofFn (share (List.ofFn z) ∘ z) := by rw [hf, List.map_ofFn]
  refine ⟨_, hz, fun a => ?_, fun σ => ?_, fun i j hij => ?_⟩
  · rw [← hz, ← hshift (List.ofFn z) a, List.map_ofFn]
    rfl
  · rw [hf, List.map_ofFn, hperm _ _ (σ.ofFn_comp_perm z)]
    rfl
  · have hne : List.ofFn z ≠ [] := fun h => by
      rw [List.ofFn_eq_nil_iff] at h
      exact (h ▸ i).elim0
    obtain ⟨share', hshare', hmono⟩ := hkeeps _ hne
    rw [hz, List.map_ofFn] at hshare'
    have hsame := List.ofFn_injective hshare'
    rw [hsame]
    exact hmono (List.mem_ofFn.2 ⟨j, rfl⟩) (List.mem_ofFn.2 ⟨i, rfl⟩) hij

end Simplex

section Rows

variable {K : Type} [ExactScalar K]

theorem Normalization.normalizeRow_shift (normalization : Normalization K) (zs : List K) (a : K) :
    normalization.normalizeRow (zs.map (· + a)) = normalization.normalizeRow zs := by
  cases normalization with
  | softmax => exact Simplex.softmax_shift zs a
  | sparsemax epsilon => exact Simplex.sparsemax_shift epsilon zs a

theorem Normalization.impartial (normalization : Normalization K)
    (hmono : Monotone (Scalar.exp : K → K)) : Simplex.Impartial normalization.normalizeRow := by
  refine Simplex.impartial normalization.normalizeRow_shift normalization.orderFree fun zs hne => ?_
  cases normalization with
  | softmax => exact Simplex.keepsOrder_softmax hmono zs
  | sparsemax epsilon => exact Simplex.keepsOrder_sparsemax epsilon hne

end Rows

namespace WeightRule

variable {M : Type → Type} [EdgeMatrix M] [LawfulBacking M] {K : Type} [ExactScalar K]

/-- Rows with the same ends whose scores differ by one number have the same weights. -/
theorem row_normalize_shift (rule : WeightRule K) {adjacency raw raw' : M K}
    (hon : OnPattern adjacency raw) (hon' : OnPattern adjacency raw') {u : ℕ}
    (hu : u < numNodes adjacency) {c : K}
    (hshift : (row raw' u).map Edge.value = ((row raw u).map Edge.value).map (· + c)) :
    row (rule.normalize raw') u = row (rule.normalize raw) u := by
  have hnormal := hon.trans (rule.onPattern_normalize hon.square hon.cleared)
  have hnormal' := hon'.trans (rule.onPattern_normalize hon'.square hon'.cleared)
  refine Edge.eq_of_ends_values ?_ ?_
  · rw [map_ends_row, map_ends_row, hnormal.pattern, hnormal'.pattern]
  by_cases hnil : row adjacency u = []
  · rw [(row_eq_nil_iff hnormal.pattern u).2 hnil, (row_eq_nil_iff hnormal'.pattern u).2 hnil]
  · rw [rule.map_value_row_normalize hon'.square hon'.cleared (hon'.nodes.symm ▸ hu)
        ((row_eq_nil_iff hon'.pattern u).not.2 hnil),
      rule.map_value_row_normalize hon.square hon.cleared (hon.nodes.symm ▸ hu)
        ((row_eq_nil_iff hon.pattern u).not.2 hnil), hshift,
      rule.normalization.normalizeRow_shift]

def summed (adjacency : M K) (scores : List K) : M K :=
  withValues adjacency (atEnds scores scores (· + ·))

theorem weights_sum (normalization : Normalization K) {adjacency : M K} (h : Square adjacency)
    {scores : List K} (hl : scores.length = numNodes adjacency) :
    weights ⟨normalization, .sum⟩ adjacency scores =
      .ok (normalize ⟨normalization, .sum⟩ (summed adjacency scores)) :=
  weights_ok _ h hl

/-- The scores of a row are shifted by one number if those of its edges are. -/
theorem map_value_row_summed {adjacency : M K} (h : Square adjacency) {scores scores' : List K}
    {u : ℕ} {c : K} (hshift : ∀ e ∈ row adjacency u, ∃ s t s' t', scores[u]? = some s ∧
      scores[e.dst]? = some t ∧ scores'[u]? = some s' ∧ scores'[e.dst]? = some t' ∧
      s' + t' = s + t + c) :
    (row (summed adjacency scores') u).map Edge.value =
      ((row (summed adjacency scores) u).map Edge.value).map (· + c) := by
  rw [summed, summed, row_withValues h, row_withValues h, List.map_map, List.map_map, List.map_map]
  refine List.map_congr_left fun e he => ?_
  obtain ⟨s, t, s', t', hs, ht, hs', ht', hsum⟩ := hshift e he
  obtain rfl := (mem_row_iff.1 he).2
  simp [atEnds, hs, ht, hs', ht', hsum]

variable [CanonicalBacking M]

/-- Softmax and sparsemax see nothing of a row but the differences of its values: adding a constant
changes nothing, other orders give other orders of the same result, and no value gets less than a
smaller one. So for summed scores a constant added to all nodes has no effect on the weights, and the
score of a node without a loop has none on its row. -/
theorem weights_symmetric (hmono : Monotone (Scalar.exp : K → K)) (normalization : Normalization K)
    {adjacency : M K} (h : Square adjacency) {scores : List K}
    (hl : scores.length = numNodes adjacency) :
    Simplex.Impartial normalization.normalizeRow ∧
    ∃ w, weights ⟨normalization, .sum⟩ adjacency scores = .ok w ∧
      (∀ a, weights ⟨normalization, .sum⟩ adjacency (scores.map (· + a)) = .ok w) ∧
      ∀ u < numNodes adjacency, (u, u) ∉ pattern adjacency → ∀ x, ∃ w',
        weights ⟨normalization, .sum⟩ adjacency (scores.set u x) = .ok w' ∧ row w' u = row w u := by
  have hon : ∀ scores, OnPattern adjacency (summed adjacency scores) := fun scores =>
    onPattern_withValues h _
  have hscore : ∀ u < numNodes adjacency, ∃ s, scores[u]? = some s := fun u hu =>
    ⟨_, List.getElem?_eq_getElem (hl.symm ▸ hu)⟩
  refine ⟨normalization.impartial hmono, _, weights_sum normalization h hl, fun a => ?_,
    fun u hu hloop x => ⟨_, weights_sum normalization h (by simpa using hl), ?_⟩⟩
  · rw [weights_sum normalization h (by simpa using hl)]
    have hnormal := fun scores => (hon scores).trans
      (onPattern_normalize ⟨normalization, .sum⟩ (hon scores).square (hon scores).cleared)
    have hnodes := fun scores => (hnormal scores).nodes
    refine congrArg Except.ok (CanonicalBacking.eq_of_alike ⟨⟨(hnormal _).square, (hnormal _).square⟩,
      ⟨(hnormal _).cleared, (hnormal _).cleared⟩, by rw [hnodes, hnodes], ?_⟩)
    rw [← flatMap_row (hnormal _).square, ← flatMap_row (hnormal _).square, hnodes, hnodes]
    refine List.flatMap_congr fun u hu => ?_
    refine row_normalize_shift _ (hon _) (hon _) (List.mem_range.1 hu)
      (map_value_row_summed h (c := a + a) fun e he => ?_)
    obtain ⟨s, hs⟩ := hscore u (List.mem_range.1 hu)
    obtain ⟨t, ht⟩ := hscore e.dst (ends_lt h e (mem_row_iff.1 he).1).2
    exact ⟨s, t, s + a, t + a, hs, ht, by simp [hs], by simp [ht], by ring⟩
  · obtain ⟨s, hs⟩ := hscore u hu
    refine row_normalize_shift _ (hon _) (hon _) hu
      (map_value_row_summed h (c := x - s) fun e he => ?_)
    obtain ⟨hmem, rfl⟩ := mem_row_iff.1 he
    obtain ⟨t, ht⟩ := hscore e.dst (ends_lt h e hmem).2
    have hne : e.src ≠ e.dst := fun heq => hloop (by
      have hends := mem_pattern_of_mem hmem
      rwa [← heq] at hends)
    refine ⟨s, t, x, t, hs, ht, ?_, by rw [List.getElem?_set_ne hne, ht], by ring⟩
    exact List.getElem?_set_self (hl.symm ▸ hu)

/-- Between two nodes that point at each other, neither a shift of both scores nor a new score of the
first node changes what the first node passes on. -/
theorem weights_symmetric_exchange : Monotone (Scalar.exp : ℝ → ℝ) ∧
    ∃ w, weights ⟨.sparsemax (1 / 2), .sum⟩ (SparseMatrix.exchange (1 : ℝ) 1) [2, -3] = .ok w ∧
      weights ⟨.sparsemax (1 / 2), .sum⟩ (SparseMatrix.exchange (1 : ℝ) 1) [7, 2] = .ok w ∧
      ∃ w', weights ⟨.sparsemax (1 / 2), .sum⟩ (SparseMatrix.exchange (1 : ℝ) 1) [100, -3] = .ok w' ∧
        row w' 0 = row w 0 := by
  have hmono : Monotone (Scalar.exp : ℝ → ℝ) := LawfulLibrary.exp_strictMono.monotone
  obtain ⟨-, w, hw, hshift, hrow⟩ := weights_symmetric hmono (.sparsemax (1 / 2))
    (SparseMatrix.square_exchange (1 : ℝ) 1) (show ([2, -3] : List ℝ).length = 2 from rfl)
  refine ⟨hmono, w, hw, ?_, hrow 0 (by decide) (by decide) 100⟩
  have h := hshift 5
  norm_num at h
  exact h

end WeightRule

end NeuralFlow
