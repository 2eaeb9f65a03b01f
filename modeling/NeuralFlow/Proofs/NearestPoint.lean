import Mathlib
import NeuralFlow.Proofs.Simplex

/-! Sparsemax as a projection. The positive parts of a row above its threshold are the point of the
simplex nearest to the row, and no other point is as near. Pruning changes this point only where some
of its positive entries are below the bound and others are not. -/

namespace NeuralFlow.Simplex

variable {K : Type} [ExactScalar K]

def squaredDistance (xs ys : List K) : K := (List.zipWith (fun x y => (x - y) ^ 2) xs ys).sum

theorem squaredDistance_cons (x y : K) (xs ys : List K) :
    squaredDistance (x :: xs) (y :: ys) = (x - y) ^ 2 + squaredDistance xs ys := by
  rw [squaredDistance, List.zipWith_cons_cons, List.sum_cons, squaredDistance]

theorem squaredDistance_nonneg (xs ys : List K) : 0 ≤ squaredDistance xs ys := by
  refine List.sum_nonneg fun d hd => ?_
  obtain ⟨i, hi, rfl⟩ := List.mem_iff_getElem.1 hd
  rw [List.getElem_zipWith]
  exact sq_nonneg _

/-- Only a row itself is at distance zero from it. -/
theorem squaredDistance_pos {xs ys : List K} (hlen : xs.length = ys.length) (hne : xs ≠ ys) :
    0 < squaredDistance xs ys := by
  induction xs generalizing ys with
  | nil => exact absurd (List.length_eq_zero_iff.1 hlen.symm).symm hne
  | cons x xs ih =>
    obtain ⟨y, ys, rfl⟩ := List.exists_cons_of_length_eq_add_one hlen.symm
    rw [squaredDistance_cons]
    by_cases hxy : x = y
    · subst hxy
      have htail : xs ≠ ys := fun h => hne (h ▸ rfl)
      exact add_pos_of_nonneg_of_pos (sq_nonneg _) (ih (by simpa using hlen) htail)
    · exact add_pos_of_pos_of_nonneg (pow_two_pos_of_ne_zero (sub_ne_zero.2 hxy))
        (squaredDistance_nonneg xs ys)

def partsAbove (level : K) (zs : List K) : List K := zs.map fun z => max (z - level) 0

theorem project_eq_partsAbove (zs : List K) : project zs = partsAbove (threshold zs) zs := by
  simp only [project, partsAbove, Exact.relu_eq_max]

/-- In squares, going to a number that is not negative by way of the part above the level is no longer
than going there directly, up to a term for the level. -/
theorem sq_add_sq_le (level z : K) {q : K} (hq : 0 ≤ q) :
    (z - max (z - level) 0) ^ 2 + (max (z - level) 0 - q) ^ 2 +
      2 * level * (max (z - level) 0 - q) ≤ (z - q) ^ 2 := by
  rcases le_total (z - level) 0 with h | h
  · rw [max_eq_right h]
    nlinarith [mul_nonneg (neg_nonneg.2 h) hq]
  · rw [max_eq_left h]
    apply le_of_eq
    ring

/-- The same for rows. The terms for the level vanish where the parts add up to what the other row adds
up to. -/
theorem squaredDistance_add_le (level : K) {zs qs : List K} (hlen : zs.length = qs.length)
    (hq : ∀ q ∈ qs, 0 ≤ q) :
    squaredDistance zs (partsAbove level zs) + squaredDistance (partsAbove level zs) qs +
      2 * level * ((partsAbove level zs).sum - qs.sum) ≤ squaredDistance zs qs := by
  induction zs generalizing qs with
  | nil =>
    obtain rfl := List.length_eq_zero_iff.1 hlen.symm
    simp [squaredDistance, partsAbove]
  | cons z zs ih =>
    obtain ⟨q, qs, rfl⟩ := List.exists_cons_of_length_eq_add_one hlen.symm
    have hhead := sq_add_sq_le level z (hq q (by simp))
    have htail := ih (by simpa using hlen) fun r hr => hq r (List.mem_cons_of_mem q hr)
    have hparts : partsAbove level (z :: zs) = max (z - level) 0 :: partsAbove level zs := rfl
    rw [hparts, squaredDistance_cons, squaredDistance_cons, squaredDistance_cons, List.sum_cons,
      List.sum_cons]
    linarith

structure Nearest (zs ps : List K) : Prop where
  length_eq : ps.length = zs.length
  proportions : Proportions ps
  lt : ∀ qs, qs.length = zs.length → Proportions qs → qs ≠ ps →
    squaredDistance zs ps < squaredDistance zs qs

theorem nearest_project {zs : List K} (hne : zs ≠ []) : Nearest zs (project zs) where
  length_eq := by simp [project]
  proportions := proportions_project hne
  lt qs hlen hq hother := by
    have hle := squaredDistance_add_le (threshold zs) hlen.symm hq.nonneg
    rw [← project_eq_partsAbove, (proportions_project hne).sum_eq_one, hq.sum_eq_one, sub_self,
      mul_zero, add_zero] at hle
    have hpos : 0 < squaredDistance (project zs) qs :=
      squaredDistance_pos (by simp [project, hlen]) hother.symm
    linarith

/-! What pruning takes away. -/

section Pruning

variable {epsilon : K} {ps : List K} (h : Proportions ps)

include h

theorem keptSum_le_one : keptSum epsilon ps ≤ 1 := by
  rw [← h.sum_eq_one]
  exact List.filter_sublist.sum_le_sum h.nonneg

/-- What is below the bound is nothing, so everything is kept. -/
theorem keptSum_eq_one (hlarge : ∀ p ∈ ps, 0 < p → epsilon ≤ p) : keptSum epsilon ps = 1 := by
  have hsum : ∀ qs : List K, (∀ q ∈ qs, 0 ≤ q ∧ (0 < q → epsilon ≤ q)) →
      keptSum epsilon qs = qs.sum := by
    intro qs
    induction qs with
    | nil => intro _; rfl
    | cons q qs ih =>
      intro hqs
      obtain ⟨⟨hnonneg, hlarge⟩, hqs⟩ := List.forall_mem_cons.1 hqs
      rw [keptSum_cons, ih hqs, List.sum_cons]
      split_ifs with hle
      · rfl
      · rw [le_antisymm (not_lt.1 fun hpos => hle (hlarge hpos)) hnonneg]
  rw [hsum ps fun p hp => ⟨h.nonneg p hp, hlarge p hp⟩, h.sum_eq_one]

/-- Pruning changes nothing where no positive proportion is below the bound, or all are. -/
theorem prune_eq_self
    (hsame : (∀ p ∈ ps, 0 < p → epsilon ≤ p) ∨ ∀ p ∈ ps, p < epsilon) : prune epsilon ps = ps := by
  rcases hsame with hlarge | hsmall
  · have hone := keptSum_eq_one h hlarge
    rw [prune_of_kept epsilon (hone ▸ one_pos), hone]
    refine (List.map_congr_left fun p hp => ?_).trans (List.map_id ps)
    split_ifs with hle
    · exact div_one p
    · exact le_antisymm (h.nonneg p hp) (not_lt.1 fun hpos => hle (hlarge p hp hpos))
  · have hnone : keptSum epsilon ps = 0 := by
      rw [keptSum, List.filter_eq_nil_iff.2 (by simpa using hsmall), List.sum_nil]
    exact prune_of_none_kept epsilon h hnone.not_gt

/-- A proportion that is not below a positive bound is kept. -/
theorem keptSum_pos (hpos : 0 < epsilon) {p : K} (hp : p ∈ ps) (hle : epsilon ≤ p) :
    0 < keptSum epsilon ps := by
  have hmem : p ∈ ps.filter fun q => decide (epsilon ≤ q) :=
    List.mem_filter.2 ⟨hp, by simpa using hle⟩
  have hsingle : p ≤ keptSum epsilon ps :=
    List.single_le_sum (fun q hq => h.nonneg q (List.mem_filter.1 hq).1) p hmem
  exact (hpos.trans_le hle).trans_le hsingle

/-- Scaling makes what is kept no smaller. -/
theorem le_of_mem_prune (hkept : 0 < keptSum epsilon ps) {x : K} (hx : x ∈ prune epsilon ps)
    (hpos : 0 < x) : epsilon ≤ x := by
  rw [prune_of_kept epsilon hkept] at hx
  obtain ⟨p, hp, rfl⟩ := List.mem_map.1 hx
  split_ifs at hpos ⊢ with hle
  · exact hle.trans (le_div_self (h.nonneg p hp) hkept (keptSum_le_one h))
  · exact absurd hpos (lt_irrefl 0)

end Pruning

/-- Sparsemax takes the nearest point of the simplex, which is the positive parts above the threshold,
and leaves it as it is where none or all of its positive entries are below `epsilon`. Otherwise the
entries below `epsilon` become zero and the others are scaled to the sum one. -/
theorem sparsemax_prunes_nearest (epsilon : K) {zs : List K} (hne : zs ≠ []) :
    ∃ ps, ps = zs.map (fun z => max (z - threshold zs) 0) ∧ ps.sum = 1 ∧ Nearest zs ps ∧
      ((∀ p ∈ ps, 0 < p → epsilon ≤ p) ∨ (∀ p ∈ ps, p < epsilon) → sparsemax epsilon zs = ps) ∧
      ((∃ p ∈ ps, 0 < p ∧ p < epsilon) → (∃ p ∈ ps, epsilon ≤ p) →
        sparsemax epsilon zs = ps.map (fun p => if epsilon ≤ p then p / keptSum epsilon ps else 0) ∧
          ∀ x ∈ sparsemax epsilon zs, 0 < x → epsilon ≤ x) := by
  have h := proportions_project hne
  refine ⟨project zs, project_eq_partsAbove zs, h.sum_eq_one, nearest_project hne, prune_eq_self h, ?_⟩
  rintro ⟨small, -, hpos, hsmall⟩ ⟨large, hmem, hlarge⟩
  have hkept := keptSum_pos h (hpos.trans hsmall) hmem hlarge
  exact ⟨prune_of_kept epsilon hkept, fun x => le_of_mem_prune h hkept⟩

/-- One of two proportions is below the bound and goes, the other one takes its share. -/
theorem sparsemax_prunes_nearest_pair : ([1, 1 / 20] : List ℝ) ≠ [] ∧
    Nearest [1, 1 / 20] [39 / 40, (1 / 40 : ℝ)] ∧ sparsemax (1 / 10) [1, 1 / 20] = [1, (0 : ℝ)] := by
  have hthreshold : threshold [1, (1 / 20 : ℝ)] = 1 / 40 := by
    norm_num [threshold, sortFalling, insertFalling, support, supportFrom, Scalar.precedes]
  have hne : ([1, 1 / 20] : List ℝ) ≠ [] := List.cons_ne_nil _ _
  obtain ⟨ps, hps, -, hnearest, -, hpruned⟩ := sparsemax_prunes_nearest (1 / 10 : ℝ) hne
  have hparts : ps = [39 / 40, 1 / 40] := by
    rw [hps, hthreshold]
    norm_num
  subst hparts
  refine ⟨hne, hnearest, ?_⟩
  rw [(hpruned ⟨1 / 40, by simp, by norm_num⟩ ⟨39 / 40, by simp, by norm_num⟩).1]
  norm_num [keptSum]

end NeuralFlow.Simplex
