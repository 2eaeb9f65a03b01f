import Mathlib
import NeuralFlow.Proofs.Exact
import NeuralFlow.Simplex

/-! Rows of proportions in exact arithmetic. Softmax has the exponential of zero in its denominator,
and the search of sparsemax cuts a falling list where the threshold of its start lies, so in both
cases the row adds up to one and no guard is ever needed. -/

namespace NeuralFlow.Simplex

variable {K : Type} [ExactScalar K]

structure Proportions (ps : List K) : Prop where
  nonneg : ∀ p ∈ ps, 0 ≤ p
  sum_eq_one : ps.sum = 1

theorem denominatorGuard_le_one : (denominatorGuard : K) ≤ 1 := by
  change (OfScientific.ofScientific 1 true 10 : K) ≤ 1
  norm_num

theorem sum_map_div (xs : List K) (d : K) : (xs.map (· / d)).sum = xs.sum / d := by
  simp only [div_eq_mul_inv]
  exact List.sum_map_mul_right xs id d⁻¹ |>.trans (by rw [List.map_id])

/-- What is not negative and adds up to something makes proportions of its sum. -/
theorem Proportions.of_scaled {xs : List K} (hx : ∀ x ∈ xs, 0 ≤ x) (hpos : 0 < xs.sum) :
    Proportions (xs.map (· / xs.sum)) where
  nonneg := by
    simp only [List.forall_mem_map]
    exact fun x h => div_nonneg (hx x h) hpos.le
  sum_eq_one := by rw [sum_map_div, div_self hpos.ne']

theorem maximum_mem (x : K) (xs : List K) : Scalar.maximum x xs ∈ x :: xs := by
  unfold Scalar.maximum
  induction xs generalizing x with
  | nil => simp
  | cons y xs ih =>
    rw [List.foldl_cons, Exact.larger_eq_max]
    rcases max_choice x y with h | h <;> rw [h]
    · exact List.cons_subset_cons x (List.subset_cons_self y xs) (ih x)
    · exact List.mem_cons_of_mem x (ih y)

def exponentials (x : K) (xs : List K) : List K :=
  (x :: xs).map fun z => Scalar.exp (z - Scalar.maximum x xs)

theorem softmax_cons (x : K) (xs : List K) : softmax (x :: xs) = (exponentials x xs).map
    (· / Scalar.larger (Scalar.runningSum (exponentials x xs)) denominatorGuard) := rfl

section Softmax

variable (hpos : ∀ a : K, 0 < Scalar.exp a) (hzero : Scalar.exp (0 : K) = 1)

include hpos hzero

/-- The largest value contributes one, and the others nothing negative. -/
theorem one_le_sum_exponentials (x : K) (xs : List K) : 1 ≤ (exponentials x xs).sum := by
  have hone : (1 : K) ∈ exponentials x xs :=
    List.mem_map.2 ⟨_, maximum_mem x xs, by rw [sub_self, hzero]⟩
  refine List.single_le_sum ?_ 1 hone
  simp only [exponentials, List.forall_mem_map]
  exact fun z _ => (hpos _).le

/-- The guard of the denominator never takes effect. -/
theorem softmax_eq_div_sum (x : K) (xs : List K) :
    softmax (x :: xs) = (exponentials x xs).map (· / (exponentials x xs).sum) := by
  have hguard := denominatorGuard_le_one.trans (one_le_sum_exponentials hpos hzero x xs)
  rw [softmax_cons, Exact.runningSum_eq_sum, Exact.larger_eq_max, max_eq_left hguard]

theorem proportions_softmax {zs : List K} (h : zs ≠ []) : Proportions (softmax zs) := by
  obtain ⟨x, xs, rfl⟩ := List.exists_cons_of_ne_nil h
  rw [softmax_eq_div_sum hpos hzero]
  refine Proportions.of_scaled ?_ (zero_lt_one.trans_le (one_le_sum_exponentials hpos hzero x xs))
  simp only [exponentials, List.forall_mem_map]
  exact fun z _ => (hpos _).le

end Softmax

/-! Sorting. -/

theorem insertFalling_perm {α : Type} [Scalar α] (z : α) (ys : List α) :
    (insertFalling z ys).Perm (z :: ys) := by
  induction ys with
  | nil => exact .refl _
  | cons y ys ih =>
    unfold insertFalling
    split_ifs
    · exact (ih.cons y).trans (.swap z y ys)
    · exact .refl _

theorem sortFalling_perm {α : Type} [Scalar α] (zs : List α) : (sortFalling zs).Perm zs := by
  induction zs with
  | nil => exact .refl _
  | cons z zs ih => exact (insertFalling_perm z _).trans (ih.cons z)

theorem pairwise_insertFalling {z : K} {ys : List K} (h : ys.Pairwise (· ≥ ·)) :
    (insertFalling z ys).Pairwise (· ≥ ·) := by
  induction ys with
  | nil => exact List.pairwise_singleton _ z
  | cons y ys ih =>
    obtain ⟨hy, hys⟩ := List.pairwise_cons.1 h
    unfold insertFalling
    split_ifs with hzy
    · have hle : z ≤ y := by simpa [Scalar.precedes] using hzy
      refine List.pairwise_cons.2 ⟨fun w hw => ?_, ih hys⟩
      rcases List.mem_cons.1 ((insertFalling_perm z ys).mem_iff.1 hw) with rfl | hw
      · exact hle
      · exact hy w hw
    · have hlt : y < z := by simpa [Scalar.precedes] using hzy
      refine List.pairwise_cons.2 ⟨fun w hw => ?_, h⟩
      rcases List.mem_cons.1 hw with rfl | hw
      · exact hlt.le
      · exact (hy w hw).trans hlt.le

theorem pairwise_sortFalling (zs : List K) : (sortFalling zs).Pairwise (· ≥ ·) := by
  induction zs with
  | nil => exact .nil
  | cons z zs ih => exact pairwise_insertFalling ih

/-! The threshold. -/

/-- A list cut in two at the threshold of its front: all of the front lies above it, nothing of the
back does. -/
structure Cut (front back : List K) : Prop where
  above : ∀ z ∈ front, front.sum < 1 + front.length * z
  below : ∀ z ∈ back, 1 + front.length * z ≤ front.sum

theorem Cut.front_ne_nil {front back : List K} (h : Cut front back) (hne : front ++ back ≠ []) :
    front ≠ [] := by
  rintro rfl
  obtain ⟨z, zs, rfl⟩ := List.exists_cons_of_ne_nil (by simpa using hne)
  have hz := h.below z (by simp)
  simp at hz
  exact absurd hz zero_lt_one.not_ge

/-- A value joins a cut list from below: as the end of a new front if it is above the threshold of
all values, else as part of the back. -/
theorem Cut.snoc {front back : List K} (h : Cut front back) {z : K}
    (hz : ∀ y ∈ front ++ back, z ≤ y) :
    if (front ++ back ++ [z]).sum < 1 + (front ++ back ++ [z]).length * z then
      Cut (front ++ back ++ [z]) [] else Cut front (back ++ [z]) := by
  split_ifs with hadmit
  · refine ⟨fun y hy => hadmit.trans_le ?_, by simp⟩
    have hle : z ≤ y := by
      rcases List.mem_append.1 hy with hy | hy
      · exact hz y hy
      · exact (List.mem_singleton.1 hy).ge
    gcongr
  · refine ⟨h.above, fun y hy => ?_⟩
    rcases List.mem_append.1 hy with hy | hy
    · exact h.below y hy
    obtain rfl := List.mem_singleton.1 hy
    rcases List.eq_nil_or_concat back with rfl | ⟨init, w, rfl⟩
    · simp only [List.append_nil, List.sum_append, List.sum_singleton, List.length_append,
        List.length_singleton, not_lt] at hadmit
      push_cast at hadmit
      linarith
    · have hle := mul_le_mul_of_nonneg_left (hz w (by simp)) (Nat.cast_nonneg (α := K) front.length)
      exact (add_le_add_right hle 1).trans (h.below w (by simp))

def Support.of (zs : List K) : Support K := ⟨zs.length, zs.sum⟩

theorem supportFrom_cons (seen : List K) (best : Support K) (z : K) (zs : List K) :
    supportFrom (.of seen) best (z :: zs) = supportFrom (.of (seen ++ [z]))
      (if (seen ++ [z]).sum < 1 + (seen ++ [z]).length * z then .of (seen ++ [z]) else best)
      zs := by
  simp [supportFrom, Support.of]

/-- The search ends with a front that cuts the whole list. -/
theorem supportFrom_cuts {front back rest : List K}
    (hfall : (front ++ back ++ rest).Pairwise (· ≥ ·)) (h : Cut front back) :
    ∃ front' back', front' ++ back' = front ++ back ++ rest ∧ Cut front' back' ∧
      supportFrom (.of (front ++ back)) (.of front) rest = .of front' := by
  induction rest generalizing front back with
  | nil => exact ⟨front, back, by simp, h, rfl⟩
  | cons z rest ih =>
    have hz : ∀ y ∈ front ++ back, z ≤ y := fun y hy =>
      (List.pairwise_append.1 hfall).2.2 y hy z (by simp)
    have hsnoc := h.snoc hz
    rw [supportFrom_cons]
    split_ifs at hsnoc with hadmit
    · rw [if_pos hadmit]
      obtain ⟨front', back', happend, hcut, hrun⟩ := ih (by simpa using hfall) hsnoc
      exact ⟨front', back', by simpa using happend, hcut, by simpa using hrun⟩
    · rw [if_neg hadmit]
      obtain ⟨front', back', happend, hcut, hrun⟩ :=
        ih (show (front ++ (back ++ [z]) ++ rest).Pairwise (· ≥ ·) by simpa using hfall) hsnoc
      exact ⟨front', back', by simpa using happend, hcut, by simpa using hrun⟩

/-- The threshold of a row is that of a front of its sorted values. -/
theorem exists_cut {zs : List K} (h : zs ≠ []) : ∃ front back, (front ++ back).Perm zs ∧
    Cut front back ∧ front ≠ [] ∧ threshold zs = (front.sum - 1) / front.length := by
  have hfall := pairwise_sortFalling zs
  have hperm := sortFalling_perm zs
  obtain ⟨front, back, happend, hcut, hrun⟩ :=
    supportFrom_cuts (show ([] ++ [] ++ sortFalling zs).Pairwise (· ≥ ·) by simpa using hfall)
      ⟨by simp, by simp⟩
  simp only [List.nil_append] at happend
  have hne : front ++ back ≠ [] := by
    rw [happend]
    intro hnil
    exact h (hnil ▸ hperm).nil_eq.symm
  have hfront := hcut.front_ne_nil hne
  have hsupport : support (sortFalling zs) = .of front := hrun
  refine ⟨front, back, happend ▸ hperm, hcut, hfront, ?_⟩
  rw [threshold, hsupport]
  simp [Support.of, Nat.max_eq_left (List.length_pos_iff.2 hfront)]

/-- The positive parts of the lowered scores add up to one. -/
theorem proportions_project {zs : List K} (h : zs ≠ []) : Proportions (project zs) := by
  obtain ⟨front, back, hperm, hcut, hfront, htau⟩ := exists_cut h
  refine ⟨?_, ?_⟩
  · simp only [project, List.forall_mem_map, Exact.relu_eq_max]
    exact fun z _ => le_max_right _ 0
  have hlen : 0 < (front.length : K) := Nat.cast_pos.2 (List.length_pos_iff.2 hfront)
  have habove : ∀ z ∈ front, Scalar.relu (z - threshold zs) = z - threshold zs := by
    intro z hz
    rw [Exact.relu_eq_max, max_eq_left]
    rw [sub_nonneg, htau, div_le_iff₀ hlen]
    linarith [hcut.above z hz]
  have hbelow : ∀ z ∈ back, Scalar.relu (z - threshold zs) = 0 := by
    intro z hz
    rw [Exact.relu_eq_max, max_eq_right]
    rw [sub_nonpos, htau, le_div_iff₀ hlen]
    linarith [hcut.below z hz]
  have hsum : ∀ (ys : List K) (c : K), (ys.map (· - c)).sum = ys.sum - ys.length * c := by
    intro ys c
    induction ys with
    | nil => simp
    | cons y ys ih =>
      simp only [List.map_cons, List.sum_cons, List.length_cons, ih]
      push_cast
      ring
  calc (project zs).sum = ((front ++ back).map fun z => Scalar.relu (z - threshold zs)).sum :=
        (hperm.map _).sum_eq.symm
    _ = (front.map (· - threshold zs)).sum + (back.map fun _ => (0 : K)).sum := by
        rw [List.map_append, List.sum_append, List.map_congr_left habove,
          List.map_congr_left hbelow]
    _ = front.sum - front.length * threshold zs := by rw [hsum]; simp
    _ = 1 := by rw [htau, mul_div_cancel₀ _ hlen.ne']; ring

/-! Pruning. -/

def keptSum (epsilon : K) (ps : List K) : K := (ps.filter fun p => decide (epsilon ≤ p)).sum

theorem keptSum_cons (epsilon q : K) (qs : List K) :
    keptSum epsilon (q :: qs) = (if epsilon ≤ q then q else 0) + keptSum epsilon qs := by
  by_cases hq : epsilon ≤ q <;> simp [keptSum, hq]

/-- With nothing left the proportions stay as they are, so they need no guard. -/
theorem prune_of_none_kept (epsilon : K) {ps : List K} (h : Proportions ps)
    (hkept : ¬ 0 < keptSum epsilon ps) : prune epsilon ps = ps := by
  rw [keptSum] at hkept
  unfold prune
  simp only [Exact.runningSum_eq_sum, if_neg hkept, h.sum_eq_one, Exact.larger_eq_max,
    max_eq_left denominatorGuard_le_one, div_one, List.map_id']

theorem prune_of_kept (epsilon : K) {ps : List K} (hkept : 0 < keptSum epsilon ps) :
    prune epsilon ps = ps.map fun p => if epsilon ≤ p then p / keptSum epsilon ps else 0 := by
  rw [keptSum] at hkept ⊢
  unfold prune
  simp only [Exact.runningSum_eq_sum, if_pos hkept]

theorem proportions_prune (epsilon : K) {ps : List K} (h : Proportions ps) :
    Proportions (prune epsilon ps) := by
  by_cases hkept : 0 < keptSum epsilon ps
  · have hsum : ∀ (qs : List K) (c : K), (qs.map fun p => if epsilon ≤ p then p / c else 0).sum =
        keptSum epsilon qs / c := by
      intro qs c
      induction qs with
      | nil => simp [keptSum]
      | cons q qs ih =>
        rw [List.map_cons, List.sum_cons, ih, keptSum_cons, add_div, ite_div, zero_div]
    rw [prune_of_kept epsilon hkept]
    refine ⟨?_, by rw [hsum, div_self hkept.ne']⟩
    simp only [List.forall_mem_map]
    intro p hp
    split_ifs
    · exact div_nonneg (h.nonneg p hp) hkept.le
    · exact le_rfl
  · rw [prune_of_none_kept epsilon h hkept]
    exact h

theorem proportions_sparsemax (epsilon : K) {zs : List K} (h : zs ≠ []) :
    Proportions (sparsemax epsilon zs) := proportions_prune epsilon (proportions_project h)

end NeuralFlow.Simplex
