import Mathlib
import NeuralFlow.Proofs.Simplex
import NeuralFlow.Proofs.Single.Proportions

/-! Thresholds in single precision. Each step of the search for the support adds one rounding error. As
long as the scores are moderate for their number these errors stay below the distance that the exact
threshold keeps from the largest score, so the largest score always has a positive part. -/

namespace NeuralFlow.Single

open Binary Simplex

variable {n : ℕ} {B T v : ℚ} {x z : Float32} {zs : List Float32}

/-- A bound for the size of a number of scores that makes rounding harmless. -/
structure Moderate (n : ℕ) (B : ℚ) : Prop where
  one_le : 1 ≤ B
  pos : 1 ≤ n
  le : (n : ℚ) ^ 2 * B ≤ 2 ^ 20

def slack (n : ℕ) (B : ℚ) : ℚ := n * B / 2 ^ 22

namespace Moderate

variable (h : Moderate n B)

include h

theorem one_le_count : (1 : ℚ) ≤ n := by exact_mod_cast h.pos

theorem product_le : n * B ≤ 2 ^ 20 := by
  have hn := h.one_le_count
  have hB := h.one_le
  nlinarith [h.le, mul_le_mul_of_nonneg_right hn (by positivity : (0 : ℚ) ≤ n * B)]

theorem count_le_product : (n : ℚ) ≤ n * B :=
  le_mul_of_one_le_right (by positivity) h.one_le

theorem bound_le_product : B ≤ n * B :=
  le_mul_of_one_le_left (zero_le_one.trans h.one_le) h.one_le_count

theorem slack_nonneg : 0 ≤ slack n B := by
  have hB := zero_le_one.trans h.one_le
  unfold slack
  positivity

theorem slack_le : slack n B ≤ 1 / 4 := by
  rw [slack, div_le_iff₀ (by norm_num)]
  linarith [h.product_le]

/-- Three errors are less than the share of one score. -/
theorem slack_lt : 3 * slack n B < 1 / n := by
  rw [slack, lt_div_iff₀ (one_pos.trans_le h.one_le_count)]
  have hle := h.le
  linarith

theorem error_le (hr : Rounds v x) (hv : |v| ≤ 4 * (n * B)) : |val x - v| ≤ slack n B := by
  have hprod := h.product_le
  have hone := h.one_le.trans h.bound_le_product
  have hlow : (2 : ℚ) ^ (-125 : ℤ) ≤ 4 * (n * B) := by
    refine le_trans ?_ (hone.trans (by linarith : n * B ≤ 4 * (n * B)))
    norm_num
  have herror := hr.error_le hlow (by linarith) hv
  refine herror.trans_eq ?_
  rw [slack]
  ring

end Moderate

/-- Whole numbers that are not too large are exact. -/
theorem val_natCast {k : ℕ} (hk : k ≤ 2 ^ 24) : (ofNat k).isFinite = true ∧ val (ofNat k) = k := by
  have hrounds : Rounds ((k : ℤ) * 2 ^ (0 : ℤ)) (ofNat k) :=
    nearest_normalize exponentBits_le (k : ℤ) 0 .positive
  obtain ⟨y, hy, hval⟩ := exists_whole exponentBits_le (k := (k : ℤ)) (t := 0)
    (by rw [abs_of_nonneg (by positivity)]; exact_mod_cast hk) (by decide) (by decide)
  have heq : val (ofNat k) = k := by
    rw [← hval] at hrounds
    refine (Nearest.value_eq hrounds hy).trans (hval.trans ?_)
    rw [zpow_zero, mul_one, Int.cast_natCast]
  refine ⟨isFinite_iff.2 ⟨hrounds.isNumber, ?_⟩, heq⟩
  have hlt : (k : ℚ) ≤ 2 ^ 24 := by exact_mod_cast hk
  rw [heq, abs_of_nonneg (by positivity)]
  exact hlt.trans_lt (by norm_num)

/-! The search. -/

/-- What is known of some of `n` scores of size `B`, none of which is above `T`, and their computed
sum. -/
structure Within (n : ℕ) (B T : ℚ) (s : Support Float32) : Prop where
  count_le : s.count ≤ n
  number : IsNumber s.sum
  size : |val s.sum| ≤ s.count * (2 * B)
  le : val s.sum ≤ s.count * (T + slack n B)

namespace Within

variable {s : Support Float32}

theorem size_le (h : Moderate n B) (hs : Within n B T s) : |val s.sum| ≤ 2 * (n * B) := by
  have hcount : (s.count : ℚ) ≤ n := by exact_mod_cast hs.count_le
  have hB := zero_le_one.trans h.one_le
  calc |val s.sum| ≤ s.count * (2 * B) := hs.size
    _ ≤ n * (2 * B) := by gcongr
    _ = 2 * (n * B) := by ring

theorem isFinite (h : Moderate n B) (hs : Within n B T s) : s.sum.isFinite = true := by
  have hprod := h.product_le
  exact isFinite_iff.2 ⟨hs.number, (hs.size_le h).trans_lt (by linarith)⟩

end Within

section Search

variable (h : Moderate n B)

include h

theorem isFinite_of_le (hz : IsNumber z) (hB : |val z| ≤ B) : z.isFinite = true := by
  have hprod := h.product_le
  exact isFinite_iff.2 ⟨hz, (hB.trans h.bound_le_product).trans_lt (by linarith)⟩

/-- Adding one more score adds one more error. -/
theorem Within.step {s : Support Float32} (hs : Within n B T s) (hlt : s.count < n) (hz : IsNumber z)
    (hB : |val z| ≤ B) (hT : val z ≤ T) : Within n B T ⟨s.count + 1, s.sum + z⟩ := by
  have hrounds := rounds_add (hs.isFinite h) (isFinite_of_le h hz hB)
  have hsize := hs.size_le h
  have hprod := h.bound_le_product
  have hone := h.one_le
  have hslack := h.slack_le
  have hsum : |val s.sum + val z| ≤ s.count * (2 * B) + B := (abs_add_le _ _).trans (add_le_add hs.size hB)
  have herror := h.error_le hrounds ((abs_add_le _ _).trans (by linarith))
  refine ⟨hlt, hrounds.isNumber, ?_, ?_⟩
  · have htri := abs_sub_abs_le_abs_sub (val (s.sum + z)) (val s.sum + val z)
    push_cast
    linarith
  · have hle := hs.le
    have := (abs_le.1 herror).2
    push_cast
    linarith

/-- The search ends with at least one score. -/
theorem within_supportFrom {rest : List Float32} {seen best : Support Float32}
    (hseen : Within n B T seen) (hbest : Within n B T best ∧ 1 ≤ best.count)
    (hlen : seen.count + rest.length ≤ n)
    (hrest : ∀ z ∈ rest, IsNumber z ∧ |val z| ≤ B ∧ val z ≤ T) :
    Within n B T (supportFrom seen best rest) ∧ 1 ≤ (supportFrom seen best rest).count := by
  induction rest generalizing seen best with
  | nil => exact hbest
  | cons z rest ih =>
    obtain ⟨⟨hz, hB, hT⟩, hrest⟩ := List.forall_mem_cons.1 hrest
    rw [List.length_cons] at hlen
    have hnow := hseen.step h (by omega) hz hB hT
    refine ih hnow ?_ (by simp only; omega) hrest
    split_ifs
    · exact ⟨hnow, Nat.le_add_left _ _⟩
    · exact hbest

/-- The first score is always admitted: the sum and the product with one are exact, and the error of the
last sum is less than one. -/
theorem admits_first (hz : IsNumber z) (hB : |val z| ≤ B) : 0 + z < 1 + ofNat 1 * z := by
  have hfinite := isFinite_of_le h hz hB
  have hzero := rounds_add (x := 0) rfl hfinite
  rw [val_zero, zero_add] at hzero
  have hcount := val_natCast (k := 1) (by norm_num)
  have htimes := rounds_mul hcount.1 hfinite
  rw [hcount.2, Nat.cast_one, one_mul] at htimes
  have hproduct := htimes.val_eq hz
  have hone := rounds_add (x := 1) rfl
    (isFinite_iff.2 ⟨htimes.isNumber, hproduct ▸ (isFinite_iff.1 hfinite).2⟩)
  rw [val_one, hproduct] at hone
  have habs := (abs_add_le 1 (val z)).trans_eq (by rw [abs_one])
  have herror := h.error_le hone (by linarith [h.one_le, h.bound_le_product])
  refine lt_iff.2 ⟨⟨hzero.isNumber, hone.isNumber⟩, ?_⟩
  rw [hzero.val_eq hz]
  linarith [(abs_le.1 herror).1, h.slack_le]

theorem within_support (hlen : zs.length ≤ n) (hne : zs ≠ [])
    (hzs : ∀ z ∈ zs, IsNumber z ∧ |val z| ≤ B ∧ val z ≤ T) :
    Within n B T (support zs) ∧ 1 ≤ (support zs).count := by
  obtain ⟨z, rest, rfl⟩ := List.exists_cons_of_ne_nil hne
  obtain ⟨⟨hz, hB, hT⟩, hrest⟩ := List.forall_mem_cons.1 hzs
  have hnone : Within n B T ⟨0, 0⟩ := ⟨Nat.zero_le _, isNumber_zero, by simp, by simp⟩
  have hone := hnone.step h h.pos hz hB hT
  have hfirst : support (z :: rest) = supportFrom ⟨0 + 1, 0 + z⟩ ⟨0 + 1, 0 + z⟩ rest :=
    congrArg (supportFrom _ · rest) (if_pos (admits_first h hz hB))
  rw [hfirst]
  refine within_supportFrom h hone ⟨hone, le_rfl⟩ ?_ hrest
  rw [List.length_cons] at hlen
  simp only
  omega

/-- One less than the sum. -/
theorem Within.sum_sub_one {s : Support Float32} (hs : Within n B T s) :
    (s.sum - 1).isFinite = true ∧ |val (s.sum - 1)| ≤ 3 * (n * B) + 1 / 4 ∧
      val (s.sum - 1) ≤ s.count * (T + slack n B) - 1 + slack n B := by
  have hrounds := rounds_sub (y := 1) (hs.isFinite h) rfl
  rw [val_one] at hrounds
  have hprod := h.one_le.trans h.bound_le_product
  have hsize : |val s.sum - 1| ≤ 2 * (n * B) + 1 :=
    (abs_sub _ _).trans (by rw [abs_one]; linarith [hs.size_le h])
  have herror := h.error_le hrounds (by linarith)
  have hsize' : |val (s.sum - 1)| ≤ 3 * (n * B) + 1 / 4 := by
    have := abs_sub_abs_le_abs_sub (val (s.sum - 1)) (val s.sum - 1)
    linarith [h.slack_le]
  exact ⟨isFinite_iff.2 ⟨hrounds.isNumber, hsize'.trans_lt (by linarith [h.product_le])⟩, hsize',
    by linarith [hs.le, (abs_le.1 herror).2]⟩

/-- The mean of some scores, lowered by their share, stays below the largest score. -/
theorem Within.share_lt {s : Support Float32} (hs : Within n B T s) (hcount : 1 ≤ s.count) :
    IsNumber ((s.sum - 1) / ofNat s.count) ∧ |val ((s.sum - 1) / ofNat s.count)| ≤ 4 * (n * B) ∧
      val ((s.sum - 1) / ofNat s.count) < T := by
  obtain ⟨hfinite, hsize, hless⟩ := hs.sum_sub_one h
  have hprod := h.count_le_product
  have hn := h.one_le_count
  have hc : (1 : ℚ) ≤ s.count := by exact_mod_cast hcount
  have hcn : (s.count : ℚ) ≤ n := by exact_mod_cast hs.count_le
  have hexact := val_natCast (k := s.count) (by
    have hle : (s.count : ℚ) ≤ 2 ^ 24 := (hcn.trans hprod).trans (h.product_le.trans (by norm_num))
    exact_mod_cast hle)
  have hrounds := rounds_div hfinite hexact.1 (by rw [hexact.2]; linarith)
  rw [hexact.2] at hrounds
  have hquotient : |val (s.sum - 1) / s.count| ≤ 3 * (n * B) + 1 / 4 := by
    rw [abs_div, abs_of_pos (one_pos.trans_le hc)]
    exact (div_le_self (abs_nonneg _) hc).trans hsize
  have herror := h.error_le hrounds (by linarith)
  refine ⟨hrounds.isNumber, ?_, ?_⟩
  · have := abs_sub_abs_le_abs_sub (val ((s.sum - 1) / ofNat s.count)) (val (s.sum - 1) / s.count)
    linarith [h.slack_le]
  · have hmean : val (s.sum - 1) / s.count ≤ T + 2 * slack n B - 1 / n :=
      calc val (s.sum - 1) / s.count ≤ (s.count * (T + slack n B) - 1 + slack n B) / s.count := by gcongr
        _ = T + slack n B + slack n B / s.count - 1 / s.count := by field_simp; ring
        _ ≤ T + slack n B + slack n B - 1 / n := by
            gcongr
            exact div_le_self h.slack_nonneg hc
        _ = T + 2 * slack n B - 1 / n := by ring
    linarith [(abs_le.1 herror).2, h.slack_lt]

section Scores

variable (hlen : zs.length ≤ n) (hne : zs ≠ []) (hzs : ∀ z ∈ zs, IsNumber z ∧ |val z| ≤ B)

include hlen hne hzs

theorem support_sortFalling (hT : ∀ z ∈ zs, val z ≤ T) :
    Within n B T (support (sortFalling zs)) ∧ 1 ≤ (support (sortFalling zs)).count := by
  have hperm := sortFalling_perm zs
  have hsorted : sortFalling zs ≠ [] := fun hnil => hne (hnil ▸ hperm).nil_eq.symm
  exact within_support h (hperm.length_eq.trans_le hlen) hsorted fun z hz =>
    have hz := hperm.mem_iff.1 hz
    ⟨(hzs z hz).1, (hzs z hz).2, hT z hz⟩

/-- The threshold stays below the largest score. -/
theorem threshold_spec (hT : ∀ z ∈ zs, val z ≤ T) :
    IsNumber (threshold zs) ∧ |val (threshold zs)| ≤ 4 * (n * B) ∧ val (threshold zs) < T := by
  obtain ⟨hs, hcount⟩ := support_sortFalling h hlen hne hzs hT
  obtain ⟨s, hdef⟩ : ∃ s, support (sortFalling zs) = s := ⟨_, rfl⟩
  have htau : threshold zs = (s.sum - 1) / ofNat (max s.count 1) := by
    rw [threshold, hdef]
    rfl
  rw [hdef] at hs hcount
  rw [htau, max_eq_left hcount]
  exact hs.share_lt h hcount

theorem exists_threshold_lt : ∃ z ∈ zs, threshold zs < z := by
  obtain ⟨x, xs, rfl⟩ := List.exists_cons_of_ne_nil hne
  obtain ⟨hmem, hle⟩ := maximum_spec fun z hz => (hzs z hz).1
  obtain ⟨hnumber, -, hlt⟩ := threshold_spec h hlen hne hzs hle
  exact ⟨_, hmem, lt_iff.2 ⟨⟨hnumber, (hzs _ hmem).1⟩, hlt⟩⟩

/-- The positive part of a moderate score is moderate. -/
theorem val_part_le {z : Float32} (hz : z ∈ zs) :
    val (Scalar.relu (z - threshold zs)) ≤ 2 ^ (24 : ℤ) := by
  obtain ⟨hnumber, hsize, -⟩ := threshold_spec h hlen hne hzs fun w hw => le_of_abs_le (hzs w hw).2
  obtain ⟨hz, hB⟩ := hzs z hz
  have hprod := h.product_le
  have hone := h.bound_le_product
  have htau : (threshold zs).isFinite = true :=
    isFinite_iff.2 ⟨hnumber, hsize.trans_lt (by linarith)⟩
  have hrounds := rounds_sub (isFinite_of_le h hz hB) htau
  obtain ⟨y, hy, hval⟩ := exists_val_eq_power (k := 24) (by norm_num) (by norm_num)
  rw [val_relu hrounds.isNumber, ← hval]
  refine max_le (hrounds.val_le hy ?_) (hval ▸ by positivity)
  rw [hval]
  norm_num
  linarith [(abs_le.1 hsize).1, (abs_le.1 hB).2]

theorem isFinite_kept (epsilon : Float32) : (kept epsilon (project zs)).isFinite = true := by
  have hparts : ∀ p ∈ (project zs).filter (fun p => decide (epsilon ≤ p)), NonNeg p :=
    nonNeg_filter (nonNeg_project zs)
  have hsmall : ∀ p ∈ project zs, val p ≤ 2 ^ (24 : ℤ) := by
    simp only [project, List.forall_mem_map]
    exact fun z hz => val_part_le h hlen hne hzs hz
  have hsum := runningSum_le_power hparts (by norm_num) fun p hp => hsmall p (List.mem_filter.1 hp).1
  obtain ⟨hnumber, hpos⟩ := nonNeg_runningSum hparts
  refine isFinite_iff.2 ⟨hnumber, ?_⟩
  rw [kept, abs_of_nonneg hpos]
  exact hsum.trans_lt (by norm_num)

end Scores

end Search

end NeuralFlow.Single
