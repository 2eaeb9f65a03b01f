import Mathlib
import NeuralFlow.Flow
import NeuralFlow.Proofs.Single.Range

/-! What two values have in common, in single precision. Half of their sum less their distance is close to
the smaller one while the two are of similar size. A value is lost in the sum with a much larger one, and
then the two have nothing in common; and where the sum is infinite, so is what they have in common. -/

namespace NeuralFlow.Single

open Binary

variable {x y a b c : Float32} {v : ℚ} {k : ℤ}

/-! Values that are lost in a sum. -/

/-- Numbers of some size are whole multiples of a unit. -/
theorem exists_multiple_of_le (hx : IsNumber x) (hk : 2 ^ k ≤ |val x|) :
    ∃ l : ℤ, val x = l * 2 ^ (k - 23) :=
  exists_multiple hx fun m q hc heq => by
    have hlt := (zpow_lt_zpow_iff_right₀ one_lt_two).1 ((hk.trans_eq heq).trans_lt hc.value_lt)
    rw [show Float.Model.Format.binary32.mantissaBits = 24 from rfl] at hlt
    omega

/-- Numbers that differ do so by more than a small part. -/
theorem lt_distance (hx : IsNumber x) (hy : IsNumber y) (hpos : 0 < |val y|) (hne : val x ≠ val y) :
    |val y| < 2 ^ 25 * |val x - val y| := by
  obtain ⟨k, hle, hlt⟩ := exists_mem_Ico_zpow hpos (one_lt_two (α := ℚ))
  have hhalf : (2 : ℚ) ^ k = 2 * 2 ^ (k - 1) := by
    rw [← zpow_one_add₀ two_ne_zero]
    congr 1
    ring
  have hunit : (2 : ℚ) ^ (k + 1) = 2 ^ 25 * 2 ^ (k - 1 - 23) := by
    rw [← zpow_natCast, ← zpow_add₀ two_ne_zero]
    congr 1
    push_cast
    ring
  have hpower : (0 : ℚ) < 2 ^ (k - 1) := by positivity
  rcases le_or_gt (2 ^ (k - 1)) |val x| with hlarge | hsmall
  · obtain ⟨l, hl⟩ := exists_multiple_of_le hx hlarge
    obtain ⟨m, hm⟩ := exists_multiple_of_le hy (k := k - 1) (by linarith)
    have hone : (1 : ℚ) ≤ |(l - m : ℤ)| := by
      have hdiff : l - m ≠ 0 := fun h => hne (by rw [hl, hm, sub_eq_zero.1 h])
      exact_mod_cast Int.one_le_abs hdiff
    have hunitPos : (0 : ℚ) < 2 ^ (k - 1 - 23) := by positivity
    have hstep : |val x - val y| = |(l - m : ℤ)| * 2 ^ (k - 1 - 23) := by
      rw [hl, hm, ← sub_mul, abs_mul, abs_of_pos hunitPos]
      push_cast
      rfl
    have hle := le_mul_of_one_le_left hunitPos.le hone
    linarith
  · have htri := abs_sub_abs_le_abs_sub (val y) (val x)
    rw [abs_sub_comm] at htri
    linarith

/-- Beside a number that is much larger than what is added, nothing of that is left. -/
theorem Rounds.val_eq_of_near (h : Rounds v x) (hy : IsNumber y) (hv : 2 ^ 26 * |v - val y| ≤ |val y|) :
    val x = val y := by
  rcases (abs_nonneg (val y)).eq_or_lt with hzero | hpos
  · rw [← hzero] at hv
    have heq : v = val y := sub_eq_zero.1 (abs_nonpos_iff.1 (by linarith))
    exact (heq ▸ h).val_eq hy
  · by_contra hne
    have hnear : |val x - v| ≤ |val y - v| := h.near _ (proper_iff.2 hy)
    have htri := abs_sub_le (val x) v (val y)
    rw [abs_sub_comm (val y)] at hnear
    linarith [lt_distance h.isNumber hy hpos hne]

/-! The common part. -/

theorem exists_val_eq_neg (hy : IsNumber y) : ∃ z, IsNumber z ∧ val z = -val y := by
  have hproper := (proper_iff.2 hy).neg
  have hunpack : (Float32.ofModel (.pack y.toModel.unpack.neg)).toModel.unpack = y.toModel.unpack.neg :=
    hproper.unpack_pack
  exact ⟨_, proper_iff.1 (hunpack.symm ▸ hproper), by rw [val, hunpack, value_neg, val]⟩

/-- Rounding does not lead past a number in size. -/
theorem Rounds.abs_val_le (h : Rounds v x) (hy : IsNumber y) (hv : |v| ≤ val y) : |val x| ≤ val y := by
  obtain ⟨z, hz, hval⟩ := exists_val_eq_neg hy
  have hneg := h.le_val hz (hval.trans_le (neg_le_of_abs_le hv))
  exact abs_le.2 ⟨hval ▸ hneg, h.val_le hy (le_of_abs_le hv)⟩

section Common

variable (ha : a.isFinite = true) (ha0 : 0 ≤ val a) (hb : b.isFinite = true) (hb0 : 0 ≤ val b)

include ha ha0 hb hb0

/-- The distance of two values is finite and no larger than their sum. -/
theorem distance_spec : (a - b).abs.isFinite = true ∧ val (a - b).abs = |val (a - b)| ∧
    val (a - b).abs ≤ val (a + b) := by
  have hnumber := isNumber_of_isFinite ha
  have hnumber' := isNumber_of_isFinite hb
  obtain ⟨hsum, hle, hle'⟩ := NonNeg.add ⟨hnumber, ha0⟩ ⟨hnumber', hb0⟩
  have hrounds := rounds_sub ha hb
  have hval := val_abs hrounds.isNumber
  have hmax : |val (a - b)| < 2 ^ 128 ∧ |val a - val b| ≤ val (a + b) := by
    rcases le_total (val a) (val b) with h | h
    · have hdist : |val a - val b| ≤ val b := by
        rw [abs_of_nonpos (by linarith)]
        linarith
      exact ⟨(hrounds.abs_val_le hnumber' hdist).trans_lt (val_lt hb), hdist.trans hle'⟩
    · have hdist : |val a - val b| ≤ val a := by
        rw [abs_of_nonneg (by linarith)]
        linarith
      exact ⟨(hrounds.abs_val_le hnumber hdist).trans_lt (val_lt ha), hdist.trans hle⟩
  refine ⟨isFinite_iff.2 ⟨isNumber_abs.2 hrounds.isNumber, ?_⟩, hval, ?_⟩
  · rw [hval, abs_abs]
    exact hmax.1
  · rw [hval]
    exact hrounds.abs_val_le hsum hmax.2

/-- Twice the common part, as computed. -/
theorem computed_overlap : Computed ((a + b).isFinite = true) 0 (val (a + b) - val (a - b).abs)
    (a + b - (a - b).abs) := by
  obtain ⟨hfinite, -, hle⟩ := distance_spec ha ha0 hb hb0
  have hsum := NonNeg.add ⟨isNumber_of_isFinite ha, ha0⟩ ⟨isNumber_of_isFinite hb, hb0⟩
  exact computed_sub hsum.1 hfinite hle

theorem computed_common : Computed ((a + b - (a - b).abs).isFinite = true) (1 / 2 ^ 150)
    (1 / 2 * val (a + b - (a - b).abs)) (Flow.common a b) :=
  computed_half (computed_overlap ha ha0 hb hb0).nonneg

/-- The common part of two values with an infinite sum is infinite. -/
theorem val_common_of_infinite (hinf : (a + b).isInf = true) : val (Flow.common a b) = 2 ^ 128 := by
  have hcommon := computed_common ha ha0 hb hb0
  have hnot : ¬ (Flow.common a b).isFinite = true := fun h =>
    (isFinite_iff.1 ((computed_overlap ha ha0 hb hb0).operands (hcommon.operands h))).2.ne
      (isInf_iff.1 hinf).2
  rw [isFinite_iff_lt hcommon.nonneg, not_lt] at hnot
  exact (val_le_limit hcommon.nonneg.1).antisymm hnot

/-- With a finite sum the sum less the distance is near twice the smaller value. -/
theorem overlap_error (hfinite : (a + b).isFinite = true) :
    (a + b - (a - b).abs).isFinite = true ∧
      val (a + b - (a - b).abs) ≤ 1001 / 1000 * (val a + val b) ∧
      |val (a + b - (a - b).abs) - 2 * min (val a) (val b)| ≤ 3001 / 1000 * ((val a + val b) / 2 ^ 24) := by
  have hnumber := isNumber_of_isFinite ha
  have hnumber' := isNumber_of_isFinite hb
  obtain ⟨hfd, hd, hdle⟩ := distance_spec ha ha0 hb hb0
  have hd0 : 0 ≤ val (a - b).abs := hd ▸ abs_nonneg _
  have hsum := rounds_add ha hb
  have hw := hsum.le_limit hfinite
  have hsumError := hsum.error_le_of_units (units_add hnumber hnumber') hw
    (abs_of_nonneg (add_nonneg ha0 hb0)).le
  have hdiffError := (rounds_sub ha hb).error_le_of_units (units_sub hnumber hnumber') hw
    (abs_le.2 ⟨by linarith, by linarith⟩)
  have hdistError := (abs_abs_sub_abs_le_abs_sub _ _).trans hdiffError
  rw [← hd] at hdistError
  have hoverlap := rounds_sub hfinite hfd
  have hsize : |val (a + b) - val (a - b).abs| ≤ val (a + b) := abs_le.2 ⟨by linarith, by linarith⟩
  have hoverlapError := hoverlap.error_le_of_units (units_sub hsum.isNumber (isNumber_of_isFinite hfd))
    (val_le_limit hsum.isNumber) hsize
  have hoverlapSize := hoverlap.abs_val_le hsum.isNumber hsize
  have hmin : 2 * min (val a) (val b) = val a + val b - |val a - val b| := by
    linarith [min_add_max (val a) (val b), max_sub_min_eq_abs' (val a) (val b)]
  have habs := abs_le.1 hsumError
  have habs' := abs_le.1 hdistError
  have habs'' := abs_le.1 hoverlapError
  refine ⟨isFinite_iff.2 ⟨hoverlap.isNumber, hoverlapSize.trans_lt (val_lt hfinite)⟩, ?_, ?_⟩
  · linarith [le_of_abs_le hoverlapSize]
  · rw [hmin, abs_le]
    constructor <;> linarith

/-- With a finite sum the common part is off by a small part of the sum. -/
theorem common_error (hfinite : (a + b).isFinite = true) :
    (Flow.common a b).isFinite = true ∧
      |val (Flow.common a b) - min (val a) (val b)| ≤
        1001 / 1000 * ((val a + val b) / 2 ^ 23) + 1 / 2 ^ 150 := by
  obtain ⟨hft, hle, herror⟩ := overlap_error ha ha0 hb hb0 hfinite
  have hoverlap0 := (computed_overlap ha ha0 hb hb0).nonneg.2
  have hlt := val_lt hft
  obtain ⟨hhalf, hval⟩ := val_half
  have hcommon : Rounds (1 / 2 * val (a + b - (a - b).abs)) (Flow.common a b) :=
    hval ▸ rounds_mul hhalf hft
  have hsize : |1 / 2 * val (a + b - (a - b).abs)| ≤ 1 / 2 * val (a + b - (a - b).abs) :=
    (abs_of_nonneg (by linarith)).le
  have hcommonError := hcommon.error_le_add (by linarith) hsize
  have hcommonSize := hcommon.abs_val_le (isNumber_of_isFinite hft) (hsize.trans (by linarith))
  refine ⟨isFinite_iff.2 ⟨hcommon.isNumber, hcommonSize.trans_lt hlt⟩, ?_⟩
  have habs := abs_le.1 herror
  have habs' := abs_le.1 hcommonError
  rw [abs_le]
  constructor <;> linarith

/-- Of two values of which one is much smaller the sum and the distance are the other one. -/
theorem sum_eq_distance (hsmall : 2 ^ 26 * min (val a) (val b) ≤ max (val a) (val b)) :
    val (a + b) = max (val a) (val b) ∧ val (a - b).abs = max (val a) (val b) := by
  have hnumber := isNumber_of_isFinite ha
  have hnumber' := isNumber_of_isFinite hb
  obtain ⟨-, hd, -⟩ := distance_spec ha ha0 hb hb0
  rw [hd]
  rcases le_total (val a) (val b) with h | h
  · obtain ⟨z, hz, hval⟩ := exists_val_eq_neg hnumber'
    rw [min_eq_left h, max_eq_right h] at hsmall
    rw [max_eq_right h]
    have hdiff : val (a - b) = val z := (rounds_sub ha hb).val_eq_of_near hz (by
      rwa [hval, sub_neg_eq_add, sub_add_cancel, abs_neg, abs_of_nonneg ha0, abs_of_nonneg hb0])
    refine ⟨(rounds_add ha hb).val_eq_of_near hnumber' ?_, ?_⟩
    · rwa [add_sub_cancel_right, abs_of_nonneg ha0, abs_of_nonneg hb0]
    · rw [hdiff, hval, abs_neg, abs_of_nonneg hb0]
  · rw [min_eq_right h, max_eq_left h] at hsmall
    rw [max_eq_left h]
    have hdiff : val (a - b) = val a := (rounds_sub ha hb).val_eq_of_near hnumber (by
      rwa [sub_sub_cancel_left, abs_neg, abs_of_nonneg hb0, abs_of_nonneg ha0])
    refine ⟨(rounds_add ha hb).val_eq_of_near hnumber ?_, ?_⟩
    · rwa [add_sub_cancel_left, abs_of_nonneg hb0, abs_of_nonneg ha0]
    · rw [hdiff, abs_of_nonneg ha0]

/-- A value has nothing in common with one that is much smaller or larger. -/
theorem val_common_eq_zero (hsmall : 2 ^ 26 * min (val a) (val b) ≤ max (val a) (val b)) :
    (Flow.common a b).isFinite = true ∧ val (Flow.common a b) = 0 := by
  obtain ⟨hsum, hdist⟩ := sum_eq_distance ha ha0 hb hb0 hsmall
  obtain ⟨hfd, -, -⟩ := distance_spec ha ha0 hb hb0
  have hfs : (a + b).isFinite = true := isFinite_iff.2 ⟨(rounds_add ha hb).isNumber, by
    rw [hsum, ← hdist]
    exact (isFinite_iff.1 hfd).2⟩
  have hoverlap := rounds_sub hfs hfd
  rw [hsum, hdist, sub_self, ← val_zero] at hoverlap
  have hval := hoverlap.val_eq isNumber_zero
  have hfinite : (a + b - (a - b).abs).isFinite = true :=
    isFinite_iff.2 ⟨hoverlap.isNumber, by rw [hval, val_zero]; norm_num⟩
  exact val_mul_eq_zero val_half.1 hfinite hval

end Common

/-! What is left without the common part. -/

/-- A finite number less one that is not negative. -/
theorem val_sub_le (ha : a.isFinite = true) (hc : NonNeg c) :
    IsNumber (a - c) ∧ val (a - c) ≤ val a ∧ (val c = 2 ^ 128 → val (a - c) ≤ 0) := by
  have hlt := val_lt ha
  by_cases hfinite : c.isFinite = true
  · have hrounds := rounds_sub ha hfinite
    exact ⟨hrounds.isNumber, hrounds.val_le (isNumber_of_isFinite ha) (sub_le_self _ hc.2),
      fun h => absurd h (val_lt hfinite).ne⟩
  · rw [isFinite_iff_lt hc, not_lt] at hfinite
    rcases sub_cases (isNumber_of_isFinite ha) hc.1 with ⟨-, fc, -⟩ | ⟨-, -, heq⟩ |
      ⟨hnumber, ⟨-, hlt'⟩ | ⟨hval, -⟩⟩
    · exact absurd (val_lt fc) hfinite.not_gt
    · exact absurd (heq ▸ hlt) hfinite.not_gt
    · exact absurd (hlt'.trans hlt) hfinite.not_gt
    · rw [hval]
      exact ⟨hnumber, (abs_le.1 (abs_val_le (isNumber_of_isFinite ha))).1, fun _ => by norm_num⟩

section Left

variable (ha : a.isFinite = true) (ha0 : 0 ≤ val a) (hb : b.isFinite = true) (hb0 : 0 ≤ val b)

include ha ha0 hb hb0

theorem val_left : val (Scalar.relu (a - Flow.common a b)) = max (val (a - Flow.common a b)) 0 :=
  val_relu (val_sub_le ha (computed_common ha ha0 hb hb0).nonneg).1

theorem val_left_le : val (Scalar.relu (a - Flow.common a b)) ≤ val a := by
  rw [val_left ha ha0 hb hb0]
  exact max_le (val_sub_le ha (computed_common ha ha0 hb hb0).nonneg).2.1 ha0

theorem val_left_of_infinite (hinf : (a + b).isInf = true) :
    val (Scalar.relu (a - Flow.common a b)) = 0 := by
  rw [val_left ha ha0 hb hb0]
  exact max_eq_right ((val_sub_le ha (computed_common ha ha0 hb hb0).nonneg).2.2
    (val_common_of_infinite ha ha0 hb hb0 hinf))

theorem val_left_eq (hsmall : 2 ^ 26 * min (val a) (val b) ≤ max (val a) (val b)) :
    val (Scalar.relu (a - Flow.common a b)) = val a := by
  obtain ⟨hfinite, hzero⟩ := val_common_eq_zero ha ha0 hb hb0 hsmall
  have hrounds := rounds_sub ha hfinite
  rw [hzero, sub_zero] at hrounds
  rw [val_left ha ha0 hb hb0, hrounds.val_eq (isNumber_of_isFinite ha), max_eq_left ha0]

/-- Of the smaller value little is left against the sum. -/
theorem val_left_small (hle : val a ≤ val b) : val (Scalar.relu (a - Flow.common a b)) ≤
    1002 / 1000 * ((val a + val b) / 2 ^ 23) + 1 / 2 ^ 149 := by
  have hbound : 0 ≤ 1002 / 1000 * ((val a + val b) / 2 ^ 23) + 1 / 2 ^ 149 := by positivity
  have hsum := NonNeg.add ⟨isNumber_of_isFinite ha, ha0⟩ ⟨isNumber_of_isFinite hb, hb0⟩
  have hnonneg : NonNeg (a + b) := ⟨hsum.1, ha0.trans hsum.2.1⟩
  by_cases hfinite : (a + b).isFinite = true
  · obtain ⟨hfc, herror⟩ := common_error ha ha0 hb hb0 hfinite
    rw [min_eq_left hle] at herror
    rw [val_left ha ha0 hb hb0]
    refine max_le ?_ hbound
    have hrounds := rounds_sub ha hfc
    rcases le_total (val a) (val (Flow.common a b)) with h | h
    · exact (hrounds.nonpos (sub_nonpos.2 h)).trans hbound
    · have hclose := hrounds.close_of_units (units_sub (isNumber_of_isFinite ha)
        (isNumber_of_isFinite hfc)) (sub_nonneg.2 h)
      have hupper := hclose.upper
      linarith [(abs_le.1 herror).1]
  · rw [isFinite_iff_lt hnonneg, not_lt] at hfinite
    rw [val_left_of_infinite ha ha0 hb hb0
      ((isInf_iff_eq hnonneg).2 ((val_le_limit hsum.1).antisymm hfinite))]
    exact hbound

end Left

end NeuralFlow.Single
