import Mathlib
import NeuralFlow.Simplex
import NeuralFlow.Proofs.Single.Sums

/-! Rows of proportions in single precision. A row is sound if its entries are finite, between zero and
one, and not all zero. For softmax the largest score decides: it must be finite. Sparsemax needs a score
above its threshold, and what it keeps must have a finite sum. -/

namespace NeuralFlow.Single

open Float.Model (UnpackedFloat)
open Binary Simplex

variable {x y d : Float32} {xs ps zs : List Float32}

structure Sound (ps : List Float32) : Prop where
  between : ∀ p ∈ ps, p.isFinite = true ∧ 0 ≤ p ∧ p ≤ 1
  positive : ∃ p ∈ ps, 0 < p

theorem between_iff : x.isFinite = true ∧ 0 ≤ x ∧ x ≤ 1 ↔ IsNumber x ∧ 0 ≤ val x ∧ val x ≤ 1 := by
  rw [isFinite_iff, le_iff, le_iff, val_zero, val_one]
  refine ⟨fun h => ⟨h.1.1, h.2.1.2, h.2.2.2⟩, fun h => ⟨⟨h.1, ?_⟩, ⟨⟨isNumber_zero, h.1⟩, h.2.1⟩,
    ⟨h.1, isNumber_one⟩, h.2.2⟩⟩
  rw [abs_of_nonneg h.2.1]
  exact h.2.2.trans_lt (by norm_num)

theorem pos_iff : 0 < x ↔ IsNumber x ∧ 0 < val x := by
  rw [lt_iff, val_zero]
  exact ⟨fun h => ⟨h.1.2, h.2⟩, fun h => ⟨⟨isNumber_zero, h.1⟩, h.2⟩⟩

/-! Quotients. -/

/-- A quotient by something infinite is zero or undefined. -/
theorem val_div_of_infinite {s : UnpackedFloat.Sign} (hd : d.toModel.unpack = .infinity s) :
    val (x / d) = 0 := by
  rw [val, unpack_div, hd]
  cases x.toModel.unpack with
  | notANumber => exact congrArg (value .binary32) packed_notANumber
  | infinity s' => exact congrArg (value .binary32) packed_notANumber
  | zero s' => exact congrArg (value .binary32) (packed_zero _)
  | finite s' m q hm => exact congrArg (value .binary32) (packed_zero _)

theorem isNumber_of_div (h : IsNumber (x / y)) : IsNumber x := by
  by_contra hx
  refine not_isNumber_iff.2 ?_ h
  rw [unpack_div, not_isNumber_iff.1 hx]
  exact packed_notANumber

section Quotients

variable (hd : d.isFinite = true) (hpos : 0 < val d)

include hd hpos

/-- A part of something finite is a proportion of it. -/
theorem rounds_proportion (hx : NonNeg x) (hle : val x ≤ val d) : Rounds (val x / val d) (x / d) := by
  have hfinite : x.isFinite = true := isFinite_iff.2 ⟨hx.1, by
    rw [abs_of_nonneg hx.2]
    exact hle.trans_lt (lt_of_abs_lt (isFinite_iff.1 hd).2)⟩
  exact rounds_div hfinite hd hpos.ne'

theorem between_proportion (hx : NonNeg x) (hle : val x ≤ val d) :
    (x / d).isFinite = true ∧ 0 ≤ x / d ∧ x / d ≤ 1 := by
  have hrounds := rounds_proportion hd hpos hx hle
  exact between_iff.2 ⟨hrounds.isNumber, hrounds.nonneg (div_nonneg hx.2 hpos.le),
    hrounds.le_one ((div_le_one hpos).2 hle)⟩

/-- Proportions that are not extremely small do not vanish. -/
theorem proportion_pos (hx : NonNeg x) (hle : val x ≤ val d)
    (hbig : (2 : ℚ) ^ (-149 : ℤ) * val d ≤ val x) : 0 < x / d := by
  have hrounds := rounds_proportion hd hpos hx hle
  have hpower := hrounds.power_le le_rfl (by norm_num) ((le_div_iff₀ hpos).2 hbig)
  exact pos_iff.2 ⟨hrounds.isNumber, lt_of_lt_of_le (by positivity) hpower⟩

/-- Dividing what is not negative by something finite that is not too large makes sound proportions. -/
theorem sound_map_div (hxs : ∀ x ∈ xs, NonNeg x ∧ val x ≤ val d)
    (hbig : ∃ x ∈ xs, (2 : ℚ) ^ (-149 : ℤ) * val d ≤ val x) : Sound (xs.map (· / d)) where
  between := by
    simp only [List.forall_mem_map]
    exact fun x hx => between_proportion hd hpos (hxs x hx).1 (hxs x hx).2
  positive := by
    obtain ⟨x, hx, hbig⟩ := hbig
    exact ⟨x / d, List.mem_map_of_mem hx, proportion_pos hd hpos (hxs x hx).1 (hxs x hx).2 hbig⟩

end Quotients

/-! The guard of a denominator. -/

theorem guard_spec : IsNumber (denominatorGuard : Float32) ∧ 0 < val (denominatorGuard : Float32) ∧
    val (denominatorGuard : Float32) ≤ 1 := by
  obtain ⟨hfinite, hval⟩ : (denominatorGuard : Float32).isFinite = true ∧
      val denominatorGuard = 14411519 * 2 ^ (-57 : ℤ) :=
    constant_spec 14411519 (-57) (by norm_num) (by rfl) rfl
  rw [hval]
  exact ⟨isNumber_of_isFinite hfinite, by norm_num, by norm_num⟩

/-- A guarded sum is positive and no smaller than the sum. -/
theorem guarded_spec (hd : NonNeg d) : IsNumber (Scalar.larger d denominatorGuard) ∧
    0 < val (Scalar.larger d denominatorGuard) ∧ val d ≤ val (Scalar.larger d denominatorGuard) ∧
    val (Scalar.larger d denominatorGuard) ≤ max (val d) 1 := by
  obtain ⟨hguard, hpos, hone⟩ := guard_spec
  obtain ⟨hnumber, hval⟩ := val_larger hd.1 hguard
  rw [hval]
  exact ⟨hnumber, lt_max_of_lt_right hpos, le_max_left _ _, max_le_max le_rfl hone⟩

/-! Softmax. -/

@[reducible] def withExp (exp : Float32 → Float32) : Scalar Float32 :=
  { (inferInstance : Scalar Float32) with exp := exp }

/-- What is assumed of the exponential: one at zero, between zero and one below zero, and undefined
where its argument is. -/
structure LawfulExp (exp : Float32 → Float32) : Prop where
  zero : ∀ x, IsNumber x → val x = 0 → val (exp x) = 1
  nonpos : ∀ x, IsNumber x → val x ≤ 0 → IsNumber (exp x) ∧ 0 ≤ val (exp x) ∧ val (exp x) ≤ 1
  undefined : ∀ x, ¬ IsNumber x → ¬ IsNumber (exp x)

/-- A number less one that is no smaller is not positive. -/
theorem val_sub_nonpos (hx : IsNumber x) (hy : y.isFinite = true) (h : val x ≤ val y) :
    IsNumber (x - y) ∧ val (x - y) ≤ 0 := by
  rcases sub_cases hx (isNumber_of_isFinite hy) with ⟨-, -, hrounds⟩ | ⟨-, hinf, heq⟩ |
    ⟨hnumber, ⟨-, hlt⟩ | ⟨hval, -⟩⟩
  · exact ⟨hrounds.isNumber, hrounds.nonpos (sub_nonpos.2 h)⟩
  · exact absurd (isInf_iff.1 hinf).2 (heq ▸ (isFinite_iff.1 hy).2.ne)
  · exact absurd hlt (not_lt.2 h)
  · exact ⟨hnumber, hval ▸ by norm_num⟩

/-- The largest number of a list. -/
theorem maximum_spec {x : Float32} (h : ∀ z ∈ x :: xs, IsNumber z) :
    Scalar.maximum x xs ∈ x :: xs ∧ ∀ z ∈ x :: xs, val z ≤ val (Scalar.maximum x xs) := by
  obtain ⟨hx, hxs⟩ := List.forall_mem_cons.1 h
  obtain ⟨-, hstart, hall, hmem⟩ := foldl_larger hx xs
  exact ⟨hmem, List.forall_mem_cons.2 ⟨hstart, fun z hz => hall z hz (hxs z hz)⟩⟩

section Softmax

variable {exp : Float32 → Float32} (hexp : LawfulExp exp)

include hexp

section FiniteTop

variable (hz : ∀ z ∈ x :: xs, IsNumber z) (htop : (Scalar.maximum x xs).isFinite = true)

include hz htop

/-- Relative to a finite largest score all exponentials are proportions. -/
theorem between_exponentials : ∀ e ∈ (x :: xs).map fun z => exp (z - Scalar.maximum x xs),
    NonNeg e ∧ val e ≤ 2 ^ (0 : ℤ) := by
  obtain ⟨-, hle⟩ := maximum_spec hz
  simp only [List.forall_mem_map]
  intro z hzmem
  obtain ⟨hnumber, hnonpos⟩ := val_sub_nonpos (hz z hzmem) htop (hle z hzmem)
  obtain ⟨hexpnumber, hpos, hone⟩ := hexp.nonpos _ hnumber hnonpos
  exact ⟨⟨hexpnumber, hpos⟩, hone⟩

/-- The largest score itself contributes one. -/
theorem exists_exponential_one :
    ∃ e ∈ (x :: xs).map fun z => exp (z - Scalar.maximum x xs), val e = 1 := by
  obtain ⟨hmem, -⟩ := maximum_spec hz
  have hrounds := rounds_sub htop htop
  rw [sub_self, ← val_zero] at hrounds
  exact ⟨_, List.mem_map_of_mem hmem, hexp.zero _ hrounds.isNumber (hrounds.val_eq isNumber_zero)⟩

theorem sound_softmax : Sound (@softmax Float32 (withExp exp) (x :: xs)) := by
  have hunit := between_exponentials hexp hz htop
  obtain ⟨e, he, hone⟩ := exists_exponential_one hexp hz htop
  obtain ⟨es, hes⟩ : ∃ es, ((x :: xs).map fun z => exp (z - Scalar.maximum x xs)) = es := ⟨_, rfl⟩
  have hdef : @softmax Float32 (withExp exp) (x :: xs) =
      es.map (· / Scalar.larger (Scalar.runningSum es) denominatorGuard) := by
    rw [← hes]
    rfl
  rw [hes] at hunit he
  have hnonneg := fun e he => (hunit e he).1
  have hsum := runningSum_le_power hnonneg (by norm_num) fun e he => (hunit e he).2
  norm_num at hsum
  obtain ⟨hnumber, hpos, hle, hmax⟩ := guarded_spec (nonNeg_runningSum hnonneg)
  have hcap := hmax.trans (max_le hsum (by norm_num))
  have hfinite : (Scalar.larger (Scalar.runningSum es) denominatorGuard).isFinite = true := by
    refine isFinite_iff.2 ⟨hnumber, ?_⟩
    rw [abs_of_pos hpos]
    exact hcap.trans_lt (by norm_num)
  rw [hdef]
  refine sound_map_div hfinite hpos
    (fun e he => ⟨hnonneg e he, (val_le_runningSum hnonneg he).trans hle⟩) ⟨e, he, ?_⟩
  rw [hone]
  calc (2 : ℚ) ^ (-149 : ℤ) * _ ≤ 2 ^ (-149 : ℤ) * 33554432 := by gcongr
    _ ≤ 1 := by norm_num

end FiniteTop

/-- Softmax of numbers is sound if and only if the largest of them is finite. -/
theorem sound_softmax_iff (hne : zs ≠ []) (hz : ∀ z ∈ zs, IsNumber z) :
    Sound (@softmax Float32 (withExp exp) zs) ↔ ∃ z ∈ zs, z.isFinite = true ∧ ∀ w ∈ zs, w ≤ z := by
  obtain ⟨x, xs, rfl⟩ := List.exists_cons_of_ne_nil hne
  obtain ⟨hmem, hle⟩ := maximum_spec hz
  constructor
  · intro hsound
    -- otherwise the largest score less itself is undefined
    refine ⟨Scalar.maximum x xs, hmem, ?_, fun w hw => le_iff.2 ⟨⟨hz w hw, hz _ hmem⟩, hle w hw⟩⟩
    have hentry := (hsound.between _ (List.mem_map_of_mem (List.mem_map_of_mem hmem))).1
    have hnumber := isNumber_of_div (isNumber_of_isFinite hentry)
    have hdiff : IsNumber (Scalar.maximum x xs - Scalar.maximum x xs) := by
      by_contra hnot
      exact hexp.undefined _ hnot hnumber
    rcases sub_cases (hz _ hmem) (hz _ hmem) with ⟨hfinite, -⟩ | ⟨hnot, -⟩ | ⟨-, ⟨-, hlt⟩ | ⟨-, hlt⟩⟩
    · exact hfinite
    · exact absurd hdiff hnot
    · exact absurd hlt (lt_irrefl _)
    · exact absurd hlt (lt_irrefl _)
  · rintro ⟨z, hzmem, hfinite, hmax⟩
    have heq : val (Scalar.maximum x xs) = val z :=
      le_antisymm (le_iff.1 (hmax _ hmem)).2 (hle z hzmem)
    exact sound_softmax hexp hz (isFinite_iff.2 ⟨hz _ hmem, heq ▸ (isFinite_iff.1 hfinite).2⟩)

end Softmax

/-! Sparsemax. -/

theorem val_relu (hx : IsNumber x) : val (Scalar.relu x) = max (val x) 0 :=
  (val_larger hx isNumber_zero).2

theorem nonNeg_relu (x : Float32) : NonNeg (Scalar.relu x) := by
  by_cases hx : IsNumber x
  · exact ⟨(val_larger hx isNumber_zero).1, (val_relu hx).symm ▸ le_max_right _ _⟩
  · rw [Scalar.relu, larger_of_not_left hx isNumber_zero]
    exact nonNeg_zero

theorem pos_relu_iff : 0 < Scalar.relu x ↔ 0 < x := by
  by_cases hx : IsNumber x
  · rw [pos_iff, pos_iff, val_relu hx, lt_max_iff, or_iff_left (lt_irrefl 0), and_iff_right hx,
      and_iff_right (nonNeg_relu x).1]
  · rw [Scalar.relu, larger_of_not_left hx isNumber_zero]
    exact iff_of_false (fun h => (pos_iff.1 h).2.ne rfl) fun h => hx (pos_iff.1 h).1

/-- A part is positive exactly if its score is above the threshold. -/
theorem exists_pos_project_iff : (∃ p ∈ project zs, 0 < p) ↔ ∃ z ∈ zs, threshold zs < z := by
  simp only [project, List.mem_map, exists_exists_and_eq_and, pos_relu_iff, pos_sub_iff]

theorem nonNeg_project (zs : List Float32) : ∀ p ∈ project zs, NonNeg p := by
  simp only [project, List.forall_mem_map]
  exact fun z _ => nonNeg_relu _

/-- Compared with the sum of all numbers the largest one is not extremely small. -/
theorem exists_large (hxs : ∀ x ∈ xs, NonNeg x) (hpos : ∃ x ∈ xs, 0 < val x)
    (hd : val d ≤ max (val (Scalar.runningSum xs)) 1) :
    ∃ x ∈ xs, (2 : ℚ) ^ (-149 : ℤ) * val d ≤ val x := by
  obtain ⟨x, hx, k, hlow, hle, hall⟩ := exists_largest hxs hpos
  refine ⟨x, hx, le_trans ?_ hle⟩
  have hsum := runningSum_le_power hxs (by omega) hall
  have hmax : val d ≤ 2 ^ (k + 149) := by
    refine hd.trans (max_le (hsum.trans ?_) (one_le_zpow₀ one_le_two (by omega)))
    exact (zpow_le_zpow_iff_right₀ one_lt_two).2 (by omega)
  calc (2 : ℚ) ^ (-149 : ℤ) * val d ≤ 2 ^ (-149 : ℤ) * 2 ^ (k + 149) := by gcongr
    _ = 2 ^ k := by
      rw [← zpow_add₀ two_ne_zero]
      congr 1
      ring

theorem eq_infinity_of_not_isFinite (hx : NonNeg x) (h : ¬ x.isFinite = true) :
    x.toModel.unpack = .infinity .positive := by
  refine unpack_eq_infinity_iff.2 ⟨hx.1, le_antisymm (abs_le.1 (abs_val_le hx.1)).2 ?_⟩
  by_contra! hlt
  refine h (isFinite_iff.2 ⟨hx.1, ?_⟩)
  rwa [abs_of_nonneg hx.2]

section Prune

def kept (epsilon : Float32) (ps : List Float32) : Float32 :=
  Scalar.runningSum (ps.filter fun p => decide (epsilon ≤ p))

variable {epsilon : Float32} (hps : ∀ p ∈ ps, NonNeg p)

include hps

theorem nonNeg_filter : ∀ p ∈ ps.filter (fun p => decide (epsilon ≤ p)), NonNeg p :=
  fun p hp => hps p (List.mem_filter.1 hp).1

theorem kept_pos_iff (hepsilon : 0 < epsilon) : 0 < kept epsilon ps ↔ ∃ p ∈ ps, epsilon ≤ p := by
  constructor
  · intro hkept
    by_contra! hnone
    have hnil : ps.filter (fun p => decide (epsilon ≤ p)) = [] :=
      List.filter_eq_nil_iff.2 fun p hp => by simpa using hnone p hp
    rw [kept, hnil] at hkept
    exact (pos_iff.1 hkept).2.ne rfl
  · rintro ⟨p, hp, hle⟩
    have hmem : p ∈ ps.filter (fun p => decide (epsilon ≤ p)) :=
      List.mem_filter.2 ⟨hp, decide_eq_true hle⟩
    refine pos_iff.2 ⟨(nonNeg_runningSum (nonNeg_filter hps)).1, ?_⟩
    exact (pos_iff.1 hepsilon).2.trans_le
      ((le_iff.1 hle).2.trans (val_le_runningSum (nonNeg_filter hps) hmem))

/-- With some entries kept, their sum must be finite. -/
theorem sound_prune_iff_of_kept (hepsilon : 0 < epsilon) (hkept : 0 < kept epsilon ps) :
    Sound (prune epsilon ps) ↔ (kept epsilon ps).isFinite = true := by
  have hdef : prune epsilon ps = ps.map fun p => if epsilon ≤ p then p / kept epsilon ps else 0 :=
    if_pos hkept
  have hsum : NonNeg (kept epsilon ps) := nonNeg_runningSum (nonNeg_filter hps)
  have hpos := (pos_iff.1 hkept).2
  rw [hdef]
  constructor
  · rintro ⟨-, q, hq, hqpos⟩
    by_contra hinf
    obtain ⟨p, -, rfl⟩ := List.mem_map.1 hq
    refine absurd (pos_iff.1 hqpos).2 (not_lt.2 (le_of_eq ?_))
    split_ifs
    · exact val_div_of_infinite (eq_infinity_of_not_isFinite hsum hinf)
    · rfl
  · intro hfinite
    have hle : ∀ p ∈ ps, epsilon ≤ p → val p ≤ val (kept epsilon ps) := fun p hp hp' =>
      val_le_runningSum (nonNeg_filter hps) (List.mem_filter.2 ⟨hp, decide_eq_true hp'⟩)
    refine ⟨?_, ?_⟩
    · simp only [List.forall_mem_map]
      intro p hp
      split_ifs with hp'
      · exact between_proportion hfinite hpos (hps p hp) (hle p hp hp')
      · exact between_iff.2 ⟨isNumber_zero, le_rfl, val_zero.trans_le zero_le_one⟩
    · have hsome : ∃ p ∈ ps.filter (fun p => decide (epsilon ≤ p)), 0 < val p := by
        obtain ⟨p, hp, hp'⟩ := (kept_pos_iff hps hepsilon).1 hkept
        exact ⟨p, List.mem_filter.2 ⟨hp, decide_eq_true hp'⟩,
          (pos_iff.1 hepsilon).2.trans_le (le_iff.1 hp').2⟩
      obtain ⟨p, hp, hbig⟩ := exists_large (nonNeg_filter hps) hsome (le_max_left _ _)
      obtain ⟨hp, hp'⟩ := List.mem_filter.1 hp
      have hp' := of_decide_eq_true hp'
      refine ⟨_, List.mem_map_of_mem hp, ?_⟩
      rw [if_pos hp']
      exact proportion_pos hfinite hpos (hps p hp) (hle p hp hp') hbig

/-- With nothing kept all entries are small, and one of them must be positive. -/
theorem sound_prune_iff_of_not_kept (hepsilon : 0 < epsilon) (hone : epsilon < 1)
    (hkept : ¬ 0 < kept epsilon ps) : Sound (prune epsilon ps) ↔ ∃ p ∈ ps, 0 < p := by
  have hdef : prune epsilon ps =
      ps.map (· / Scalar.larger (Scalar.runningSum ps) denominatorGuard) := if_neg hkept
  have hsmall : ∀ p ∈ ps, val p ≤ 2 ^ (0 : ℤ) := by
    intro p hp
    by_contra! hlarge
    have hepsilon' := lt_iff.1 hone
    rw [val_one] at hepsilon'
    refine hkept ((kept_pos_iff hps hepsilon).2 ⟨p, hp, le_iff.2 ⟨⟨hepsilon'.1.1, (hps p hp).1⟩, ?_⟩⟩)
    rw [zpow_zero] at hlarge
    exact (hepsilon'.2.trans hlarge).le
  have hsum := runningSum_le_power hps (by norm_num) hsmall
  norm_num at hsum
  obtain ⟨hnumber, hpos, hle, hmax⟩ := guarded_spec (nonNeg_runningSum hps)
  have hfinite : (Scalar.larger (Scalar.runningSum ps) denominatorGuard).isFinite = true := by
    refine isFinite_iff.2 ⟨hnumber, ?_⟩
    rw [abs_of_pos hpos]
    exact (hmax.trans (max_le hsum (by norm_num))).trans_lt (by norm_num)
  rw [hdef]
  constructor
  · rintro ⟨-, q, hq, hqpos⟩
    obtain ⟨p, hp, rfl⟩ := List.mem_map.1 hq
    refine ⟨p, hp, pos_iff.2 ⟨(hps p hp).1, (hps p hp).2.lt_of_ne fun hzero => ?_⟩⟩
    have hrounds := rounds_proportion hfinite hpos (hps p hp) ((val_le_runningSum hps hp).trans hle)
    rw [← hzero, zero_div] at hrounds
    exact absurd (pos_iff.1 hqpos).2 (not_lt.2 (hrounds.nonpos le_rfl))
  · rintro ⟨p, hp, hppos⟩
    obtain ⟨x, hx, hbig⟩ := exists_large hps ⟨p, hp, (pos_iff.1 hppos).2⟩ hmax
    exact sound_map_div hfinite hpos (fun q hq => ⟨hps q hq, (val_le_runningSum hps hq).trans hle⟩)
      ⟨x, hx, hbig⟩

theorem sound_prune_iff (hepsilon : 0 < epsilon) (hone : epsilon < 1) :
    Sound (prune epsilon ps) ↔ (∃ p ∈ ps, 0 < p) ∧ (kept epsilon ps).isFinite = true := by
  by_cases hkept : 0 < kept epsilon ps
  · obtain ⟨p, hp, hle⟩ := (kept_pos_iff hps hepsilon).1 hkept
    have hpos : 0 < p :=
      pos_iff.2 ⟨(hps p hp).1, (pos_iff.1 hepsilon).2.trans_le (le_iff.1 hle).2⟩
    rw [sound_prune_iff_of_kept hps hepsilon hkept, and_iff_right ⟨p, hp, hpos⟩]
  · have hsum : NonNeg (kept epsilon ps) := nonNeg_runningSum (nonNeg_filter hps)
    have hzero : val (kept epsilon ps) = 0 :=
      le_antisymm (not_lt.1 fun h => hkept (pos_iff.2 ⟨hsum.1, h⟩)) hsum.2
    have hfinite : (kept epsilon ps).isFinite = true :=
      isFinite_iff.2 ⟨hsum.1, by rw [hzero, abs_zero]; positivity⟩
    rw [sound_prune_iff_of_not_kept hps hepsilon hone hkept, and_iff_left hfinite]

end Prune

section NoExponential

variable {exp : Float32 → Float32}

theorem insertFalling_withExp (z : Float32) (zs : List Float32) :
    @insertFalling Float32 (withExp exp) z zs = insertFalling z zs := by
  induction zs with
  | nil => rfl
  | cons y ys ih =>
    exact congrArg (fun rest => if Scalar.precedes z y then y :: rest else z :: y :: ys) ih

theorem supportFrom_withExp (seen best : Support Float32) (zs : List Float32) :
    @supportFrom Float32 (withExp exp) seen best zs = supportFrom seen best zs := by
  induction zs generalizing seen best with
  | nil => rfl
  | cons z zs ih => exact ih _ _

theorem threshold_withExp (zs : List Float32) :
    @threshold Float32 (withExp exp) zs = threshold zs := by
  have hsort : @sortFalling Float32 (withExp exp) zs = sortFalling zs :=
    congrArg (fun f => zs.foldr f []) (funext₂ insertFalling_withExp)
  unfold threshold support
  rw [hsort, supportFrom_withExp]

/-- Sparsemax has no use for an exponential. -/
theorem sparsemax_withExp (epsilon : Float32) (zs : List Float32) :
    @sparsemax Float32 (withExp exp) epsilon zs = sparsemax epsilon zs := by
  unfold sparsemax project
  rw [threshold_withExp]
  rfl

end NoExponential

/-- Sparsemax is sound if and only if a score is above the threshold and what is kept has a finite sum. -/
theorem sound_sparsemax_iff {epsilon : Float32} (hepsilon : 0 < epsilon) (hone : epsilon < 1) :
    Sound (sparsemax epsilon zs) ↔
      (∃ z ∈ zs, threshold zs < z) ∧ (kept epsilon (project zs)).isFinite = true := by
  rw [sparsemax, sound_prune_iff (nonNeg_project zs) hepsilon hone, exists_pos_project_iff]

end NeuralFlow.Single
