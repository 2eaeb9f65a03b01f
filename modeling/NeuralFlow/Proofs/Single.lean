import Mathlib
import NeuralFlow.Scalar.Single
import NeuralFlow.Proofs.Binary.Grain

/-! Single precision numbers by their values. Comparisons compare values, arithmetic with finite numbers
takes the number nearest to the exact result, and only few operations have no result. -/

namespace NeuralFlow.Single

open Float.Model (Format UnpackedFloat)
open Binary

def IsNumber (x : Float32) : Prop := x.isNaN = false

/-- The exact value of a number; an infinite one counts as the first power of two that is too large. -/
def val (x : Float32) : ℚ := value .binary32 x.toModel.unpack

def Rounds (v : ℚ) (x : Float32) : Prop := Nearest .binary32 v x.toModel.unpack

variable {x y z : Float32} {v w : ℚ}

theorem limit_eq : limit .binary32 = 2 ^ 128 := rfl

theorem proper_iff : Proper .binary32 x.toModel.unpack ↔ IsNumber x := by
  rw [IsNumber, Float32.isNaN, Float32.Model.isNaN]
  cases hx : x.toModel.unpack with
  | notANumber => exact iff_of_false id nofun
  | infinity s => exact iff_of_true trivial rfl
  | zero s => exact iff_of_true trivial rfl
  | finite s m q hm =>
    obtain ⟨hc, hq, -⟩ := of_unpack_eq_finite (by decide) hx
    exact iff_of_true ⟨hc, hq⟩ rfl

theorem not_isNumber_iff : ¬ IsNumber x ↔ x.toModel.unpack = .notANumber := by
  rw [IsNumber, Float32.isNaN, Float32.Model.isNaN]
  cases x.toModel.unpack <;> simp [UnpackedFloat.isNaN]

/-! Comparisons. -/

theorem compare_eq (hx : IsNumber x) (hy : IsNumber y) :
    x.toModel.unpack.compare y.toModel.unpack = some (cmp (val x) (val y)) :=
  (proper_iff.2 hx).compare_eq (proper_iff.2 hy)

theorem compare_eq_none (h : ¬ (IsNumber x ∧ IsNumber y)) :
    x.toModel.unpack.compare y.toModel.unpack = none := by
  rcases not_and_or.1 h with h | h
  · rw [not_isNumber_iff.1 h]
    rfl
  · rw [not_isNumber_iff.1 h]
    cases x.toModel.unpack <;> rfl

theorem lt_iff : x < y ↔ (IsNumber x ∧ IsNumber y) ∧ val x < val y := by
  have hdef : x < y ↔ (x.toModel.unpack.compare y.toModel.unpack == some .lt) = true :=
    decide_eq_true_iff
  rw [hdef]
  by_cases h : IsNumber x ∧ IsNumber y
  · rw [compare_eq h.1 h.2, and_iff_right h, ← cmp_eq_lt_iff, beq_iff_eq, Option.some_inj]
  · rw [compare_eq_none h]
    exact iff_of_false (by decide) fun hand => h hand.1

theorem le_iff : x ≤ y ↔ (IsNumber x ∧ IsNumber y) ∧ val x ≤ val y := by
  have hdef : x ≤ y ↔ ((x.toModel.unpack.compare y.toModel.unpack).any (·.isLE)) = true :=
    decide_eq_true_iff
  rw [hdef]
  by_cases h : IsNumber x ∧ IsNumber y
  · rw [compare_eq h.1 h.2, and_iff_right h, ← not_lt, ← cmp_eq_gt_iff]
    cases cmp (val x) (val y) <;> decide
  · rw [compare_eq_none h]
    exact iff_of_false (by decide) fun hand => h hand.1

theorem beq_iff : (x == y) = true ↔ (IsNumber x ∧ IsNumber y) ∧ val x = val y := by
  have hdef : (x == y) = (x.toModel.unpack.compare y.toModel.unpack == some .eq) := rfl
  rw [hdef]
  by_cases h : IsNumber x ∧ IsNumber y
  · rw [compare_eq h.1 h.2, and_iff_right h, beq_iff_eq, Option.some_inj, cmp_eq_eq_iff]
  · rw [compare_eq_none h]
    exact iff_of_false (by decide) fun hand => h hand.1

/-! Kinds of floats. -/

theorem isFinite_iff : x.isFinite = true ↔ IsNumber x ∧ |val x| < 2 ^ 128 := by
  rw [← proper_iff, val, ← limit_eq, Float32.isFinite, Float32.Model.isFinite]
  cases hx : x.toModel.unpack with
  | notANumber => exact iff_of_false nofun fun h => h.1
  | infinity s =>
    refine iff_of_false nofun fun h => h.2.ne ?_
    exact abs_signed s (limit_pos _).le
  | zero s => exact iff_of_true rfl ⟨trivial, by simpa [value] using limit_pos _⟩
  | finite s m q hm =>
    obtain ⟨hc, hq, -⟩ := of_unpack_eq_finite (by decide) hx
    refine iff_of_true rfl ⟨⟨hc, hq⟩, ?_⟩
    rw [value, abs_signed s hc.value_pos.le]
    exact hc.value_lt_limit hq

theorem isInf_iff : x.isInf = true ↔ IsNumber x ∧ |val x| = 2 ^ 128 := by
  rw [← proper_iff, val, ← limit_eq, Float32.isInf, Float32.Model.isInf]
  cases hx : x.toModel.unpack with
  | notANumber => exact iff_of_false Bool.false_ne_true fun h => h.1
  | infinity s => exact iff_of_true rfl ⟨trivial, abs_signed s (limit_pos _).le⟩
  | zero s =>
    refine iff_of_false Bool.false_ne_true fun h => (limit_pos .binary32).ne ?_
    simpa [value] using h.2
  | finite s m q hm =>
    obtain ⟨hc, hq, -⟩ := of_unpack_eq_finite (by decide) hx
    refine iff_of_false Bool.false_ne_true fun h => (hc.value_lt_limit hq).ne ?_
    simpa only [value, abs_signed s hc.value_pos.le] using h.2

theorem abs_val_le (hx : IsNumber x) : |val x| ≤ 2 ^ 128 := (proper_iff.2 hx).abs_value_le

theorem isNumber_of_isFinite (h : x.isFinite = true) : IsNumber x := (isFinite_iff.1 h).1

/-! Rounding. -/

namespace Rounds

theorem isNumber (h : Rounds v x) : IsNumber x := proper_iff.1 h.proper

theorem val_le (h : Rounds v x) (hy : IsNumber y) (hv : v ≤ val y) : val x ≤ val y :=
  Nearest.value_le h (proper_iff.2 hy) hv

theorem le_val (h : Rounds v x) (hy : IsNumber y) (hv : val y ≤ v) : val y ≤ val x :=
  Nearest.le_value h (proper_iff.2 hy) hv

theorem val_eq (h : Rounds (val y) x) (hy : IsNumber y) : val x = val y :=
  Nearest.value_eq h (proper_iff.2 hy)

end Rounds

theorem exponentBits_le : 2 ≤ Format.binary32.exponentBits := by decide

/-! Operations are those of unpacked floats, packed again. -/

def packed (u : UnpackedFloat) : UnpackedFloat :=
  UnpackedFloat.unpack .binary32 (UnpackedFloat.pack .binary32 u)

theorem unpack_add (x y : Float32) :
    (x + y).toModel.unpack = packed (.add .binary32 x.toModel.unpack y.toModel.unpack) := rfl

theorem unpack_sub (x y : Float32) :
    (x - y).toModel.unpack = packed (.sub .binary32 x.toModel.unpack y.toModel.unpack) := rfl

theorem unpack_div (x y : Float32) :
    (x / y).toModel.unpack = packed (.div .binary32 x.toModel.unpack y.toModel.unpack) := rfl

theorem unpack_abs (x : Float32) : x.abs.toModel.unpack = packed x.toModel.unpack.abs := rfl

@[simp] theorem packed_zero (s : UnpackedFloat.Sign) : packed (.zero s) = .zero s := unpack_pack_zero s

@[simp] theorem packed_infinity (s : UnpackedFloat.Sign) : packed (.infinity s) = .infinity s :=
  unpack_pack_infinity s

@[simp] theorem packed_notANumber : packed .notANumber = .notANumber := unpack_pack_notANumber

section Arithmetic

variable (hx : x.isFinite = true) (hy : y.isFinite = true)

include hx hy

theorem rounds_add : Rounds (val x + val y) (x + y) :=
  nearest_add exponentBits_le (proper_iff.2 (isNumber_of_isFinite hx))
    (proper_iff.2 (isNumber_of_isFinite hy)) hx hy

theorem rounds_sub : Rounds (val x - val y) (x - y) :=
  nearest_sub exponentBits_le (proper_iff.2 (isNumber_of_isFinite hx))
    (proper_iff.2 (isNumber_of_isFinite hy)) hx hy

theorem rounds_mul : Rounds (val x * val y) (x * y) :=
  nearest_mul exponentBits_le (proper_iff.2 (isNumber_of_isFinite hx))
    (proper_iff.2 (isNumber_of_isFinite hy)) hx hy

theorem rounds_div (hne : val y ≠ 0) : Rounds (val x / val y) (x / y) :=
  nearest_div exponentBits_le (proper_iff.2 (isNumber_of_isFinite hx))
    (proper_iff.2 (isNumber_of_isFinite hy)) hx hy hne

end Arithmetic

/-! Signs. -/

theorem isNumber_abs : IsNumber x.abs ↔ IsNumber x := by
  by_cases h : IsNumber x
  · have hproper : Proper .binary32 x.toModel.unpack.abs := (proper_iff.2 h).abs
    rw [← proper_iff, unpack_abs, packed, hproper.unpack_pack]
    exact iff_of_true hproper h
  · refine iff_of_false (not_isNumber_iff.2 ?_) h
    rw [unpack_abs, not_isNumber_iff.1 h]
    exact packed_notANumber

/-! Operations with infinite numbers. -/

theorem unpack_eq_infinity_iff {s : UnpackedFloat.Sign} :
    x.toModel.unpack = .infinity s ↔ IsNumber x ∧ val x = signed s (2 ^ 128) := by
  rw [← proper_iff, val, ← limit_eq]
  constructor
  · intro h
    rw [h]
    exact ⟨trivial, rfl⟩
  · rintro ⟨hx, hval⟩
    have hinf : x.isInf = true := isInf_iff.2
      ⟨proper_iff.1 hx, by rw [val, hval, abs_signed s (limit_pos _).le, limit_eq]⟩
    rw [Float32.isInf, Float32.Model.isInf] at hinf
    cases hux : x.toModel.unpack with
    | notANumber => rw [hux] at hinf; cases hinf
    | zero s' => rw [hux] at hinf; cases hinf
    | finite s' m q hm => rw [hux] at hinf; cases hinf
    | infinity s' =>
      rw [hux] at hval
      have hpos := limit_pos .binary32
      cases s <;> cases s' <;> simp only [value, signed] at hval
      · rfl
      · linarith
      · linarith
      · rfl

theorem val_lt_of_ne (hx : IsNumber x) (h : x.toModel.unpack ≠ .infinity .positive) :
    val x < 2 ^ 128 :=
  (abs_le.1 (abs_val_le hx)).2.lt_of_ne fun heq => h (unpack_eq_infinity_iff.2 ⟨hx, heq⟩)

theorem lt_val_of_ne (hx : IsNumber x) (h : x.toModel.unpack ≠ .infinity .negative) :
    -2 ^ 128 < val x :=
  (abs_le.1 (abs_val_le hx)).1.lt_of_ne fun heq => h (unpack_eq_infinity_iff.2 ⟨hx, heq.symm⟩)

/-- A difference is rounded, or infinite towards the larger of two numbers, or undefined for equal
infinities. -/
theorem sub_cases (hx : IsNumber x) (hy : IsNumber y) :
    (x.isFinite = true ∧ y.isFinite = true ∧ Rounds (val x - val y) (x - y)) ∨
    (¬ IsNumber (x - y) ∧ x.isInf = true ∧ val x = val y) ∨
    (IsNumber (x - y) ∧ ((val (x - y) = 2 ^ 128 ∧ val y < val x) ∨
      (val (x - y) = -2 ^ 128 ∧ val x < val y))) := by
  rcases (proper_iff.2 hx).sub_cases (proper_iff.2 hy) with ⟨fx, fy⟩ | ⟨hnan, s, hs, hs'⟩ |
    ⟨s, hdiff, hone, hx', hy'⟩
  · exact Or.inl ⟨fx, fy, rounds_sub fx fy⟩
  · refine Or.inr (Or.inl ⟨?_, ?_, ?_⟩)
    · rw [not_isNumber_iff, unpack_sub, hnan, packed_notANumber]
    · rw [Float32.isInf, Float32.Model.isInf, hs]
      rfl
    · rw [(unpack_eq_infinity_iff.1 hs).2, (unpack_eq_infinity_iff.1 hs').2]
  · obtain ⟨hnumber, hval⟩ := unpack_eq_infinity_iff.1
      ((unpack_sub x y).trans ((congrArg packed hdiff).trans (packed_infinity s)))
    refine Or.inr (Or.inr ⟨hnumber, ?_⟩)
    cases s
    · refine Or.inr ⟨hval, ?_⟩
      rcases hone with h | h
      · rw [(unpack_eq_infinity_iff.1 h).2]
        exact lt_val_of_ne hy hy'
      · rw [(unpack_eq_infinity_iff.1 h).2]
        exact val_lt_of_ne hx hx'
    · refine Or.inl ⟨hval, ?_⟩
      rcases hone with h | h
      · rw [(unpack_eq_infinity_iff.1 h).2]
        exact val_lt_of_ne hy hy'
      · rw [(unpack_eq_infinity_iff.1 h).2]
        exact lt_val_of_ne hx hx'

theorem isNumber_of_sub (h : IsNumber (x - y)) : IsNumber x ∧ IsNumber y := by
  by_contra hnot
  refine not_isNumber_iff.2 ?_ h
  rw [unpack_sub]
  rcases not_and_or.1 hnot with hx | hy
  · rw [not_isNumber_iff.1 hx]
    exact packed_notANumber
  · rw [not_isNumber_iff.1 hy]
    cases x.toModel.unpack <;> exact packed_notANumber

/-- Only a difference of equal infinities is undefined. -/
theorem isNumber_sub_iff : IsNumber (x - y) ↔
    (IsNumber x ∧ IsNumber y) ∧ ¬ (x.isInf = true ∧ val x = val y) := by
  refine ⟨fun h => ⟨isNumber_of_sub h, fun heq => ?_⟩, fun ⟨⟨hx, hy⟩, hne⟩ => ?_⟩
  · obtain ⟨hx, hy⟩ := isNumber_of_sub h
    rcases sub_cases hx hy with ⟨fx, -, -⟩ | ⟨hnan, -⟩ | ⟨-, ⟨-, hlt⟩ | ⟨-, hlt⟩⟩
    · exact (isFinite_iff.1 fx).2.ne (isInf_iff.1 heq.1).2
    · exact hnan h
    · exact hlt.ne' heq.2
    · exact hlt.ne heq.2
  · rcases sub_cases hx hy with ⟨-, -, hrounds⟩ | ⟨-, heq⟩ | ⟨hnumber, -⟩
    · exact hrounds.isNumber
    · exact absurd heq hne
    · exact hnumber

/-- A sum of numbers that are not negative is rounded or infinite. -/
theorem add_cases_of_nonneg (hx : IsNumber x) (hy : IsNumber y) (hx0 : 0 ≤ val x) (hy0 : 0 ≤ val y) :
    (x.isFinite = true ∧ y.isFinite = true ∧ Rounds (val x + val y) (x + y)) ∨
    (IsNumber (x + y) ∧ val (x + y) = 2 ^ 128 ∧ (val x = 2 ^ 128 ∨ val y = 2 ^ 128)) := by
  have hnonneg : ∀ {z : Float32}, 0 ≤ val z → z.toModel.unpack ≠ .infinity .negative := fun hz h => by
    have := (unpack_eq_infinity_iff.1 h).2
    norm_num [signed] at this
    linarith
  rcases (proper_iff.2 hx).add_cases (proper_iff.2 hy) with ⟨fx, fy⟩ | ⟨-, s, hs, hs'⟩ |
    ⟨s, hsum, hone, -⟩
  · exact Or.inl ⟨fx, fy, rounds_add fx fy⟩
  · cases s
    · exact absurd hs (hnonneg hx0)
    · exact absurd hs' (hnonneg hy0)
  · have hinf := (unpack_add x y).trans ((congrArg packed hsum).trans (packed_infinity s))
    cases s
    · exact (hone.elim (hnonneg hx0) (hnonneg hy0)).elim
    · obtain ⟨hnumber, hval⟩ := unpack_eq_infinity_iff.1 hinf
      exact Or.inr ⟨hnumber, hval, hone.imp (fun h => (unpack_eq_infinity_iff.1 h).2)
        fun h => (unpack_eq_infinity_iff.1 h).2⟩

/-! The larger of two. -/

theorem val_larger (hx : IsNumber x) (hy : IsNumber y) :
    IsNumber (Scalar.larger x y) ∧ val (Scalar.larger x y) = max (val x) (val y) := by
  unfold Scalar.larger
  split_ifs with hlt hself
  · exact ⟨hx, (max_eq_left (lt_iff.1 hlt).2.le).symm⟩
  · refine ⟨hy, (max_eq_right (not_lt.1 fun h => hlt ?_)).symm⟩
    exact lt_iff.2 ⟨⟨hy, hx⟩, h⟩
  · exact absurd (beq_iff.2 ⟨⟨hy, hy⟩, rfl⟩) hself

/-- An undefined float gives way to the other one. -/
theorem larger_of_not_right (hy : ¬ IsNumber y) : Scalar.larger x y = x := by
  unfold Scalar.larger
  split_ifs with hlt hself
  · rfl
  · exact absurd (beq_iff.1 hself).1.1 hy
  · rfl

theorem larger_of_not_left (hx : ¬ IsNumber x) (hy : IsNumber y) : Scalar.larger x y = y := by
  unfold Scalar.larger
  split_ifs with hlt hself
  · exact absurd (lt_iff.1 hlt).1.2 hx
  · rfl
  · exact absurd (beq_iff.2 ⟨⟨hy, hy⟩, rfl⟩) hself

theorem larger_eq (x y : Float32) : Scalar.larger x y = x ∨ Scalar.larger x y = y := by
  unfold Scalar.larger
  split_ifs
  · exact Or.inl rfl
  · exact Or.inr rfl
  · exact Or.inl rfl

/-- The larger of a number and anything is a number that is no smaller than either. -/
theorem larger_of_isNumber {x : Float32} (hx : IsNumber x) (y : Float32) :
    IsNumber (Scalar.larger x y) ∧ val x ≤ val (Scalar.larger x y) ∧
      (IsNumber y → val y ≤ val (Scalar.larger x y)) := by
  by_cases hy : IsNumber y
  · obtain ⟨hnumber, hval⟩ := val_larger hx hy
    rw [hval]
    exact ⟨hnumber, le_max_left _ _, fun _ => le_max_right _ _⟩
  · rw [larger_of_not_right hy]
    exact ⟨hx, le_rfl, fun h => absurd h hy⟩

/-- From a number on, the largest value is a number that bounds all numbers of the list. -/
theorem foldl_larger {x : Float32} (hx : IsNumber x) (ys : List Float32) :
    IsNumber (ys.foldl Scalar.larger x) ∧ val x ≤ val (ys.foldl Scalar.larger x) ∧
      (∀ y ∈ ys, IsNumber y → val y ≤ val (ys.foldl Scalar.larger x)) ∧
      ys.foldl Scalar.larger x ∈ x :: ys := by
  induction ys generalizing x with
  | nil => exact ⟨hx, le_rfl, by simp, by simp⟩
  | cons y ys ih =>
    obtain ⟨hnumber, hle, hle'⟩ := larger_of_isNumber hx y
    obtain ⟨hfold, hstart, hall, hmem⟩ := ih hnumber
    rw [List.foldl_cons]
    refine ⟨hfold, hle.trans hstart, List.forall_mem_cons.2 ⟨fun hy => (hle' hy).trans hstart, hall⟩, ?_⟩
    rcases List.mem_cons.1 hmem with heq | hmem
    · rw [heq]
      rcases larger_eq x y with h | h <;> rw [h] <;> simp
    · exact List.mem_cons_of_mem _ (List.mem_cons_of_mem _ hmem)

end NeuralFlow.Single
