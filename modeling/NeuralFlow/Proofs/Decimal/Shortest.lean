import Mathlib
import NeuralFlow.Proofs.Binary.Rounding

/-! Shortest decimals of single precision numbers. The search finds a decimal of the interval with the
fewest digits, and the nearest of its grid. Any such decimal has a grid at most ten times finer than the
grid of the numbers, and is at most half a step of it away, as long as the interval is the same on both
sides. -/

namespace NeuralFlow

open Float.Model (Format)

namespace Decimal

def value (d : Decimal) : ℚ := d.digits * 10 ^ d.exponent

/-! Powers with exponents of either sign, in whole numbers. -/

theorem zpow_mul_pow_toNat {b : ℚ} (hb : b ≠ 0) (e : ℤ) : b ^ e * b ^ (-e).toNat = b ^ e.toNat := by
  rw [← zpow_natCast, ← zpow_natCast, ← zpow_add₀ hb]
  congr 1
  omega

theorem ten_zpow_lt_two_zpow {t e : ℤ} :
    (10 : ℚ) ^ t < 2 ^ e ↔ 10 ^ t.toNat * 2 ^ (-e).toNat < 2 ^ e.toNat * 10 ^ (-t).toNat := by
  have hunit : (0 : ℚ) < 10 ^ (-t).toNat * 2 ^ (-e).toNat := by positivity
  rw [← mul_lt_mul_iff_left₀ hunit, ← @Nat.cast_lt ℚ]
  push_cast
  rw [← zpow_mul_pow_toNat (by norm_num : (10 : ℚ) ≠ 0) t,
    ← zpow_mul_pow_toNat (by norm_num : (2 : ℚ) ≠ 0) e]
  constructor <;> intro h <;> convert h using 1 <;> ring

/-- Without a zero at the end there is nothing to remove. -/
theorem normalize_eq_self {d : Decimal} (hd : d.digits % 10 ≠ 0) : d.normalize = d := by
  have hpos : d.digits ≠ 0 := by
    rintro hzero
    simp [hzero] at hd
  rw [normalize, if_neg hpos]
  cases d.digits.log2 with
  | zero => rfl
  | succ fuel => rw [stripZeros, if_neg hd]

namespace Interval

variable {i : Interval} {c : ℕ} {t : ℤ} {x v w : ℚ} {tie : Tie} {d : Decimal}

def center (i : Interval) : ℚ := i.value * 2 ^ i.exponent

theorem Contains.of_between (hv : i.Contains v) (hw : i.Contains w) (hvx : v ≤ x) (hxw : x ≤ w) :
    i.Contains x := by
  unfold Contains at *
  split_ifs at *
  · exact ⟨hv.1.trans hvx, hxw.trans hw.2⟩
  · exact ⟨hv.1.trans_le hvx, hxw.trans_lt hw.2⟩

section Multiple

variable (i t)

def factor : ℚ := 2 ^ (-i.exponent).toNat * 10 ^ (-t).toNat

theorem factor_pos : 0 < i.factor t := by
  unfold factor
  positivity

theorem mul_ten_zpow_mul_factor (c : ℕ) :
    (c : ℚ) * 10 ^ t * i.factor t = ((c * (2 ^ (-i.exponent).toNat * 10 ^ t.toNat) : ℕ) : ℚ) := by
  push_cast
  rw [factor, ← zpow_mul_pow_toNat (by norm_num : (10 : ℚ) ≠ 0) t]
  ring

theorem mul_two_zpow_mul_factor (n : ℕ) :
    (n : ℚ) * 2 ^ i.exponent * i.factor t =
      ((n * (2 ^ i.exponent.toNat * 10 ^ (-t).toNat) : ℕ) : ℚ) := by
  push_cast
  rw [factor, ← zpow_mul_pow_toNat (by norm_num : (2 : ℚ) ≠ 0) i.exponent]
  ring

def floorAt : ℕ :=
  i.value * (2 ^ i.exponent.toNat * 10 ^ (-t).toNat) / (2 ^ (-i.exponent).toNat * 10 ^ t.toNat)

def holds (c : ℕ) : Bool :=
  i.within (i.lower * (2 ^ i.exponent.toNat * 10 ^ (-t).toNat))
    (c * (2 ^ (-i.exponent).toNat * 10 ^ t.toNat)) &&
  i.within (c * (2 ^ (-i.exponent).toNat * 10 ^ t.toNat))
    (i.upper * (2 ^ i.exponent.toNat * 10 ^ (-t).toNat))

variable {i t}

theorem holds_iff : i.holds t c = true ↔ i.Contains (c * 10 ^ t) := by
  have hfactor := i.factor_pos t
  unfold Contains
  rw [← mul_le_mul_iff_left₀ hfactor,
    ← mul_le_mul_iff_left₀ (a := i.factor t) (b := c * 10 ^ t) hfactor,
    ← mul_lt_mul_iff_left₀ hfactor,
    ← mul_lt_mul_iff_left₀ (a := i.factor t) (b := c * 10 ^ t) hfactor]
  simp only [mul_ten_zpow_mul_factor, mul_two_zpow_mul_factor, Nat.cast_le, Nat.cast_lt]
  unfold holds within
  cases i.closed <;> simp [le_iff_lt_or_eq]

theorem floorAt_le : i.floorAt t * 10 ^ t ≤ i.center := by
  rw [← mul_le_mul_iff_left₀ (i.factor_pos t), center, mul_ten_zpow_mul_factor,
    mul_two_zpow_mul_factor]
  exact_mod_cast Nat.div_mul_le_self _ _

theorem lt_floorAt_succ : i.center < (i.floorAt t + 1 : ℕ) * 10 ^ t := by
  rw [← mul_lt_mul_iff_left₀ (i.factor_pos t), center, mul_ten_zpow_mul_factor,
    mul_two_zpow_mul_factor]
  have hunit : 0 < 2 ^ (-i.exponent).toNat * 10 ^ t.toNat := by positivity
  exact_mod_cast (Nat.div_lt_iff_lt_mul hunit).1 (Nat.lt_succ_self _)

/-- The multiple below the center is the nearest of those below. -/
theorem abs_floorAt_le (hc : c ≤ i.floorAt t) :
    |i.floorAt t * 10 ^ t - i.center| ≤ |c * 10 ^ t - i.center| := by
  have hfloor := i.floorAt_le (t := t)
  have hle : (c : ℚ) * 10 ^ t ≤ i.floorAt t * 10 ^ t := by gcongr
  rw [abs_sub_comm, abs_sub_comm (_ * _), abs_of_nonneg (by linarith), abs_of_nonneg (by linarith)]
  linarith

theorem abs_floorAt_succ_le (hc : i.floorAt t < c) :
    |(i.floorAt t + 1 : ℕ) * 10 ^ t - i.center| ≤ |c * 10 ^ t - i.center| := by
  have hfloor := i.lt_floorAt_succ (t := t)
  have hle : ((i.floorAt t + 1 : ℕ) : ℚ) * 10 ^ t ≤ c * 10 ^ t := by
    gcongr
    exact hc
  rw [abs_of_nonneg (by linarith), abs_of_nonneg (by linarith)]
  linarith

/-- A multiple inside brings the one next to the center inside. -/
theorem holds_next (hi : i.Contains i.center) (hc : i.Contains (c * 10 ^ t)) :
    (c ≤ i.floorAt t ∧ i.holds t (i.floorAt t) = true) ∨
    (i.floorAt t < c ∧ i.holds t (i.floorAt t + 1) = true) := by
  rcases le_or_gt c (i.floorAt t) with h | h
  · refine Or.inl ⟨h, holds_iff.2 (hc.of_between hi ?_ i.floorAt_le)⟩
    gcongr
  · refine Or.inr ⟨h, holds_iff.2 (hi.of_between hc i.lt_floorAt_succ.le ?_)⟩
    gcongr
    exact h

theorem multiple?_eq (i : Interval) (tie : Tie) (t : ℤ) : i.multiple? tie t =
    match i.holds t (i.floorAt t), i.holds t (i.floorAt t + 1) with
    | false, false => none
    | true, false => some ⟨i.floorAt t, t⟩
    | false, true => some ⟨i.floorAt t + 1, t⟩
    | true, true =>
      let unit := 2 ^ (-i.exponent).toNat * 10 ^ t.toNat
      let value := i.value * (2 ^ i.exponent.toNat * 10 ^ (-t).toNat)
      let below := value - i.floorAt t * unit
      let above := (i.floorAt t + 1) * unit - value
      if below < above then some ⟨i.floorAt t, t⟩
      else if above < below then some ⟨i.floorAt t + 1, t⟩
      else match tie with
        | .upper => some ⟨i.floorAt t + 1, t⟩
        | .evenDigit => some ⟨if i.floorAt t % 2 = 0 then i.floorAt t else i.floorAt t + 1, t⟩ :=
          rfl

theorem below_eq : ((i.value * (2 ^ i.exponent.toNat * 10 ^ (-t).toNat) -
    i.floorAt t * (2 ^ (-i.exponent).toNat * 10 ^ t.toNat) : ℕ) : ℚ) =
    |i.floorAt t * 10 ^ t - i.center| * i.factor t := by
  have hfloor := i.floorAt_le (t := t)
  rw [abs_sub_comm, abs_of_nonneg (by linarith), sub_mul, center, mul_ten_zpow_mul_factor,
    mul_two_zpow_mul_factor, Nat.cast_sub]
  exact Nat.div_mul_le_self _ _

theorem above_eq : (((i.floorAt t + 1) * (2 ^ (-i.exponent).toNat * 10 ^ t.toNat) -
    i.value * (2 ^ i.exponent.toNat * 10 ^ (-t).toNat) : ℕ) : ℚ) =
    |(i.floorAt t + 1 : ℕ) * 10 ^ t - i.center| * i.factor t := by
  have hfloor := i.lt_floorAt_succ (t := t)
  rw [abs_of_nonneg (by linarith), sub_mul, center, mul_ten_zpow_mul_factor,
    mul_two_zpow_mul_factor, Nat.cast_sub]
  have hunit : 0 < 2 ^ (-i.exponent).toNat * 10 ^ t.toNat := by positivity
  exact ((Nat.div_lt_iff_lt_mul hunit).1 (Nat.lt_succ_self _)).le

/-- Of two multiples inside the nearer one is taken. -/
theorem multiple?_of_both (tie : Tie) (hfloor : i.holds t (i.floorAt t) = true)
    (hnext : i.holds t (i.floorAt t + 1) = true) :
    (i.multiple? tie t = some ⟨i.floorAt t, t⟩ ∧
      |i.floorAt t * 10 ^ t - i.center| ≤ |(i.floorAt t + 1 : ℕ) * 10 ^ t - i.center|) ∨
    (i.multiple? tie t = some ⟨i.floorAt t + 1, t⟩ ∧
      |(i.floorAt t + 1 : ℕ) * 10 ^ t - i.center| ≤ |i.floorAt t * 10 ^ t - i.center|) := by
  have hfactor := i.factor_pos t
  rw [← mul_le_mul_iff_left₀ hfactor, ← below_eq, ← above_eq, Nat.cast_le,
    ← mul_le_mul_iff_left₀ hfactor, ← below_eq, ← above_eq, Nat.cast_le, multiple?_eq, hfloor,
    hnext]
  simp only
  split_ifs with hlt hgt heven
  · exact Or.inl ⟨rfl, hlt.le⟩
  · exact Or.inr ⟨rfl, hgt.le⟩
  · cases tie
    · exact Or.inr ⟨rfl, not_lt.1 hlt⟩
    · exact Or.inl ⟨rfl, not_lt.1 hgt⟩
  · cases tie <;> exact Or.inr ⟨rfl, not_lt.1 hlt⟩

theorem multiple?_eq_none (hi : i.Contains i.center) (h : i.multiple? tie t = none) (c : ℕ) :
    ¬ i.Contains (c * 10 ^ t) := by
  intro hc
  cases hfloor : i.holds t (i.floorAt t) <;> cases hnext : i.holds t (i.floorAt t + 1)
  · rcases holds_next hi hc with ⟨-, hholds⟩ | ⟨-, hholds⟩
    · exact Bool.false_ne_true (hfloor.symm.trans hholds)
    · exact Bool.false_ne_true (hnext.symm.trans hholds)
  · simp [multiple?_eq, hfloor, hnext] at h
  · simp [multiple?_eq, hfloor, hnext] at h
  · rcases multiple?_of_both tie hfloor hnext with ⟨hsome, -⟩ | ⟨hsome, -⟩ <;> simp [hsome] at h

/-- What is found lies in the interval, and no multiple in the interval is nearer to the center. -/
theorem multiple?_eq_some (hi : i.Contains i.center) (h : i.multiple? tie t = some d) :
    d.exponent = t ∧ i.Contains d.value ∧
      ∀ c : ℕ, i.Contains (c * 10 ^ t) → |d.value - i.center| ≤ |c * 10 ^ t - i.center| := by
  cases hfloor : i.holds t (i.floorAt t) <;> cases hnext : i.holds t (i.floorAt t + 1)
  · simp [multiple?_eq, hfloor, hnext] at h
  · simp only [multiple?_eq, hfloor, hnext, Option.some.injEq] at h
    subst h
    refine ⟨rfl, holds_iff.1 hnext, fun c hc => ?_⟩
    rcases holds_next hi hc with ⟨-, hholds⟩ | ⟨hlt, -⟩
    · exact absurd (hfloor.symm.trans hholds) Bool.false_ne_true
    · exact abs_floorAt_succ_le hlt
  · simp only [multiple?_eq, hfloor, hnext, Option.some.injEq] at h
    subst h
    refine ⟨rfl, holds_iff.1 hfloor, fun c hc => ?_⟩
    rcases holds_next hi hc with ⟨hle, -⟩ | ⟨-, hholds⟩
    · exact abs_floorAt_le hle
    · exact absurd (hnext.symm.trans hholds) Bool.false_ne_true
  · rcases multiple?_of_both tie hfloor hnext with ⟨hsome, hle⟩ | ⟨hsome, hle⟩ <;>
      rw [hsome, Option.some.injEq] at h <;> subst h
    · refine ⟨rfl, holds_iff.1 hfloor, fun c _ => ?_⟩
      rcases le_or_gt c (i.floorAt t) with hc | hc
      · exact abs_floorAt_le hc
      · exact hle.trans (abs_floorAt_succ_le hc)
    · refine ⟨rfl, holds_iff.1 hnext, fun c _ => ?_⟩
      rcases le_or_gt c (i.floorAt t) with hc | hc
      · exact hle.trans (abs_floorAt_le hc)
      · exact abs_floorAt_succ_le hc

end Multiple

theorem contains_of_lt (hlo : i.lower * 2 ^ i.exponent < v) (hhi : v < i.upper * 2 ^ i.exponent) :
    i.Contains v := by
  unfold Contains
  split_ifs
  · exact ⟨hlo.le, hhi.le⟩
  · exact ⟨hlo, hhi⟩

theorem Contains.of_lt_of_le (hv : i.Contains v) (hlo : i.lower * 2 ^ i.exponent < x) (hx : x ≤ v) :
    i.Contains x := by
  unfold Contains at *
  split_ifs at *
  · exact ⟨hlo.le, hx.trans hv.2⟩
  · exact ⟨hlo, hx.trans_lt hv.2⟩

/-- Between a number inside and one outside lies an end. -/
theorem exists_end (hv : i.Contains v) (hw : ¬ i.Contains w) :
    ∃ n, (n = i.lower ∨ n = i.upper) ∧ |v - n * 2 ^ i.exponent| ≤ |w - v| := by
  obtain ⟨hlo, hhi⟩ := hv.bounds
  rcases le_or_gt w (i.lower * 2 ^ i.exponent) with h | h
  · refine ⟨i.lower, Or.inl rfl, ?_⟩
    rw [abs_of_nonneg (by linarith), abs_sub_comm, abs_of_nonneg (by linarith)]
    linarith
  · have hout : i.upper * 2 ^ i.exponent ≤ w := not_lt.1 fun hlt => hw (contains_of_lt h hlt)
    refine ⟨i.upper, Or.inr rfl, ?_⟩
    rw [abs_sub_comm, abs_of_nonneg (by linarith), abs_of_nonneg (by linarith)]
    linarith

/-- Some multiple is at most half a step away. -/
theorem exists_near (i : Interval) (t : ℤ) : ∃ n : ℕ, |n * 10 ^ t - i.center| * 2 ≤ 10 ^ t := by
  have hfloor := i.floorAt_le (t := t)
  have hnext := i.lt_floorAt_succ (t := t)
  push_cast at hnext
  rcases le_total (i.center - i.floorAt t * 10 ^ t) (10 ^ t / 2) with h | h
  · refine ⟨i.floorAt t, ?_⟩
    rw [abs_sub_comm, abs_of_nonneg (by linarith)]
    linarith
  · refine ⟨i.floorAt t + 1, ?_⟩
    push_cast
    rw [abs_of_nonneg (by linarith)]
    linarith

end Interval

theorem findSome?_range_eq_some {β : Type} {f : ℕ → Option β} {b : β} :
    ∀ {n : ℕ}, (List.range n).findSome? f = some b → ∃ k < n, f k = some b ∧ ∀ j < k, f j = none
  | 0, h => by simp at h
  | n + 1, h => by
    rw [List.range_succ, List.findSome?_append, Option.or_eq_some_iff] at h
    rcases h with h | ⟨hnone, h⟩
    · obtain ⟨k, hk, hf, hbefore⟩ := findSome?_range_eq_some h
      exact ⟨k, by omega, hf, hbefore⟩
    · refine ⟨n, by omega, by simpa using h, fun j hj => ?_⟩
      exact List.findSome?_eq_none_iff.1 hnone j (List.mem_range.2 hj)

/-! The search in single precision. -/

section Search

open Binary

/-- The first power of ten that is tried for numbers with `b` binary digits before the point. -/
def coarsestFor (b : ℤ) : ℤ := (if 0 ≤ b then b * 302 / 1000 else b * 301 / 1000) + 1

/-- The search starts above all numbers with `b` digits, and ends far below the gaps between
them. -/
theorem coarsestFor_fits : ∀ k : ℕ, k < 277 → let b : ℤ := k - 148
    10 ^ (coarsestFor b - 23).toNat * 2 ^ (-(b - 25)).toNat <
      2 ^ (b - 25).toNat * 10 ^ (-(coarsestFor b - 23)).toNat ∧
    ¬ 10 ^ (coarsestFor b + 1).toNat * 2 ^ (-b).toNat <
      2 ^ b.toNat * 10 ^ (-(coarsestFor b + 1)).toNat := by
  decide +kernel

theorem coarsestFor_bounds {b : ℤ} (hlow : -148 ≤ b) (hhigh : b ≤ 128) :
    (10 : ℚ) ^ (coarsestFor b - 23) < 2 ^ (b - 25) ∧ (2 : ℚ) ^ b ≤ 10 ^ (coarsestFor b + 1) := by
  have h := coarsestFor_fits (b + 148).toNat (by omega)
  simp only [show (((b + 148).toNat : ℕ) : ℤ) - 148 = b by omega] at h
  rw [← ten_zpow_lt_two_zpow, ← ten_zpow_lt_two_zpow,
    not_lt] at h
  exact h

variable {m : ℕ} {q : ℤ}

theorem center_ofBinary (format : Format) (m : ℕ) (q : ℤ) :
    (Interval.ofBinary format m q).center = m * 2 ^ q := by
  simp only [Interval.center, Interval.ofBinary]
  rw [two_zpow_sub_two q]
  push_cast
  ring

theorem coarsest_ofBinary (format : Format) (hm : 0 < m) (q : ℤ) :
    (Interval.ofBinary format m q).coarsest = coarsestFor (m.log2 + 1 + q) := by
  have hlog : (4 * m).log2 = m.log2 + 2 := by
    rw [← log2_shiftLeft hm 2, Nat.shiftLeft_eq]
    ring_nf
  simp only [Interval.coarsest, Interval.ofBinary, coarsestFor, hlog]
  rw [show ((m.log2 + 2 : ℕ) : ℤ) + 1 + (q - 2) = m.log2 + 1 + q by push_cast; ring]

/-- The upper half of the interval has a multiple of every smaller power of ten. -/
theorem exists_contains_of_lt (format : Format) (hm : 0 < m) {t : ℤ}
    (ht : (10 : ℚ) ^ t < 2 ^ (q - 1)) :
    ∃ c : ℕ, (Interval.ofBinary format m q).Contains (c * 10 ^ t) := by
  obtain ⟨i, hi⟩ : ∃ i, Interval.ofBinary format m q = i := ⟨_, rfl⟩
  have hfloor := i.floorAt_le (t := t)
  have hnext := i.lt_floorAt_succ (t := t)
  have hcenter : i.center = m * 2 ^ q := hi ▸ center_ofBinary format m q
  have hlower := (show (Interval.ofBinary format m q).Contains _ from contains_self hm q).bounds.1
  rw [hi] at hlower ⊢
  refine ⟨i.floorAt t + 1, Interval.contains_of_lt (by linarith) ?_⟩
  have hupper : (i.upper : ℚ) * 2 ^ i.exponent = m * 2 ^ q + 2 ^ (q - 1) := by
    rw [← hi, Interval.ofBinary, two_zpow_sub_two q, show q - 1 = q - 2 + 1 by ring,
      zpow_add_one₀ two_ne_zero]
    push_cast
    ring
  rw [hupper]
  push_cast
  linarith

variable {tie : Tie}

theorem contains_center (hm : 0 < m) (q : ℤ) :
    (Interval.ofBinary .binary32 m q).Contains (Interval.ofBinary .binary32 m q).center := by
  rw [center_ofBinary]
  exact contains_self hm q

theorem le_of_multiple?_eq_none (hm : 0 < m) {t : ℤ}
    (h : (Interval.ofBinary .binary32 m q).multiple? tie t = none) :
    (2 : ℚ) ^ (q - 1) ≤ 10 ^ t := by
  by_contra hlt
  obtain ⟨c, hcontains⟩ := exists_contains_of_lt .binary32 hm (not_le.1 hlt)
  exact Interval.multiple?_eq_none (contains_center hm q) h c hcontains

theorem coarsest_bounds (hc : Canonical .binary32 m q) (hq : q ≤ 104) :
    (10 : ℚ) ^ ((Interval.ofBinary .binary32 m q).coarsest - 23) < 2 ^ (q - 1) ∧
      (2 : ℚ) ^ (m.log2 + 1 + q : ℤ) ≤ 10 ^ ((Interval.ofBinary .binary32 m q).coarsest + 1) := by
  have hmin : -149 ≤ q := hc.min
  have hlog : m.log2 < 24 := (Nat.log2_lt hc.pos.ne').2 hc.lt
  obtain ⟨hfine, habove⟩ := coarsestFor_bounds (b := m.log2 + 1 + q) (by omega) (by omega)
  rw [coarsest_ofBinary .binary32 hc.pos q]
  exact ⟨hfine.trans_le ((zpow_le_zpow_iff_right₀ one_lt_two).2 (by omega)), habove⟩

/-- Away from powers of two, and for subnormal numbers, the interval is the same on both sides. -/
theorem ends_ofBinary (hm : 0 < m) (hsymm : m = 2 ^ 23 → q = -149) :
    (Interval.ofBinary .binary32 m q).lower * 2 ^ (q - 2) = (m * 2 ^ q - 2 ^ (q - 1) : ℚ) ∧
    (Interval.ofBinary .binary32 m q).upper * 2 ^ (q - 2) = (m * 2 ^ q + 2 ^ (q - 1) : ℚ) := by
  have hlower : (Interval.ofBinary .binary32 m q).lower = 4 * m - 2 := by
    rw [Interval.ofBinary]
    refine if_neg fun h => ?_
    have hlt := h.2
    rw [hsymm h.1] at hlt
    exact absurd hlt (by decide)
  rw [hlower, Nat.cast_sub (by omega), two_zpow_sub_two q, show q - 1 = q - 2 + 1 by ring,
    zpow_add_one₀ two_ne_zero]
  simp only [Interval.ofBinary]
  push_cast
  constructor <;> ring

/-- Half a step from a number is an odd number of half steps. -/
theorem exists_odd_of_half (hm : 0 < m) {w : ℚ}
    (hw : w = m * 2 ^ q - 2 ^ (q - 1) ∨ w = m * 2 ^ q + 2 ^ (q - 1)) :
    ∃ P : ℕ, (P = 2 * m - 1 ∨ P = 2 * m + 1) ∧ w = P * 2 ^ (q - 1) := by
  have hunit : (2 : ℚ) ^ q = 2 * 2 ^ (q - 1) := by
    rw [zpow_sub_one₀ two_ne_zero]
    ring
  rcases hw with rfl | rfl
  · refine ⟨2 * m - 1, Or.inl rfl, ?_⟩
    rw [hunit, Nat.cast_sub (by omega)]
    push_cast
    ring
  · refine ⟨2 * m + 1, Or.inr rfl, ?_⟩
    rw [hunit]
    push_cast
    ring

/-- With an odd mantissa the interval does not hold its ends. -/
theorem abs_sub_lt_of_contains (hodd : m % 2 = 1) {w : ℚ}
    (hw : (Interval.ofBinary .binary32 m q).Contains w) : |w - m * 2 ^ q| < 2 ^ (q - 1) := by
  obtain ⟨hlower, hupper⟩ := ends_ofBinary (m := m) (q := q) (by omega) fun hpower => by omega
  have hopen : (Interval.ofBinary .binary32 m q).closed = false := by
    simp [Interval.ofBinary, hodd]
  rw [Interval.Contains, if_neg (by simp [hopen]),
    show (Interval.ofBinary .binary32 m q).exponent = q - 2 from rfl, hlower, hupper] at hw
  exact abs_lt.2 ⟨by linarith [hw.1], by linarith [hw.2]⟩

theorem contains_of_nearer {v w : ℚ} (hm : 0 < m) (hsymm : m = 2 ^ 23 → q = -149)
    (hv : (Interval.ofBinary .binary32 m q).Contains v) (hw : |w - m * 2 ^ q| ≤ |v - m * 2 ^ q|) :
    (Interval.ofBinary .binary32 m q).Contains w := by
  obtain ⟨hlower, hupper⟩ := ends_ofBinary hm hsymm
  unfold Interval.Contains at hv ⊢
  rw [show (Interval.ofBinary .binary32 m q).exponent = q - 2 from rfl, hlower, hupper] at hv ⊢
  split_ifs at hv ⊢
  · have := hw.trans (abs_le.2 ⟨by linarith, by linarith⟩ : |v - m * 2 ^ q| ≤ 2 ^ (q - 1))
    rw [abs_le] at this
    constructor <;> linarith
  · have := hw.trans_lt (abs_lt.2 ⟨by linarith, by linarith⟩ : |v - m * 2 ^ q| < 2 ^ (q - 1))
    rw [abs_lt] at this
    constructor <;> linarith

/-- The interval lies above zero and below the power of two that no mantissa reaches. -/
theorem lt_of_contains {v : ℚ} (hc : Canonical .binary32 m q)
    (hv : (Interval.ofBinary .binary32 m q).Contains v) :
    0 < v ∧ v < 2 ^ (q + 24) := by
  obtain ⟨hlo, hhi⟩ := hv.bounds
  have hunit : (0 : ℚ) < 2 ^ (q - 2) := by positivity
  have hone : (1 : ℚ) ≤ m := by exact_mod_cast hc.pos
  have hlower := sub_two_le_lower .binary32 hc.pos q
  have hupper : ((4 * m + 2 : ℕ) : ℚ) < 2 ^ 26 := by
    have hlt : m < 2 ^ 24 := hc.lt
    exact_mod_cast (by omega : 4 * m + 2 < 2 ^ 26)
  constructor
  · exact lt_of_lt_of_le (mul_pos (by linarith) hunit) hlo
  · calc v ≤ ((4 * m + 2 : ℕ) : ℚ) * 2 ^ (q - 2) := hhi
      _ < 2 ^ 26 * 2 ^ (q - 2) := by gcongr
      _ = 2 ^ (q + 24) := by rw [← zpow_natCast, ← zpow_add₀ two_ne_zero]; congr 1; push_cast; ring

/-- A power of ten above the interval has no multiple in it. -/
theorem not_contains_of_le (hc : Canonical .binary32 m q) {t : ℤ}
    (ht : (2 : ℚ) ^ (m.log2 + 1 + q : ℤ) ≤ 10 ^ t) (n : ℕ) :
    ¬ (Interval.ofBinary .binary32 m q).Contains (n * 10 ^ t) := by
  intro hn
  have hpos := (lt_of_contains hc hn).1
  have hunit : (0 : ℚ) < 10 ^ t := by positivity
  have hone : (1 : ℚ) ≤ n := by exact_mod_cast pos_of_mul_pos_left hpos hunit.le
  have hstep : (0 : ℚ) < 2 ^ (q - 2) := by positivity
  have hsize : (m : ℚ) + 1 ≤ 2 ^ (m.log2 + 1) := by exact_mod_cast Nat.lt_log2_self
  have hpower : (2 : ℚ) ^ (m.log2 + 1 + q : ℤ) = 2 ^ (m.log2 + 1) * (4 * 2 ^ (q - 2)) := by
    rw [zpow_add₀ two_ne_zero, two_zpow_sub_two q]
    norm_cast
  have hupper := hn.bounds.2
  simp only [Interval.ofBinary] at hupper
  push_cast at hupper
  have hmany : (10 : ℚ) ^ t ≤ n * 10 ^ t := le_mul_of_one_le_left hunit.le hone
  have hcapacity := mul_le_mul_of_nonneg_right hsize (by positivity : (0 : ℚ) ≤ 4 * 2 ^ (q - 2))
  linarith

/-- The search succeeds, and there was nothing on the next coarser grid. -/
theorem shortest_eq_normalize (hc : Canonical .binary32 m q) (hq : q ≤ 104) (tie : Tie) :
    ∃ d, (Interval.ofBinary .binary32 m q).shortest tie = d.normalize ∧
      (Interval.ofBinary .binary32 m q).multiple? tie d.exponent = some d ∧
      ∀ n : ℕ, ¬ (Interval.ofBinary .binary32 m q).Contains (n * 10 ^ (d.exponent + 1)) := by
  obtain ⟨hfine, habove⟩ := coarsest_bounds hc hq
  obtain ⟨i, hi⟩ : ∃ i, Interval.ofBinary .binary32 m q = i := ⟨_, rfl⟩
  have hself : i.Contains i.center := hi ▸ contains_center hc.pos q
  have hover : ∀ n : ℕ, ¬ i.Contains (n * 10 ^ (i.coarsest + 1)) := hi ▸ not_contains_of_le hc habove
  have hsome : i.multiple? tie (i.coarsest - (23 : ℕ)) ≠ none := fun hnone => by
    subst hi
    exact not_le.2 hfine (le_of_multiple?_eq_none hc.pos hnone)
  rw [hi]
  have hfound :
      ((List.range 24).findSome? fun k : ℕ => i.multiple? tie (i.coarsest - k)).isSome := by
    rw [List.findSome?_isSome_iff]
    exact ⟨23, by simp, Option.isSome_iff_ne_none.2 hsome⟩
  obtain ⟨d, hd⟩ := Option.isSome_iff_exists.1 hfound
  obtain ⟨k, -, hk, hbefore⟩ := findSome?_range_eq_some hd
  have hexp := (Interval.multiple?_eq_some hself hk).1
  refine ⟨d, by simp [Interval.shortest, hd], by rw [hexp]; exact hk, fun n => ?_⟩
  rw [hexp]
  rcases Nat.eq_zero_or_pos k with rfl | hpos
  · simpa using hover n
  · have := Interval.multiple?_eq_none hself (hbefore (k - 1) (by omega)) n
    rwa [show i.coarsest - ((k - 1 : ℕ) : ℤ) = i.coarsest - k + 1 by omega] at this

end Search

/-- A decimal of an interval with the fewest digits. -/
structure Shortest (i : Interval) (d : Decimal) : Prop where
  contains : i.Contains d.value
  fewest : ∀ c : Decimal, i.Contains c.value → ∀ k, c.digits < 10 ^ k → d.digits < 10 ^ k

/-- A decimal with the fewest digits, and of the multiples of its power of ten the nearest. -/
structure Closest (i : Interval) (d : Decimal) : Prop extends Shortest i d where
  nearest : ∀ n : ℕ, i.Contains (n * 10 ^ d.exponent) →
    |d.value - i.center| ≤ |n * 10 ^ d.exponent - i.center|

/-- Without a multiple of the next power of ten in the interval there is no shorter decimal. -/
theorem shortest_of_not_contains {i : Interval} {d : Decimal} (hpos : ∀ v, i.Contains v → 0 < v)
    (hd : i.Contains d.value) (hcoarser : ∀ n : ℕ, ¬ i.Contains (n * 10 ^ (d.exponent + 1))) :
    Shortest i d where
  contains := hd
  fewest c hc k hk := by
    by_contra! hlong
    have hten : (0 : ℚ) < 10 ^ d.exponent := by positivity
    rcases lt_or_ge d.exponent c.exponent with hlt | hle
    · refine hcoarser (c.digits * 10 ^ (c.exponent - (d.exponent + 1)).toNat) ?_
      convert hc using 1
      rw [value]
      push_cast
      rw [mul_assoc, ← zpow_natCast, ← zpow_add₀ (by norm_num)]
      congr 2
      omega
    · have hbelow : c.value ≤ 10 ^ k * 10 ^ d.exponent := by
        rw [value]
        gcongr
        · exact_mod_cast hk.le
        · norm_num
      have habove : (10 : ℚ) ^ k * 10 ^ d.exponent ≤ d.value := by
        rw [value]
        gcongr
        exact_mod_cast hlong
      have hround := hc.of_between hd hbelow habove
      cases k with
      | zero =>
        have hzero : c.digits = 0 := by omega
        have := hpos _ hc
        simp [value, hzero] at this
      | succ k =>
        refine hcoarser (10 ^ k) ?_
        convert hround using 1
        rw [zpow_add_one₀ (by norm_num)]
        push_cast
        ring

section Grid

open Binary

variable {m : ℕ} {q : ℤ} {d : Decimal}

/-- What the search finds is as short as any decimal of the interval. -/
theorem closest_shortest (hc : Canonical .binary32 m q) (hq : q ≤ 104) (tie : Tie) :
    Closest (.ofBinary .binary32 m q) ((Interval.ofBinary .binary32 m q).shortest tie) := by
  obtain ⟨d, hshortest, hd, hcoarser⟩ := shortest_eq_normalize hc hq tie
  obtain ⟨-, hcontains, hnearest⟩ := Interval.multiple?_eq_some (contains_center hc.pos q) hd
  have hlast : d.digits % 10 ≠ 0 := fun hzero => by
    refine hcoarser (d.digits / 10) ?_
    convert hcontains using 1
    have hten : (d.digits : ℚ) = 10 * (d.digits / 10 : ℕ) := by
      exact_mod_cast (Nat.mul_div_cancel' (Nat.dvd_of_mod_eq_zero hzero)).symm
    rw [value, hten, zpow_add_one₀ (by norm_num)]
    ring
  rw [hshortest, normalize_eq_self hlast]
  exact ⟨shortest_of_not_contains (fun v hv => (lt_of_contains hc hv).1) hcontains hcoarser, hnearest⟩

/-- Dropping the last digit leaves the interval, whichever way the rest is rounded. -/
theorem Shortest.not_contains_next {i : Interval} (h : Shortest i d) (hd : 10 < d.digits) {n : ℕ}
    (hn : n ≤ d.digits / 10 + 1) : ¬ i.Contains (n * 10 ^ (d.exponent + 1)) := by
  intro hcontains
  obtain ⟨k, hk⟩ : ∃ k, Nat.log 10 d.digits = k := ⟨_, rfl⟩
  have hlow : 10 ^ k ≤ d.digits := hk ▸ Nat.pow_log_le_self 10 (by omega)
  have hhigh : d.digits < 10 ^ (k + 1) := hk ▸ Nat.lt_pow_succ_log_self (by norm_num) _
  have hle : n ≤ 10 ^ k := by
    rw [pow_succ] at hhigh
    omega
  rcases hle.lt_or_eq with hlt | rfl
  · exact absurd (h.fewest ⟨n, d.exponent + 1⟩ hcontains k hlt) (not_lt.2 hlow)
  · -- a power of ten has a single digit
    have hone : i.Contains (Decimal.value ⟨1, d.exponent + 1 + k⟩) := by
      convert hcontains using 1
      rw [value, zpow_add₀ (by norm_num) (d.exponent + 1)]
      push_cast
      rw [zpow_natCast]
      ring
    have := h.fewest _ hone 1 (by norm_num)
    omega

/-- The interval is almost as wide as the gap between numbers, and so far from zero. -/
theorem width_ofBinary (hm : 0 < m) (q : ℤ) :
    (2 : ℚ) ^ (q - 1) ≤ (Interval.ofBinary .binary32 m q).lower * 2 ^ (q - 2) ∧
    (Interval.ofBinary .binary32 m q).lower * 2 ^ (q - 2) + (2 : ℚ) ^ (q - 1) <
      (Interval.ofBinary .binary32 m q).upper * 2 ^ (q - 2) := by
  have hstep : (0 : ℚ) < 2 ^ (q - 2) := by positivity
  have hhalf : (2 : ℚ) ^ (q - 1) = 2 * 2 ^ (q - 2) := by
    rw [show q - 1 = q - 2 + 1 by ring, zpow_add_one₀ two_ne_zero]
    ring
  have hlow : 2 ≤ (Interval.ofBinary .binary32 m q).lower := by
    rw [Interval.ofBinary]
    dsimp only
    split_ifs <;> omega
  have hwide : (Interval.ofBinary .binary32 m q).lower + 3 ≤
      (Interval.ofBinary .binary32 m q).upper := by
    rw [Interval.ofBinary]
    dsimp only
    split_ifs <;> omega
  have hlow' : (2 : ℚ) ≤ (Interval.ofBinary .binary32 m q).lower := by exact_mod_cast hlow
  have hwide' : ((Interval.ofBinary .binary32 m q).lower : ℚ) + 3 ≤
      (Interval.ofBinary .binary32 m q).upper := by exact_mod_cast hwide
  rw [hhalf]
  exact ⟨mul_le_mul_of_nonneg_right hlow' hstep.le,
    by linarith [mul_le_mul_of_nonneg_right hwide' hstep.le]⟩

/-- A grid finer by a factor of ten would have allowed for a shorter decimal. -/
theorem Shortest.coarse (h : Shortest (.ofBinary .binary32 m q) d) (hm : 0 < m) :
    (2 : ℚ) ^ (q - 1) ≤ 10 ^ (d.exponent + 1) := by
  by_contra! hfine
  obtain ⟨hstart, hwide⟩ := width_ofBinary hm q
  obtain ⟨hlo, hhi⟩ := h.contains.bounds
  rw [show (Interval.ofBinary .binary32 m q).exponent = q - 2 from rfl] at hlo hhi
  have hten : (0 : ℚ) < 10 ^ d.exponent := by positivity
  have hstep : (10 : ℚ) ^ (d.exponent + 1) = 10 * 10 ^ d.exponent := by
    rw [zpow_add_one₀ (by norm_num)]
    ring
  have hmany : 10 < d.digits := by
    have hsize : (10 : ℚ) * 10 ^ d.exponent < d.digits * 10 ^ d.exponent := by
      rw [value] at hlo
      linarith
    exact_mod_cast lt_of_mul_lt_mul_right hsize hten.le
  have hbelow : ((d.digits / 10 : ℕ) : ℚ) * 10 ^ (d.exponent + 1) ≤ d.value := by
    have : ((d.digits / 10 * 10 : ℕ) : ℚ) ≤ d.digits := by exact_mod_cast Nat.div_mul_le_self _ _
    rw [value, hstep, ← mul_assoc]
    exact mul_le_mul_of_nonneg_right (by exact_mod_cast this) hten.le
  have habove : d.value < ((d.digits / 10 + 1 : ℕ) : ℚ) * 10 ^ (d.exponent + 1) := by
    have : (d.digits : ℚ) < ((d.digits / 10 + 1) * 10 : ℕ) := by exact_mod_cast (by omega)
    rw [value, hstep, ← mul_assoc]
    exact mul_lt_mul_of_pos_right (by exact_mod_cast this) hten
  rcases lt_or_ge ((Interval.ofBinary .binary32 m q).lower * 2 ^ (q - 2) : ℚ)
    ((d.digits / 10 : ℕ) * 10 ^ (d.exponent + 1)) with hin | hout
  · exact h.not_contains_next hmany (Nat.le_succ _) (h.contains.of_lt_of_le hin hbelow)
  · refine h.not_contains_next hmany le_rfl (Interval.contains_of_lt (hlo.trans_lt habove) ?_)
    refine lt_of_le_of_lt ?_ hwide
    push_cast at hout ⊢
    linarith

structure Found (m : ℕ) (q : ℤ) (d : Decimal) : Prop where
  pos : 0 < d.digits
  lt : d.digits < 2 ^ 29
  contains : (Interval.ofBinary .binary32 m q).Contains d.value
  coarse : (2 : ℚ) ^ (q - 1) ≤ 10 ^ (d.exponent + 1)
  near : (m = 2 ^ 23 → q = -149) → |d.value - m * 2 ^ q| * 2 ≤ 10 ^ d.exponent

/-- On a grid that is not much finer than that of the numbers no decimal of an interval is long. -/
theorem digits_bounds (hc : Canonical .binary32 m q)
    (hd : (Interval.ofBinary .binary32 m q).Contains d.value)
    (hcoarse : (2 : ℚ) ^ (q - 1) ≤ 10 ^ (d.exponent + 1)) :
    0 < d.digits ∧ d.digits < 2 ^ 29 := by
  obtain ⟨hpos, hlt⟩ := lt_of_contains hc hd
  have hten : (0 : ℚ) < 10 ^ d.exponent := by positivity
  constructor
  · exact_mod_cast pos_of_mul_pos_left hpos hten.le
  · have hbound : (d.digits : ℚ) * 10 ^ d.exponent < 2 ^ 29 * 10 ^ d.exponent := by
      rw [zpow_add_one₀ (by norm_num), zpow_sub_one₀ two_ne_zero] at hcoarse
      rw [value, zpow_add₀ two_ne_zero] at hlt
      norm_num at hlt hcoarse ⊢
      linarith
    exact_mod_cast lt_of_mul_lt_mul_right hbound hten.le

theorem Closest.found (h : Closest (.ofBinary .binary32 m q) d) (hc : Canonical .binary32 m q) :
    Found m q d := by
  have hcoarse := h.coarse hc.pos
  obtain ⟨hpos, hlt⟩ := digits_bounds hc h.contains hcoarse
  refine ⟨hpos, hlt, h.contains, hcoarse, fun hsymm => ?_⟩
  -- a multiple half a step away would be inside too, and nearer
  obtain ⟨n, hn⟩ := (Interval.ofBinary .binary32 m q).exists_near d.exponent
  have hnearest := h.nearest n
  rw [center_ofBinary] at hn hnearest
  by_contra hfar
  have := hnearest (contains_of_nearer hc.pos hsymm h.contains (by linarith))
  linarith

end Grid

end Decimal

end NeuralFlow
