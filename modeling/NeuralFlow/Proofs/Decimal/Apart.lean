import Mathlib
import NeuralFlow.Proofs.Decimal.Shortest

/-! Shortest decimals and the ends of intervals. A decimal close to an end, but not on it, would
make a fraction with small terms close to the quotient of a power of ten and a power of two. The
best such fractions are known for every exponent, and with one exception none of them belongs to an
end. -/

namespace NeuralFlow.Decimal

open Binary

/-! Fractions with small denominators next to a given one. -/

/-- The fractions around `a / b` with the largest denominators up to the limit: mediants replace the
lower or the upper fraction, as often at once as they stay on one side. -/
def neighbours (a b limit : ℕ) : ℕ → ℕ × ℕ → ℕ × ℕ → (ℕ × ℕ) × (ℕ × ℕ)
  | 0, low, high => (low, high)
  | fuel + 1, (p, w), (r, z) =>
    if limit < w + z then ((p, w), (r, z))
    else
      let below := a * w - p * b
      let above := r * b - a * z
      if below < above then
        let room := (limit - z) / w
        let k := if below = 0 then room else min room ((above - 1) / below)
        neighbours a b limit fuel (p, w) (r + k * p, z + k * w)
      else
        let k := min ((limit - w) / z) (below / above)
        neighbours a b limit fuel (p + k * r, w + k * z) (r, z)

/-- Two fractions around `a / b` with no fraction of a smaller denominator between them. -/
structure Neighbours (a b limit : ℕ) (l h : ℕ × ℕ) : Prop where
  low : l.1 * b ≤ a * l.2
  high : a * h.2 ≤ h.1 * b
  det : h.1 * l.2 = l.1 * h.2 + 1
  limit_lt : limit < l.2 + h.2
  low_le : l.2 ≤ limit
  high_le : h.2 ≤ limit

instance (a b limit : ℕ) (l h : ℕ × ℕ) : Decidable (Neighbours a b limit l h) :=
  decidable_of_iff (l.1 * b ≤ a * l.2 ∧ a * h.2 ≤ h.1 * b ∧ h.1 * l.2 = l.1 * h.2 + 1 ∧
      limit < l.2 + h.2 ∧ l.2 ≤ limit ∧ h.2 ≤ limit)
    ⟨fun ⟨h1, h2, h3, h4, h5, h6⟩ => ⟨h1, h2, h3, h4, h5, h6⟩,
      fun ⟨h1, h2, h3, h4, h5, h6⟩ => ⟨h1, h2, h3, h4, h5, h6⟩⟩

def Close (a b p w : ℕ) : Prop := ((a * w : ℤ) - p * b).natAbs * 2 ^ 51 ≤ a * w

instance (a b p w : ℕ) : Decidable (Close a b p w) := inferInstanceAs (Decidable (_ ≤ _))

theorem close_iff {a b p w : ℕ} : Close a b p w ↔ |(a * w : ℤ) - p * b| * 2 ^ 51 ≤ a * w := by
  rw [Close, ← Int.natCast_natAbs]
  norm_cast

section Fractions

variable {a b p w r z P n : ℕ}

/-- No fraction with a denominator up to the limit lies between neighbours. -/
theorem Neighbours.not_between (h : Neighbours a b (2 ^ 24) (p, w) (r, z)) (hn : n ≤ 2 ^ 24) :
    P * w ≤ p * n ∨ r * n ≤ P * z := by
  by_contra hbetween
  obtain ⟨hlow, hhigh⟩ := not_or.1 hbetween
  have hsum : w + z ≤ n := by
    have hdet := h.det
    zify at *
    have h1 : (p : ℤ) * n + 1 ≤ P * w := by omega
    have h2 : (P : ℤ) * z + 1 ≤ r * n := by omega
    have hw : (0 : ℤ) ≤ w := by positivity
    have hz : (0 : ℤ) ≤ z := by positivity
    nlinarith [mul_le_mul_of_nonneg_left h1 hz, mul_le_mul_of_nonneg_left h2 hw]
  have := h.limit_lt
  omega

/-- If one fraction is not nearer to `a / b` than another one on the same side, the distances add
up. -/
theorem distances_add (hside : (P * w ≤ p * n ∧ p * b ≤ a * w) ∨ (p * n ≤ P * w ∧ a * w ≤ p * b)) :
    n * |(a * w : ℤ) - p * b| + |(p * n : ℤ) - P * w| * b = w * |(a * n : ℤ) - P * b| := by
  have hsplit : (w * (a * n - P * b) : ℤ) = n * (a * w - p * b) + (p * n - P * w) * b := by ring
  have hsigns : (0 ≤ (n * (a * w - p * b) : ℤ) ∧ 0 ≤ ((p * n - P * w) * b : ℤ)) ∨
      ((n * (a * w - p * b) : ℤ) ≤ 0 ∧ ((p * n - P * w) * b : ℤ) ≤ 0) := by
    zify at hside
    refine hside.imp (fun h => ⟨?_, ?_⟩) (fun h => ⟨?_, ?_⟩)
    · exact mul_nonneg (Int.natCast_nonneg _) (sub_nonneg.2 h.2)
    · exact mul_nonneg (sub_nonneg.2 h.1) (Int.natCast_nonneg _)
    · exact mul_nonpos_of_nonneg_of_nonpos (Int.natCast_nonneg _) (sub_nonpos.2 h.2)
    · exact mul_nonpos_of_nonpos_of_nonneg (sub_nonpos.2 h.1) (Int.natCast_nonneg _)
  calc n * |(a * w : ℤ) - p * b| + |(p * n : ℤ) - P * w| * b
      = |(n * (a * w - p * b) : ℤ)| + |((p * n - P * w) * b : ℤ)| := by
        rw [abs_mul, abs_mul, Nat.abs_cast, Nat.abs_cast]
    _ = |(w * (a * n - P * b) : ℤ)| := by rw [hsplit, (abs_add_eq_add_abs_iff _ _).2 hsigns]
    _ = w * |(a * n : ℤ) - P * b| := by rw [abs_mul, Nat.abs_cast]

/-- A close fraction with small terms is equal to a close fraction on its side, if it is not nearer
than that. -/
theorem eq_of_close (hb : 0 < b) (hw : w ≤ 2 ^ 24) (hn : 0 < n) (hP : P < 2 ^ 25)
    (hclose : Close a b P n)
    (hside : (P * w ≤ p * n ∧ p * b ≤ a * w) ∨ (p * n ≤ P * w ∧ a * w ≤ p * b)) :
    P * w = p * n ∧ Close a b p w := by
  have hsum := distances_add hside
  rw [close_iff] at hclose ⊢
  zify at hb hw hn hP ⊢
  obtain ⟨x, hx⟩ : ∃ x : ℤ, |(a * n : ℤ) - P * b| = x := ⟨_, rfl⟩
  obtain ⟨y, hy⟩ : ∃ y : ℤ, |(a * w : ℤ) - p * b| = y := ⟨_, rfl⟩
  obtain ⟨g, hg⟩ : ∃ g : ℤ, |(p * n : ℤ) - P * w| = g := ⟨_, rfl⟩
  rw [hx] at hclose hsum
  rw [hy] at hsum ⊢
  rw [hg] at hsum
  have hg0 : 0 ≤ g := hg ▸ abs_nonneg _
  have hwide : (a * n : ℤ) ≤ 2 * P * b := by
    have hle : (a * n : ℤ) - P * b ≤ x := hx ▸ le_abs_self _
    have hPb : 0 ≤ (P : ℤ) * b := by positivity
    linarith
  have hscaled : w * x * 2 ^ 51 ≤ w * (a * n : ℤ) := by
    rw [mul_assoc]
    exact mul_le_mul_of_nonneg_left hclose (Int.natCast_nonneg w)
  -- different fractions with small terms are too far apart
  have hzero : g = 0 := by
    by_contra hne
    have hbx : (b : ℤ) ≤ w * x := by
      rw [← hsum]
      have hy0 : 0 ≤ (n : ℤ) * y := mul_nonneg hn.le (hy ▸ abs_nonneg _)
      have : 1 * (b : ℤ) ≤ g * b := mul_le_mul_of_nonneg_right (by omega) hb.le
      linarith
    have hlimit : w * (a * n : ℤ) ≤ 2 ^ 50 * b := by
      calc w * (a * n : ℤ) ≤ 2 ^ 24 * (2 * 2 ^ 25 * b) := by
            refine mul_le_mul hw (hwide.trans ?_) (by positivity) (by norm_num)
            gcongr
        _ = 2 ^ 50 * b := by ring
    linarith
  refine ⟨?_, ?_⟩
  · rw [hzero, abs_eq_zero, sub_eq_zero] at hg
    exact hg.symm
  · rw [hzero, zero_mul, add_zero] at hsum
    refine le_of_mul_le_mul_left (a := (n : ℤ)) ?_ hn
    calc (n : ℤ) * (y * 2 ^ 51) = w * x * 2 ^ 51 := by rw [← hsum]; ring
      _ ≤ w * (a * n : ℤ) := hscaled
      _ = n * (a * w : ℤ) := by ring

end Fractions

/-! The quotients that matter. -/

/-- The finest grid that can matter for numbers with the exponent `q`. -/
def gridFor (q : ℤ) : ℤ := (q * 30103 + 99999) / 100000

/-- Why `p / w` is no obstacle, where `a / b` is `10 ^ gridFor q / 2 ^ (q - 1)`. Ends of intervals
have odd numerators below `2 ^ 25`. -/
def Harmless (q : ℤ) (a b p w : ℕ) : Prop :=
  ¬ Close a b p w ∨ p % 2 = 0 ∨ 2 ^ 25 ≤ p ∨ (a * w = p * b ∧ -22 ≤ gridFor q ∧ q ≤ 40) ∨
    (q = -107 ∧ p = 22841339)

instance (q : ℤ) (a b p w : ℕ) :
    Decidable (Harmless q a b p w) := inferInstanceAs (Decidable (_ ∨ _))

def numerator (q : ℤ) : ℕ := 10 ^ (gridFor q).toNat * 2 ^ (-(q - 1)).toNat

def denominator (q : ℤ) : ℕ := 2 ^ (q - 1).toNat * 10 ^ (-gridFor q).toNat

def around (q : ℤ) : (ℕ × ℕ) × (ℕ × ℕ) :=
  neighbours (numerator q) (denominator q) (2 ^ 24) 80 (numerator q / denominator q, 1)
    (numerator q / denominator q + 1, 1)

/-- What is checked for every exponent: the grid is the finest that is not finer than the numbers,
up to a small fraction, and the two neighbours of the quotient are no obstacle. -/
structure GridFits (q : ℤ) : Prop where
  neighbours : Neighbours (numerator q) (denominator q) (2 ^ 24) (around q).1 (around q).2
  low : Harmless q (numerator q) (denominator q) (around q).1.1 (around q).1.2
  high : Harmless q (numerator q) (denominator q) (around q).2.1 (around q).2.2
  fine : numerator q * 2 ^ 26 < denominator q * 20 * (2 ^ 26 - 1)
  coarse : denominator q * 2 * (2 ^ 26 - 1) ≤ numerator q * 2 ^ 26

instance (q : ℤ) : Decidable (GridFits q) :=
  decidable_of_iff (Neighbours (numerator q) (denominator q) (2 ^ 24) (around q).1 (around q).2 ∧
      Harmless q (numerator q) (denominator q) (around q).1.1 (around q).1.2 ∧
      Harmless q (numerator q) (denominator q) (around q).2.1 (around q).2.2 ∧
      numerator q * 2 ^ 26 < denominator q * 20 * (2 ^ 26 - 1) ∧
      denominator q * 2 * (2 ^ 26 - 1) ≤ numerator q * 2 ^ 26)
    ⟨fun ⟨h1, h2, h3, h4, h5⟩ => ⟨h1, h2, h3, h4, h5⟩,
      fun ⟨h1, h2, h3, h4, h5⟩ => ⟨h1, h2, h3, h4, h5⟩⟩

theorem gridFits_of_lt : ∀ k : ℕ, k < 254 → GridFits (k - 149) := by
  decide +kernel

theorem gridFits {q : ℤ} (hmin : -149 ≤ q) (hmax : q ≤ 104) : GridFits q := by
  have h := gridFits_of_lt (q + 149).toNat (by omega)
  rwa [show (((q + 149).toNat : ℕ) : ℤ) - 149 = q by omega] at h

section End

variable {q : ℤ} {a b p w P n m : ℕ} {d : Decimal}

/-- An odd numerator that is a multiple of a harmless one is on the quotient, or the exception. -/
theorem Harmless.cases (h : Harmless q a b p w) (hclose : Close a b p w) (hcop : p.Coprime w)
    (hw : 0 < w) (hodd : P % 2 = 1) (hP : P < 2 ^ 25) (heq : P * w = p * n) :
    (a * n = P * b ∧ -22 ≤ gridFor q ∧ q ≤ 40) ∨ (q = -107 ∧ P = 22841339) := by
  obtain ⟨k, rfl⟩ : p ∣ P := hcop.dvd_of_dvd_mul_right (heq ▸ Nat.dvd_mul_right p n)
  have hk : 0 < k := Nat.pos_of_ne_zero fun hzero => by simp [hzero] at hodd
  rcases h with hnot | heven | hlarge | ⟨hon, hgrid, hq⟩ | ⟨hq, hp⟩
  · exact absurd hclose hnot
  · simp [Nat.mul_mod, heven] at hodd
  · have := Nat.le_mul_of_pos_right p hk
    omega
  · refine Or.inl ⟨Nat.eq_of_mul_eq_mul_right hw ?_, hgrid, hq⟩
    calc a * n * w = a * w * n := by ring
      _ = p * n * b := by rw [hon]; ring
      _ = p * k * b * w := by rw [← heq]; ring
  · rw [hp] at hP ⊢
    exact Or.inr ⟨hq, by omega⟩

theorem coprime_of_det {p w r z : ℕ} (h : r * w = p * z + 1) : p.Coprime w ∧ r.Coprime z := by
  constructor
  · refine Nat.dvd_one.1 ((Nat.dvd_add_right (Dvd.dvd.mul_right (Nat.gcd_dvd_left p w) z)).1 ?_)
    exact h ▸ Dvd.dvd.mul_left (Nat.gcd_dvd_right p w) r
  · refine Nat.dvd_one.1 ((Nat.dvd_add_right (Dvd.dvd.mul_left (Nat.gcd_dvd_right r z) p)).1 ?_)
    exact h ▸ Dvd.dvd.mul_right (Nat.gcd_dvd_left r z) w

theorem GridFits.cases (h : GridFits q) (hodd : P % 2 = 1) (hP : P < 2 ^ 25) (hn : 0 < n)
    (hn' : n ≤ 2 ^ 24) (hclose : Close (numerator q) (denominator q) P n) :
    (numerator q * n = P * denominator q ∧ -22 ≤ gridFor q ∧ q ≤ 40) ∨
    (q = -107 ∧ P = 22841339) := by
  obtain ⟨hneighbours, hlow, hhigh, -, -⟩ := h
  have hb : 0 < denominator q := by
    unfold denominator
    positivity
  obtain ⟨hlowCop, hhighCop⟩ := coprime_of_det hneighbours.det
  have hlimit := hneighbours.limit_lt
  have hlowLe := hneighbours.low_le
  have hlowPos : 0 < (around q).1.2 := Nat.pos_of_ne_zero fun hzero => by
    have := hneighbours.det
    rw [hzero] at this
    omega
  rcases hneighbours.not_between hn' with hside | hside
  · obtain ⟨heq, hclose⟩ := eq_of_close hb hlowLe hn hP hclose (Or.inl ⟨hside, hneighbours.low⟩)
    exact hlow.cases hclose hlowCop hlowPos hodd hP heq
  · obtain ⟨heq, hclose⟩ :=
      eq_of_close hb hneighbours.high_le hn hP hclose (Or.inr ⟨hside, hneighbours.high⟩)
    exact hhigh.cases hclose hhighCop (by omega) hodd hP heq

/-- The quotient of the grid and half a unit, in whole numbers. -/
theorem exists_scale (q : ℤ) : ∃ c : ℚ, 0 < c ∧ 10 ^ gridFor q * c = numerator q ∧
    2 ^ (q - 1) * c = denominator q := by
  refine ⟨2 ^ (-(q - 1)).toNat * 10 ^ (-gridFor q).toNat, by positivity, ?_, ?_⟩
  · rw [numerator]
    push_cast
    rw [← zpow_mul_pow_toNat (by norm_num) (gridFor q)]
    ring
  · rw [denominator]
    push_cast
    rw [← zpow_mul_pow_toNat (by norm_num) (q - 1)]
    ring

theorem abs_center_sub_end (hm : 0 < m) (hP : P = 2 * m - 1 ∨ P = 2 * m + 1) (q : ℤ) :
    |(m : ℚ) * 2 ^ q - P * 2 ^ (q - 1)| = 2 ^ (q - 1) := by
  have hhalf : (0 : ℚ) < 2 ^ (q - 1) := by positivity
  have hunit : (2 : ℚ) ^ q = 2 * 2 ^ (q - 1) := by
    rw [zpow_sub_one₀ two_ne_zero]
    ring
  rw [hunit]
  rcases hP with rfl | rfl
  · have hlow : (m : ℚ) * (2 * 2 ^ (q - 1)) - (2 * m - 1 : ℕ) * 2 ^ (q - 1) = 2 ^ (q - 1) := by
      rw [Nat.cast_sub (by omega)]
      push_cast
      ring
    rw [hlow, abs_of_pos hhalf]
  · have hhigh : (m : ℚ) * (2 * 2 ^ (q - 1)) - (2 * m + 1 : ℕ) * 2 ^ (q - 1) = -2 ^ (q - 1) := by
      push_cast
      ring
    rw [hhigh, abs_neg, abs_of_pos hhalf]

theorem Found.value_lt (h : Found m q d) (hc : Canonical .binary32 m q) :
    d.value < 2 ^ 25 * 2 ^ (q - 1) := by
  refine (lt_of_contains hc h.contains).2.trans_eq ?_
  rw [← zpow_natCast, ← zpow_add₀ two_ne_zero]
  congr 1
  push_cast
  ring

/-- The grid of a decimal close to an end is no finer than the finest that matters. -/
theorem Found.gridFor_le (h : Found m q d) (hc : Canonical .binary32 m q) (hgrid : GridFits q)
    (hsymm : m = 2 ^ 23 → q = -149) (hP : P = 2 * m - 1 ∨ P = 2 * m + 1)
    (hnear : |d.value - P * 2 ^ (q - 1)| * 2 ^ 51 ≤ d.value) : gridFor q ≤ d.exponent := by
  obtain ⟨c, hc0, hten, htwo⟩ := exists_scale q
  have hhalf : (0 : ℚ) < 2 ^ (q - 1) := by positivity
  have hcoarse : 2 * 2 ^ (q - 1) * (2 ^ 26 - 1) ≤ 10 ^ d.exponent * (2 : ℚ) ^ 26 := by
    have htri := abs_sub_le ((m : ℚ) * 2 ^ q) d.value (P * 2 ^ (q - 1))
    rw [abs_center_sub_end hc.pos hP, abs_sub_comm] at htri
    have hbound := h.value_lt hc
    have hdecimal := h.near hsymm
    linarith
  have hfine := (@Nat.cast_lt ℚ _ _ _ _ _ _).2 hgrid.fine
  push_cast at hfine
  rw [← hten, ← htwo] at hfine
  have hstep : (10 : ℚ) ^ gridFor q < 10 ^ (d.exponent + 1) := by
    refine lt_of_mul_lt_mul_right (a := c * 2 ^ 26) ?_ (by positivity)
    have hscaled := mul_le_mul_of_nonneg_right hcoarse hc0.le
    rw [zpow_add_one₀ (by norm_num)]
    linarith
  have := (zpow_lt_zpow_iff_right₀ (by norm_num : (1 : ℚ) < 10)).1 hstep
  omega

/-- On the finest grid that matters the decimal is a small multiple. -/
theorem Found.exists_multiple (h : Found m q d) (hc : Canonical .binary32 m q)
    (hgrid : GridFits q) (hle : gridFor q ≤ d.exponent) :
    ∃ n : ℕ, 0 < n ∧ n ≤ 2 ^ 24 ∧ d.value = n * 10 ^ gridFor q := by
  obtain ⟨k, hk⟩ : ∃ k : ℕ, d.exponent = gridFor q + k :=
    ⟨(d.exponent - gridFor q).toNat, by omega⟩
  obtain ⟨n, hn⟩ : ∃ n, d.digits * 10 ^ k = n := ⟨_, rfl⟩
  have hvalue : d.value = n * 10 ^ gridFor q := by
    rw [value, hk, ← hn, zpow_add₀ (by norm_num), zpow_natCast]
    push_cast
    ring
  refine ⟨n, hn ▸ Nat.mul_pos h.pos (by positivity), ?_, hvalue⟩
  obtain ⟨c, hc0, hten, htwo⟩ := exists_scale q
  have hcoarse := (@Nat.cast_le ℚ _ _ _ _ _ _).2 hgrid.coarse
  have hbound := mul_lt_mul_of_pos_right (h.value_lt hc) hc0
  rw [hvalue, mul_assoc, mul_assoc, hten, htwo] at hbound
  by_contra hlarge
  have hmore : (n : ℚ) ≥ 2 ^ 24 + 1 := by exact_mod_cast (by omega : n ≥ 2 ^ 24 + 1)
  have hscaled : (2 ^ 24 + 1) * (numerator q : ℚ) ≤ n * numerator q := by gcongr
  push_cast at hcoarse
  linarith

theorem Found.exponent_natAbs_le (h : Found m q d) (hc : Canonical .binary32 m q)
    (hlow : -22 ≤ d.exponent) (hq : q ≤ 40) : d.exponent.natAbs ≤ 22 := by
  have hone : (1 : ℚ) ≤ d.digits := by exact_mod_cast h.pos
  have hle : (10 : ℚ) ^ d.exponent ≤ d.value := le_mul_of_one_le_left (by positivity) hone
  have htop : (2 : ℚ) ^ (q + 24) ≤ 2 ^ (64 : ℤ) := (zpow_le_zpow_iff_right₀ one_lt_two).2 (by omega)
  have hlt : (10 : ℚ) ^ d.exponent < 10 ^ (22 : ℤ) := by
    have : (2 : ℚ) ^ (64 : ℤ) ≤ 10 ^ (22 : ℤ) := by norm_num
    have := (lt_of_contains hc h.contains).2
    linarith
  have := (zpow_lt_zpow_iff_right₀ (by norm_num : (1 : ℚ) < 10)).1 hlt
  omega

/-- A decimal that is close to an end of the interval is on the end, with one exception. -/
theorem Found.end_of_near (h : Found m q d) (hc : Canonical .binary32 m q) (hq : q ≤ 104)
    (hsymm : m = 2 ^ 23 → q = -149) (hP : P = 2 * m - 1 ∨ P = 2 * m + 1)
    (hnear : |d.value - P * 2 ^ (q - 1)| * 2 ^ 51 ≤ d.value) :
    (d.value = P * 2 ^ (q - 1) ∧ d.exponent.natAbs ≤ 22) ∨ (q = -107 ∧ P = 22841339) := by
  have hgrid := gridFits hc.min hq
  have hm := hc.pos
  have hlt : m < 2 ^ 24 := hc.lt
  have hle := h.gridFor_le hc hgrid hsymm hP hnear
  obtain ⟨n, hn, hn', hvalue⟩ := h.exists_multiple hc hgrid hle
  obtain ⟨c, hc0, hten, htwo⟩ := exists_scale q
  have hscaled : d.value * c = numerator q * n := by
    rw [hvalue, mul_assoc, hten, mul_comm]
  have hclose : Close (numerator q) (denominator q) P n := by
    rw [close_iff, ← @Int.cast_le ℚ]
    push_cast
    have habs : |(numerator q * n : ℚ) - P * denominator q| = |d.value - P * 2 ^ (q - 1)| * c := by
      rw [← abs_of_pos hc0, ← abs_mul, sub_mul, hscaled, mul_assoc _ _ c, htwo]
    have hscaledNear := mul_le_mul_of_nonneg_right hnear hc0.le
    rw [hscaled] at hscaledNear
    rw [habs]
    linarith
  rcases hgrid.cases (by omega) (by omega) hn hn' hclose with ⟨hon, hgridLow, hq40⟩ | hexception
  · refine Or.inl ⟨mul_right_cancel₀ hc0.ne' ?_, h.exponent_natAbs_le hc (by omega) hq40⟩
    rw [hscaled, mul_assoc, htwo]
    exact_mod_cast hon
  · exact Or.inr hexception

end End

end NeuralFlow.Decimal
