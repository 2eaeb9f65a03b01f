import Mathlib
import NeuralFlow.Json.QuickFormat
import NeuralFlow.Proofs.Binary.Double
import NeuralFlow.Proofs.Binary.Narrow
import NeuralFlow.Proofs.Decimal.Apart
import NeuralFlow.Proofs.Json.Number

/-! The quick format reads back what it writes. A literal of the shortest decimal of a single precision
number is read as a double with a small error, and the double is rounded once more. Neither step leaves
the interval of the number: the decimal is not close to an end, or on an end and read exactly. -/

namespace NeuralFlow.Json

/-! The digits of a literal that fit a word. -/

section Digits

variable {cs : List Char} {w : ℕ} {e : ℤ}

theorem le_valueFrom (n : ℕ) (cs : List Char) : n ≤ valueFrom n cs := by
  induction cs generalizing n with
  | nil => exact le_rfl
  | cons c cs ih =>
    rw [valueFrom_cons]
    exact le_trans (by omega) (ih _)

/-- Digits are collected as long as the number fits. -/
theorem foldl_pushInteger (hfit : valueFrom w cs < UInt64.size) :
    cs.foldl Significand.pushInteger ⟨w, e, false⟩ = ⟨valueFrom w cs, e, false⟩ := by
  induction cs generalizing w with
  | nil => rfl
  | cons c cs ih =>
    have hroom : w * 10 + digitValue c < UInt64.size := (le_valueFrom _ cs).trans_lt hfit
    simp only [List.foldl_cons, Significand.pushInteger, Significand.fits, hroom, decide_true,
      Bool.not_false, Bool.and_self, if_true]
    exact ih hfit

theorem foldl_pushFraction (hfit : valueFrom w cs < UInt64.size) :
    cs.foldl Significand.pushFraction ⟨w, e, false⟩ = ⟨valueFrom w cs, e - cs.length, false⟩ := by
  induction cs generalizing w e with
  | nil => simp
  | cons c cs ih =>
    have hroom : w * 10 + digitValue c < UInt64.size := (le_valueFrom _ cs).trans_lt hfit
    simp only [List.foldl_cons, Significand.pushFraction, Significand.fits, hroom, decide_true,
      Bool.not_false, Bool.and_self, if_true]
    rw [ih hfit, List.length_cons, valueFrom_cons]
    congr 1
    push_cast
    ring

theorem Literal.significand_eq {l : Literal} (hfit : l.word < UInt64.size) :
    l.significand = ⟨l.word, l.scale, false⟩ := by
  have hword : l.word = valueFrom (valueFrom 0 l.whole) l.fraction := valueFrom_append 0 _ _
  rw [hword] at hfit ⊢
  simp only [significand, foldl_pushInteger ((le_valueFrom _ _).trans_lt hfit), foldl_pushFraction hfit,
    scale]
  congr 1
  ring

end Digits

end NeuralFlow.Json

namespace NeuralFlow.Decimal

open Float.Model (Format)
open Float.Model.UnpackedFloat Binary Json

/-- The words of literals of short decimals. -/
theorem word_bounds {d : Decimal} {l : Literal} (h : l.Spells d) (hpos : 0 < d.digits)
    (hlt : d.digits < 2 ^ 29) : 0 < l.word ∧ l.word < 2 ^ 53 := by
  rcases h with ⟨hword, -⟩ | ⟨-, hroom, hword, -⟩
  · omega
  · exact ⟨by rw [hword]; positivity, hword ▸ hroom⟩

theorem scale_eq {d : Decimal} {l : Literal} (h : l.Spells d) :
    l.scale = d.exponent ∨ l.scale = -1 :=
  h.imp (fun h => h.2) (fun h => h.2.2.2)

/-! Powers of two, whose intervals have two different halves, are far from both ends. -/

def apartFrom (i : Interval) (d : Decimal) (n : ℕ) : Bool :=
  let v := d.digits * (2 ^ (-i.exponent).toNat * 10 ^ d.exponent.toNat)
  let e := n * (2 ^ i.exponent.toNat * 10 ^ (-d.exponent).toNat)
  decide (v < ((v : ℤ) - e).natAbs * 2 ^ 51)

theorem lt_of_apartFrom {i : Interval} {d : Decimal} {n : ℕ} (h : apartFrom i d n = true) :
    d.value < |d.value - n * 2 ^ i.exponent| * 2 ^ 51 := by
  have hfactor := i.factor_pos d.exponent
  simp only [apartFrom, decide_eq_true_eq] at h
  rw [← mul_lt_mul_iff_left₀ hfactor, value]
  have habs : |(d.digits : ℚ) * 10 ^ d.exponent - n * 2 ^ i.exponent| * i.factor d.exponent =
      |d.digits * 10 ^ d.exponent * i.factor d.exponent - n * 2 ^ i.exponent * i.factor d.exponent| := by
    rw [← abs_of_pos hfactor, ← abs_mul, abs_of_pos hfactor, sub_mul]
  rw [mul_right_comm |_ - _|, habs, i.mul_ten_zpow_mul_factor, i.mul_two_zpow_mul_factor]
  zify at h
  exact_mod_cast h

theorem apartFrom_power : ∀ k : ℕ, k < 253 →
    let i := Interval.ofBinary .binary32 (2 ^ 23) (k - 148)
    (apartFrom i (i.shortest .evenDigit) i.lower && apartFrom i (i.shortest .evenDigit) i.upper) =
    true := by
  decide +kernel

/-! The neighbours of the exceptional end. -/

def readsAs (m : ℕ) (q : ℤ) (hm : 0 < m) (d : Decimal) : Bool :=
  match scaleByTen 4 d.digits.toUInt64.toFloat d.exponent with
  | none => false
  | some x => decide (d.exponent < 0 ∧
      Single.ofDouble x = .ofModel (.pack (.finite .positive m q hm)) ∧
      Single.ofDouble (-x) = .ofModel (.pack (.finite .negative m q hm)))

theorem readsAs_exception :
    readsAs 11420669 (-107) (by norm_num)
      ((Interval.ofBinary .binary32 11420669 (-107)).shortest .evenDigit) = true ∧
    readsAs 11420670 (-107) (by norm_num)
      ((Interval.ofBinary .binary32 11420670 (-107)).shortest .evenDigit) = true := by
  decide +kernel

section Reread

variable {m : ℕ} {q : ℤ} {d : Decimal} {l : Literal}

theorem Found.exponent_bounds (h : Found m q d) (hc : Canonical .binary32 m q) (hq : q ≤ 104) :
    -46 ≤ d.exponent ∧ d.exponent ≤ 38 := by
  have hmin : -149 ≤ q := hc.min
  constructor
  · have hlt : (10 : ℚ) ^ (-46 : ℤ) < 10 ^ (d.exponent + 1) := by
      refine lt_of_lt_of_le ?_ h.coarse
      refine lt_of_lt_of_le ?_ ((zpow_le_zpow_iff_right₀ one_lt_two).2
        (by omega : (-150 : ℤ) ≤ q - 1))
      norm_num
    have := (zpow_lt_zpow_iff_right₀ (by norm_num : (1 : ℚ) < 10)).1 hlt
    omega
  · have hone : (1 : ℚ) ≤ d.digits := by exact_mod_cast h.pos
    have hlow : (10 : ℚ) ^ d.exponent ≤ d.value := le_mul_of_one_le_left (by positivity) hone
    have hlt : (10 : ℚ) ^ d.exponent < 10 ^ (39 : ℤ) := by
      refine hlow.trans_lt ((lt_of_contains hc h.contains).2.trans_le ?_)
      refine ((zpow_le_zpow_iff_right₀ one_lt_two).2 (by omega : q + 24 ≤ 128)).trans ?_
      norm_num
    have := (zpow_lt_zpow_iff_right₀ (by norm_num : (1 : ℚ) < 10)).1 hlt
    omega

/-- The ends of an interval with equal halves are odd multiples of half a unit. -/
theorem exists_odd_end (hm : 0 < m) (hsymm : m = 2 ^ 23 → q = -149) {n : ℕ}
    (hn : n = (Interval.ofBinary .binary32 m q).lower ∨
      n = (Interval.ofBinary .binary32 m q).upper) :
    ∃ P : ℕ, (P = 2 * m - 1 ∨ P = 2 * m + 1) ∧ (n : ℚ) * 2 ^ (q - 2) = P * 2 ^ (q - 1) := by
  obtain ⟨hlower, hupper⟩ := ends_ofBinary hm hsymm
  refine exists_odd_of_half hm ?_
  rcases hn with rfl | rfl
  · exact Or.inl hlower
  · exact Or.inr hupper

/-- The decimal of a power of two is far from both ends. -/
theorem lt_of_power (hpower : m = 2 ^ 23) (hmin : -148 ≤ q) (hq : q ≤ 104) {n : ℕ}
    (hd : d = (Interval.ofBinary .binary32 m q).shortest .evenDigit)
    (hn : n = (Interval.ofBinary .binary32 m q).lower ∨
      n = (Interval.ofBinary .binary32 m q).upper) :
    d.value < |d.value - n * 2 ^ (q - 2)| * 2 ^ 51 := by
  have hapart := apartFrom_power (q + 148).toNat (by omega)
  simp only [show (((q + 148).toNat : ℕ) : ℤ) - 148 = q by omega, ← hpower, ← hd,
    Bool.and_eq_true] at hapart
  have hlower := lt_of_apartFrom hapart.1
  have hupper := lt_of_apartFrom hapart.2
  rcases hn with rfl | rfl
  · exact hlower
  · exact hupper

/-- A literal is read as a double in the interval of the number. -/
theorem Found.toFloat?_contains (h : Found m q d) (hc : Canonical .binary32 m q) (hq : q ≤ 104)
    (hl : l.Spells d) (hd : d = (Interval.ofBinary .binary32 m q).shortest .evenDigit)
    (hnot : ¬ (q = -107 ∧ (m = 11420669 ∨ m = 11420670))) :
    ∃ x v, l.significand.toFloat? = some x ∧ Means x v ∧
      (Interval.ofBinary .binary32 m q).Contains v := by
  obtain ⟨hlow, hhigh⟩ := h.exponent_bounds hc hq
  obtain ⟨hword, hword'⟩ := word_bounds hl h.pos h.lt
  have hscale := scale_eq hl
  have hm := hc.pos
  have hlt : m < 2 ^ 24 := hc.lt
  have hmin : -149 ≤ q := hc.min
  rw [l.significand_eq (hword'.trans (by decide))]
  obtain ⟨x, v, hread, hmeans, herror, hexact⟩ :=
    toFloat?_near (d := ⟨l.word, l.scale, false⟩) hword hword' (by dsimp only; omega)
  have hvalue : Significand.value ⟨l.word, l.scale, false⟩ = d.value := hl.value_eq
  rw [hvalue] at herror hexact
  refine ⟨x, v, hread, hmeans, ?_⟩
  -- otherwise the decimal would be close to an end
  by_contra hout
  obtain ⟨n, hn, hnear⟩ := Interval.exists_end h.contains hout
  have hclose : |d.value - n * 2 ^ (q - 2)| * 2 ^ 51 ≤ d.value :=
    (mul_le_mul_of_nonneg_right hnear (by norm_num)).trans herror
  by_cases hsymm : m = 2 ^ 23 → q = -149
  · obtain ⟨P, hP, hend⟩ := exists_odd_end hm hsymm hn
    rw [hend] at hclose
    rcases h.end_of_near hc hq hsymm hP hclose with ⟨hon, hexp22⟩ | ⟨hq107, hP107⟩
    · -- the end is a double, and is read exactly
      have hbits : Format.binary64.minExponent ≤ q - 1 := by
        rw [minExponent_binary64]
        omega
      obtain ⟨M, Q, hcanonical, hM, -⟩ := exists_canonical .binary64 (m := P) (by omega)
        (show P < 2 ^ 53 by omega) hbits
      have hv := hexact (by dsimp only; omega) M Q hcanonical (hM.trans hon.symm)
      exact hout (hv ▸ h.contains)
    · omega
  · obtain ⟨hpower, hqne⟩ := Classical.not_imp.1 hsymm
    exact not_le.2 (lt_of_power hpower (by omega) hq hd hn) hclose

/-- The literals of the shortest decimal of a number are read as that number. -/
theorem reads_shortest (hc : Canonical .binary32 m q) (hq : q ≤ 104) (hm : 0 < m)
    (hl : l.Spells ((Interval.ofBinary .binary32 m q).shortest .evenDigit)) (s : Sign) :
    ∃ x, l.significand.toFloat? = some x ∧
      Single.ofDouble (withSign (s == .negative) x) = .ofModel (.pack (.finite s m q hm)) := by
  have hfound := (closest_shortest hc hq .evenDigit).found hc
  by_cases hexception : q = -107 ∧ (m = 11420669 ∨ m = 11420670)
  · have hreads :
        readsAs m q hm ((Interval.ofBinary .binary32 m q).shortest .evenDigit) = true := by
      obtain ⟨rfl, rfl | rfl⟩ := hexception
      · exact readsAs_exception.1
      · exact readsAs_exception.2
    unfold readsAs at hreads
    split at hreads
    · cases hreads
    · rename_i x hx
      obtain ⟨hneg, hpositive, hnegative⟩ := of_decide_eq_true hreads
      obtain ⟨-, hword⟩ := word_bounds hl hfound.pos hfound.lt
      rw [l.significand_eq (hword.trans (by decide))]
      rcases hl with ⟨hdigits, hscale⟩ | ⟨hwhole, -⟩
      · refine ⟨x, by rw [Significand.toFloat?, hdigits, hscale, hx], ?_⟩
        cases s
        · exact hnegative
        · exact hpositive
      · omega
  · obtain ⟨x, v, hread, ⟨n, r, hn, hunpack, -, -, -, rfl⟩, hcontains⟩ :=
      hfound.toFloat?_contains hc hq hl rfl hexception
    exact ⟨x, hread, ofDouble_of_contains hunpack hc hcontains s hm⟩

end Reread

end NeuralFlow.Decimal

namespace NeuralFlow.Json

open Float.Model.UnpackedFloat Binary

/-- Every finite number is read back. -/
theorem rereads_quick {x : Float32} (hx : x.isFinite = true) : Rereads .quick x x := by
  rcases zero_or_finite hx with ⟨s, hunpack⟩ | ⟨s, m, q, hm, hunpack⟩
  · exact ⟨_, _, 0, lexes_zero hunpack, Or.inl nofun, rfl, ofDouble_zero rfl hunpack⟩
  · obtain ⟨hc, hq, -⟩ := of_unpack_eq_finite (by decide) hunpack
    obtain ⟨l, hlexes, hfraction, hspells⟩ := exists_lexes_single hunpack
    obtain ⟨y, hread, hy⟩ := Decimal.reads_shortest hc hq hm hspells s
    exact ⟨_, l, y, hlexes, hfraction, hread, hy.trans (ofModel_pack_unpack x hunpack)⟩

end NeuralFlow.Json
