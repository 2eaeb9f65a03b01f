import Mathlib
import NeuralFlow.Proofs.Binary.Grain
import NeuralFlow.Proofs.Binary.Narrow
import NeuralFlow.Proofs.Decimal.Apart
import NeuralFlow.Proofs.Json.Number

/-! Number formats that write shortest decimals and read the nearest double. A number is read back unless
the double that is read lies half way to a neighbour. If of the shortest decimals the nearest is written,
that happens to one number and its negative only. -/

namespace NeuralFlow.Json

open Float.Model (Format)
open Float.Model.UnpackedFloat Binary Decimal
open Float.Model

/-! What is asked of a format. -/

def Literal.Occurs (l : Literal) : Prop := ∃ s rest, readLiteral s = .ok (l, rest)

theorem Lexes.occurs {text : List Char} {minus : Bool} {l : Literal} (h : Lexes text minus l) :
    l.Occurs := by
  have hread := h [] ends_nil
  simp only [readSigned, bind, Except.bind] at hread
  split at hread
  · cases hread
  · rename_i result hliteral
    obtain ⟨-, rfl⟩ := Prod.mk.inj (Prod.mk.inj (Except.ok.inj hread)).1
    exact ⟨_, _, hliteral⟩

theorem Lexes.unique {text : List Char} {minus minus' : Bool} {l l' : Literal} (h : Lexes text minus l)
    (h' : Lexes text minus' l') : l = l' := by
  have hsame := (h [] ends_nil).symm.trans (h' [] ends_nil)
  exact (Prod.mk.inj (Prod.mk.inj (Except.ok.inj hsame)).1).2

def Denotes (text : List Char) (s : Sign) (v : ℚ) : Prop :=
  ∃ l : Literal, Lexes text (s == .negative) l ∧ l.Fractional ∧ l.value = v

def Unsigned : UnpackedFloat → Prop
  | .zero .positive | .finite .positive _ _ _ => True
  | _ => False

end NeuralFlow.Json

namespace NeuralFlow.Json.NumberFormat

open Float.Model (Format)
open Float.Model.UnpackedFloat Binary Decimal
open Float.Model

/-- Finite numbers are written as decimals that are good for their intervals, and zeros as zeros. -/
structure Writes (Good : Interval → Decimal → Prop) (format : NumberFormat) : Prop where
  zero {x : Float32} {s : Sign} : x.toModel.unpack = .zero s → Denotes (format.write x) s 0
  finite {x : Float32} {s : Sign} {m : ℕ} {q : ℤ} {hm : 0 < m} :
    x.toModel.unpack = .finite s m q hm →
      ∃ d, Good (.ofBinary .binary32 m q) d ∧ Denotes (format.write x) s d.value

/-- Literals are read as the double nearest to their value, and refused if that is infinite. -/
structure ReadsNearest (format : NumberFormat) : Prop where
  finite {l : Literal} {x : Float} : l.Occurs → format.read l = some x →
    Unsigned x.toModel.unpack ∧ Nearest .binary64 l.value x.toModel.unpack
  infinite {l : Literal} : l.Occurs → format.read l = none →
    Nearest .binary64 l.value (.infinity .positive)

/-- The double that is read for a number lies half way to a neighbour. It goes to the neighbour, which is
the even one of the two. -/
def Halfway (format : NumberFormat) (x : Float32) : Prop :=
  ∃ s m q hm, x.toModel.unpack = .finite s m q hm ∧ m % 2 = 1 ∧
    ∃ minus l z, Lexes (format.write x) minus l ∧ format.read l = some z ∧
      |value .binary64 z.toModel.unpack - m * 2 ^ q| = 2 ^ (q - 1)

theorem Writes.mono {format : NumberFormat} {Good Good' : Interval → Decimal → Prop}
    (h : format.Writes Good) (hgood : ∀ {i d}, Good i d → Good' i d) : format.Writes Good' where
  zero := h.zero
  finite hx := by
    obtain ⟨d, hd, hdenotes⟩ := h.finite hx
    exact ⟨d, hgood hd, hdenotes⟩

section Reading

variable {format : NumberFormat} {x y : Float32} {l : Literal} {s : Sign} {m : ℕ} {q : ℤ} {hm : 0 < m}
  {v : ℚ}

theorem Unsigned.eq_zero {u : UnpackedFloat} (h : Unsigned u) (hu : value .binary64 u = 0) :
    u = .zero .positive := by
  cases u with
  | notANumber => exact h.elim
  | infinity s => exact h.elim
  | zero s =>
    cases s
    · exact h.elim
    · rfl
  | finite s n r hn =>
    cases s
    · exact h.elim
    · have hpos : (0 : ℚ) < n * 2 ^ r := by positivity
      exact absurd hu hpos.ne'

theorem Unsigned.eq_finite {u : UnpackedFloat} (h : Unsigned u) (hu : 0 < value .binary64 u) :
    ∃ n r hn, u = .finite .positive n r hn := by
  cases u with
  | notANumber => exact h.elim
  | infinity s => exact h.elim
  | zero s => exact absurd hu (lt_irrefl 0)
  | finite s n r hn =>
    cases s
    · exact h.elim
    · exact ⟨n, r, hn, rfl⟩

/-- The ends of intervals are doubles. -/
theorem exists_double (hc : Canonical .binary32 m q) (hq : q ≤ 104) {n : ℕ}
    (hn : n ≤ 4 * m + 2) : ∃ y, Proper .binary64 y ∧ value .binary64 y = n * 2 ^ (q - 2) := by
  have hlt : m < 2 ^ 24 := hc.lt
  have hmin : -149 ≤ q := hc.min
  have hsize : |((n : ℕ) : ℤ)| ≤ 2 ^ Format.binary64.mantissaBits := by
    rw [Nat.abs_cast, mantissaBits_binary64]
    norm_cast
    omega
  obtain ⟨y, hy, hvalue⟩ := exists_whole (by decide) hsize
    (show Format.binary64.minExponent ≤ q - 2 by
      rw [minExponent_binary64]
      omega)
    (show q - 2 ≤ maxExponent .binary64 by
      rw [maxExponent_binary64]
      omega)
  exact ⟨y, hy, by rw [hvalue, Int.cast_natCast]⟩

/-- Values of single precision numbers are of usual size for doubles. -/
theorem size_of_contains (hc : Canonical .binary32 m q) (hq : q ≤ 104)
    (hv : (Interval.ofBinary .binary32 m q).Contains v) :
    (2 : ℚ) ^ (Format.binary64.minExponent + Format.binary64.mantissaBits) ≤ v ∧
      v < limit .binary64 := by
  have hmin : -149 ≤ q := hc.min
  constructor
  · refine le_trans ?_ ((width_ofBinary hc.pos q).1.trans hv.bounds.1)
    refine (zpow_le_zpow_iff_right₀ one_lt_two).2 ?_
    rw [minExponent_binary64, mantissaBits_binary64]
    push_cast
    omega
  · refine (lt_of_contains hc hv).2.trans_le ((zpow_le_zpow_iff_right₀ one_lt_two).2 ?_)
    rw [maxExponent_binary64, mantissaBits_binary64]
    push_cast
    omega

theorem end_lt_limit (hc : Canonical .binary32 m q) (hq : q ≤ 104) :
    ((4 * m + 2 : ℕ) : ℚ) * 2 ^ (q - 2) < limit .binary64 := by
  have hsize : ((4 * m + 2 : ℕ) : ℚ) < 2 ^ 26 := by
    have hlt : m < 2 ^ 24 := hc.lt
    exact_mod_cast (by omega : 4 * m + 2 < 2 ^ 26)
  calc ((4 * m + 2 : ℕ) : ℚ) * 2 ^ (q - 2) < 2 ^ 26 * 2 ^ (q - 2) := by gcongr
    _ = 2 ^ (q + 24) := by
        rw [← zpow_natCast, ← zpow_add₀ two_ne_zero]
        congr 1
        push_cast
        ring
    _ ≤ limit .binary64 := (zpow_le_zpow_iff_right₀ one_lt_two).2 (by
        rw [maxExponent_binary64, mantissaBits_binary64]
        push_cast
        omega)

theorem lower_le (m : ℕ) (q : ℤ) : (Interval.ofBinary .binary32 m q).lower ≤ 4 * m + 2 := by
  rw [Interval.ofBinary]
  dsimp only
  split_ifs <;> omega

/-- Reading does not lead past the ends of an interval. -/
theorem ReadsNearest.read_between (hr : format.ReadsNearest) (hl : l.Occurs)
    (hc : Canonical .binary32 m q) (hq : q ≤ 104)
    (hv : (Interval.ofBinary .binary32 m q).Contains l.value) :
    ∃ z n r hn, format.read l = some z ∧ z.toModel.unpack = .finite .positive n r hn ∧
      Nearest .binary64 l.value z.toModel.unpack ∧
      (Interval.ofBinary .binary32 m q).lower * 2 ^ (q - 2) ≤ (n * 2 ^ r : ℚ) ∧
      (n * 2 ^ r : ℚ) ≤ (Interval.ofBinary .binary32 m q).upper * 2 ^ (q - 2) := by
  obtain ⟨hlo, hhi⟩ := hv.bounds
  obtain ⟨a, ha, hlower⟩ := exists_double hc hq (lower_le m q)
  obtain ⟨b, hb, hupper⟩ := exists_double hc hq (le_refl (4 * m + 2))
  cases hread : format.read l with
  | none =>
    have hinfinite := (hr.infinite hl hread).value_le hb (hupper ▸ hhi)
    exact absurd hinfinite (not_le.2 (hupper ▸ end_lt_limit hc hq))
  | some z =>
    obtain ⟨hunsigned, hnear⟩ := hr.finite hl hread
    have hlow := hnear.le_value ha (hlower ▸ hlo)
    have hhigh := hnear.value_le hb (hupper ▸ hhi)
    have hpos : 0 < value .binary64 z.toModel.unpack := by
      refine lt_of_lt_of_le ?_ hlow
      rw [hlower]
      exact lt_of_lt_of_le (by positivity) (width_ofBinary hc.pos q).1
    obtain ⟨n, r, hn, hz⟩ := Unsigned.eq_finite hunsigned hpos
    rw [hz, hlower] at hlow
    rw [hz, hupper] at hhigh
    exact ⟨z, n, r, hn, rfl, hz, hnear, hlow, hhigh⟩

/-- A zero is read back. -/
theorem ReadsNearest.rereads_zero (hr : format.ReadsNearest) (hx : x.toModel.unpack = .zero s)
    (hdenotes : Denotes (format.write x) s 0) : Rereads format x x := by
  obtain ⟨l, hlexes, hfraction, hvalue⟩ := hdenotes
  have hzero : value .binary64 (.zero .positive) = 0 := rfl
  cases hread : format.read l with
  | none =>
    have hnear := hr.infinite hlexes.occurs hread
    rw [hvalue, ← hzero] at hnear
    exact absurd (hnear.value_eq trivial) (limit_pos .binary64).ne'
  | some z =>
    obtain ⟨hunsigned, hnear⟩ := hr.finite hlexes.occurs hread
    rw [hvalue, ← hzero] at hnear
    have hz := Unsigned.eq_zero hunsigned (hnear.value_eq trivial)
    exact ⟨_, l, z, hlexes, hfraction, hread, ofDouble_zero hz hx⟩

/-- A double in the interval of a number is read as the number. -/
theorem rereads_of_contains {z : Float} {n : ℕ} {r : ℤ} {hn : 0 < n}
    (hlexes : Lexes (format.write x) (s == .negative) l) (hfraction : l.Fractional)
    (hread : format.read l = some z) (hz : z.toModel.unpack = .finite .positive n r hn)
    (hy : y.toModel.unpack = .finite s m q hm)
    (hin : (Interval.ofBinary .binary32 m q).Contains (n * 2 ^ r)) : Rereads format x y := by
  obtain ⟨hc, -, -⟩ := of_unpack_eq_finite (by decide) hy
  exact ⟨_, l, z, hlexes, hfraction, hread,
    (ofDouble_of_contains hz hc hin s hm).trans (ofModel_pack_unpack y hy)⟩

/-- Numbers between the ends, or on an end that is no half way from an odd mantissa, are in the
interval. -/
theorem contains_of_between {w : ℚ} (hm : 0 < m)
    (hlo : (Interval.ofBinary .binary32 m q).lower * 2 ^ (q - 2) ≤ w)
    (hhi : w ≤ (Interval.ofBinary .binary32 m q).upper * 2 ^ (q - 2))
    (hend : m % 2 = 1 → |w - m * 2 ^ q| ≠ 2 ^ (q - 1)) :
    (Interval.ofBinary .binary32 m q).Contains w := by
  rcases Nat.mod_two_eq_zero_or_one m with heven | hodd
  · have hclosed : (Interval.ofBinary .binary32 m q).closed = true := by simp [Interval.ofBinary, heven]
    rw [Interval.Contains, if_pos hclosed]
    exact ⟨hlo, hhi⟩
  · obtain ⟨hlower, hupper⟩ := ends_ofBinary (q := q) hm fun hpower => by omega
    have hstep : (0 : ℚ) < 2 ^ (q - 1) := by positivity
    have hne := hend hodd
    rw [hlower] at hlo
    rw [hupper] at hhi
    refine Interval.contains_of_lt ?_ ?_
    · refine lt_of_le_of_ne (hlower ▸ hlo) fun heq => hne ?_
      rw [← heq, show (Interval.ofBinary .binary32 m q).exponent = q - 2 from rfl, hlower,
        sub_sub_cancel_left, abs_neg, abs_of_pos hstep]
    · refine lt_of_le_of_ne (hupper ▸ hhi) fun heq => hne ?_
      rw [heq, show (Interval.ofBinary .binary32 m q).exponent = q - 2 from rfl, hupper,
        add_sub_cancel_left, abs_of_pos hstep]

/-- A decimal of its interval is enough for a number to be read back, unless the reading ends half way. -/
theorem rereads_self (hw : format.Writes Shortest) (hr : format.ReadsNearest) (hx : x.isFinite = true)
    (hhalf : ¬ format.Halfway x) : Rereads format x x := by
  rcases zero_or_finite hx with ⟨s, hunpack⟩ | ⟨s, m, q, hm, hunpack⟩
  · exact hr.rereads_zero hunpack (hw.zero hunpack)
  · obtain ⟨hc, hq, -⟩ := of_unpack_eq_finite (by decide) hunpack
    obtain ⟨d, hd, l, hlexes, hfraction, hvalue⟩ := hw.finite hunpack
    obtain ⟨z, n, r, hn, hread, hz, -, hlo, hhi⟩ :=
      hr.read_between hlexes.occurs hc hq (hvalue ▸ hd.contains)
    refine rereads_of_contains hlexes hfraction hread hz hunpack (contains_of_between hm hlo hhi ?_)
    refine fun hodd hend => hhalf ⟨s, m, q, hm, hunpack, hodd, _, l, z, hlexes, hread, ?_⟩
    rw [hz]
    exact hend

/-! The one number that is read half way. -/

/-- With the nearest of the shortest decimals no other number is read half way. -/
theorem not_halfway (hw : format.Writes Closest) (hr : format.ReadsNearest)
    (hx : x.toModel.unpack = .finite s m q hm) (hne : ¬ (q = -107 ∧ m = 11420669)) :
    ¬ format.Halfway x := by
  rintro ⟨s', m', q', hm', hx', hodd, minus, l, z, hlexes, hread, hhalf⟩
  obtain ⟨rfl, rfl, rfl⟩ := finite.inj (hx.symm.trans hx')
  obtain ⟨hc, hq, -⟩ := of_unpack_eq_finite (by decide) hx
  obtain ⟨d, hd, l', hlexes', -, hvalue⟩ := hw.finite hx
  rw [← hlexes.unique hlexes'] at hvalue
  have hmin : -149 ≤ q := hc.min
  have hpos := (lt_of_contains hc hd.contains).1
  have hnear := (hr.finite hlexes.occurs hread).2
  rw [hvalue] at hnear
  -- the double is an end, and next to the decimal
  obtain ⟨P, hP, hend⟩ := exists_odd_of_half hm (w := value .binary64 z.toModel.unpack) (by
    rcases eq_or_eq_neg_of_abs_eq hhalf with habs | habs
    · exact Or.inr (by linarith)
    · exact Or.inl (by linarith))
  have hclose : |d.value - P * 2 ^ (q - 1)| * 2 ^ 51 ≤ d.value := by
    have herror := hnear.error_mul_le (by decide) hpos
      (size_of_contains hc hq hd.contains).1 (size_of_contains hc hq hd.contains).2
    rw [hend, abs_sub_comm, mantissaBits_binary64] at herror
    refine le_trans ?_ herror
    gcongr <;> norm_num
  rcases (hd.found hc).end_of_near hc hq (fun hpower => by omega) hP hclose with
    ⟨hon, -⟩ | ⟨hq107, hP107⟩
  · have hinside := abs_sub_lt_of_contains hodd hd.contains
    rw [hon, ← hend] at hinside
    exact hinside.ne hhalf
  · omega

/-- The shortest decimals of the exceptional number all have the same value. -/
theorem value_exception {d : Decimal} (hd : Shortest (.ofBinary .binary32 11420669 (-107)) d) :
    d.value = 7038531 * 10 ^ (-32 : ℤ) := by
  have hseven : (Interval.ofBinary .binary32 11420669 (-107)).Contains
      (Decimal.value ⟨7038531, -32⟩) := by
    refine Interval.contains_of_lt ?_ ?_ <;> norm_num [Interval.ofBinary, Decimal.value]
  have hdigits := hd.fewest _ hseven 7 (by norm_num)
  obtain ⟨hlo, hhi⟩ := hd.contains.bounds
  norm_num [Interval.ofBinary] at hlo hhi
  have hsize : (d.digits : ℚ) < 10 ^ 7 := by exact_mod_cast hdigits
  -- with seven digits the last one stands for a multiple of `10 ^ -32`
  have hexp : -32 ≤ d.exponent := by
    by_contra! hlt
    have hten : (10 : ℚ) ^ d.exponent ≤ 10 ^ (-33 : ℤ) :=
      (zpow_le_zpow_iff_right₀ (by norm_num)).2 (by omega)
    have : d.value ≤ 10 ^ 7 * 10 ^ (-33 : ℤ) := by
      rw [Decimal.value]
      gcongr
    norm_num at this
    linarith
  obtain ⟨k, hk⟩ : ∃ k : ℕ, d.exponent = -32 + k := ⟨(d.exponent + 32).toNat, by omega⟩
  obtain ⟨n, hn⟩ : ∃ n : ℕ, d.digits * 10 ^ k = n := ⟨_, rfl⟩
  have hvalue : d.value = n * 10 ^ (-32 : ℤ) := by
    rw [Decimal.value, hk, ← hn, zpow_add₀ (by norm_num), zpow_natCast]
    push_cast
    ring
  rw [hvalue] at hlo hhi ⊢
  norm_num at hlo hhi
  have hlow : (7038530 : ℚ) < n := by linarith
  have hhigh : (n : ℚ) < 7038532 := by linarith
  norm_cast at hlow hhigh
  rw [show n = 7038531 by omega]
  norm_num

/-- The double nearest to those decimals is half way to the next number. -/
theorem half_of_nearest {n : ℕ} {r : ℤ} {hn : 0 < n} (hc : Canonical .binary64 n r)
    (h : Nearest .binary64 (7038531 * 10 ^ (-32 : ℤ)) (.finite .positive n r hn))
    (hlow : (2 : ℚ) ^ (-84 : ℤ) < n * 2 ^ r) : (n : ℚ) * 2 ^ r = 22841339 * 2 ^ (-108 : ℤ) := by
  obtain ⟨y, hy, hhalf⟩ := exists_whole (k := 22841339) (t := -108)
    (show 2 ≤ Format.binary64.exponentBits by decide) (by decide) (by decide) (by decide)
  have hnear := h.near y hy
  rw [hhalf, Binary.value, signed] at hnear
  -- doubles of this size are whole multiples of a unit
  have hr : -136 ≤ r := by
    have hlt := hlow.trans hc.value_lt
    rw [mantissaBits_binary64] at hlt
    have := (zpow_lt_zpow_iff_right₀ one_lt_two).1 hlt
    push_cast at this
    omega
  obtain ⟨k, hk⟩ : ∃ k : ℕ, r = -136 + k := ⟨(r + 136).toNat, by omega⟩
  have hunits : (n : ℚ) * 2 ^ r = (n * 2 ^ k : ℕ) * 2 ^ (-136 : ℤ) := by
    rw [hk, zpow_add₀ two_ne_zero, zpow_natCast]
    push_cast
    ring
  obtain ⟨N, hN⟩ : ∃ N : ℕ, n * 2 ^ k = N := ⟨_, rfl⟩
  rw [hunits, hN] at hnear ⊢
  have hgap := abs_le.1 hnear
  norm_num at hgap
  have hlow : (22841339 * 2 ^ 28 : ℚ) < N + 1 := by linarith [hgap.1]
  have hhigh : (N : ℚ) < 22841339 * 2 ^ 28 + 1 := by linarith [hgap.2]
  norm_cast at hlow hhigh
  rw [show N = 22841339 * 2 ^ 28 by omega]
  norm_num

/-- The exceptional number is read as the next one, which has the even mantissa. -/
theorem rereads_exception (hw : format.Writes Shortest) (hr : format.ReadsNearest)
    (hx : x.toModel.unpack = .finite s 11420669 (-107) (by norm_num))
    (hy : y.toModel.unpack = .finite s 11420670 (-107) (by norm_num)) : Rereads format x y := by
  obtain ⟨hc, hq, -⟩ := of_unpack_eq_finite (by decide) hx
  obtain ⟨d, hd, l, hlexes, hfraction, hvalue⟩ := hw.finite hx
  obtain ⟨z, n, r, hn, hread, hz, hnear, hlo, -⟩ :=
    hr.read_between hlexes.occurs hc hq (hvalue ▸ hd.contains)
  obtain ⟨hcanonical, -, -⟩ := of_unpack_eq_finite (by decide) hz
  rw [hvalue, value_exception hd, hz] at hnear
  norm_num [Interval.ofBinary] at hlo
  have hhalf := half_of_nearest hcanonical hnear (lt_of_lt_of_le (by norm_num) hlo)
  refine rereads_of_contains hlexes hfraction hread hz hy ?_
  rw [hhalf]
  norm_num [Interval.Contains, Interval.ofBinary]

theorem unpack_exception (hm : 0 < 11420669) :
    (Float32.ofBits 0x15ae43fd).toModel.unpack = .finite .positive 11420669 (-107) hm ∧
    (Float32.ofBits 0x95ae43fd).toModel.unpack = .finite .negative 11420669 (-107) hm := ⟨rfl, rfl⟩

theorem not_halfway_of_ne (hw : format.Writes Closest) (hr : format.ReadsNearest)
    (hpositive : x ≠ .ofBits 0x15ae43fd) (hnegative : x ≠ .ofBits 0x95ae43fd) :
    ¬ format.Halfway x := by
  intro hhalf
  obtain ⟨s, m, q, hm, hunpack, -⟩ := id hhalf
  refine not_halfway hw hr hunpack ?_ hhalf
  rintro ⟨rfl, rfl⟩
  have hsame := ofModel_pack_unpack x hunpack
  cases s
  · exact hnegative (hsame.symm.trans (ofModel_pack_unpack _ (unpack_exception hm).2))
  · exact hpositive (hsame.symm.trans (ofModel_pack_unpack _ (unpack_exception hm).1))

/-- What a finite number becomes: itself, but for one exception of each sign. -/
def reread (x : Float32) : Float32 :=
  if x = .ofBits 0x15ae43fd then .ofBits 0x15ae43fe
  else if x = .ofBits 0x95ae43fd then .ofBits 0x95ae43fe
  else x

/-- With the nearest of the shortest decimals and the nearest double every number but the exception is
read back. -/
theorem rereads (hw : format.Writes Closest) (hr : format.ReadsNearest) (hx : x.isFinite = true) :
    Rereads format x (reread x) := by
  have hshort : format.Writes Shortest := hw.mono fun h => h.toShortest
  rw [reread]
  split_ifs with hpositive hnegative
  · subst hpositive
    exact rereads_exception hshort hr (unpack_exception _).1 rfl
  · subst hnegative
    exact rereads_exception hshort hr (unpack_exception _).2 rfl
  · exact rereads_self hshort hr hx (not_halfway_of_ne hw hr hpositive hnegative)

end Reading

/-! A format with both properties. -/

def ratio (m n : ℕ) : UnpackedFloat :=
  if m = 0 then .zero .positive
  else
    let (mantissa, exponent, accuracy) := divCore .binary64 m 0 n 0
    (unpack .binary64 (UnpackedFloat.pack .binary64
      (roundWithAccuracy .binary64 .positive mantissa exponent accuracy))).abs

def nearestTo (l : Literal) : UnpackedFloat :=
  ratio (l.word * 10 ^ l.scale.toNat) (10 ^ (-l.scale).toNat)

/-- The shortest decimal is written, and every literal is read correctly. -/
def correct : NumberFormat where
  write := Layout.jsonSingleChars
  read l := if (nearestTo l).isFinite then some (.ofModel (.pack (nearestTo l))) else none

theorem nearest_ratio (m : ℕ) {n : ℕ} (hn : 0 < n) : Nearest .binary64 (m / n) (ratio m n) := by
  rw [ratio]
  split_ifs with hm
  · rw [hm, Nat.cast_zero, zero_div]
    exact Nearest.self (u := .zero .positive) trivial
  · have h := nearest_divCore (s := .positive)
      (show 2 ≤ Format.binary64.exponentBits by decide) (Nat.pos_of_ne_zero hm) hn 0 0
    rw [signed, zpow_zero, mul_one, mul_one] at h
    -- nothing is lost with the sign, since the quotient is not negative
    have hpos : 0 ≤ Binary.value .binary64 (unpack .binary64 (UnpackedFloat.pack .binary64
        (roundWithAccuracy .binary64 .positive (divCore .binary64 m 0 n 0).1
          (divCore .binary64 m 0 n 0).2.1 (divCore .binary64 m 0 n 0).2.2))) :=
      h.le_value (y := .zero .positive) trivial (by rw [Binary.value]; positivity)
    refine ⟨h.proper.abs, fun y hy => ?_⟩
    rw [value_abs, abs_of_nonneg hpos]
    exact h.near y hy

/-- A quotient is unsigned, unless it is infinite. -/
theorem unsigned_ratio (m : ℕ) {n : ℕ} (hn : 0 < n) :
    (Unsigned (ratio m n) ∧ (ratio m n).isFinite = true) ∨ ratio m n = .infinity .positive := by
  have hproper := (nearest_ratio m hn).proper
  obtain ⟨u, hu⟩ : ∃ u : UnpackedFloat, ratio m n = u.abs := by
    rw [ratio]
    split_ifs
    · exact ⟨.zero .positive, rfl⟩
    · exact ⟨_, rfl⟩
  rw [hu] at hproper ⊢
  cases u with
  | notANumber => exact hproper.elim
  | infinity s => exact Or.inr rfl
  | zero s => exact Or.inl ⟨trivial, rfl⟩
  | finite s m q hm => exact Or.inl ⟨trivial, rfl⟩

theorem correct_writes : correct.Writes Closest where
  zero hx := by
    have hword : Literal.word ⟨['0'], ['0'], none⟩ = 0 := rfl
    exact ⟨_, lexes_zero hx, Or.inl nofun, by rw [Literal.value, hword, Nat.cast_zero, zero_mul]⟩
  finite hx := by
    obtain ⟨hc, hq, -⟩ := of_unpack_eq_finite (by decide) hx
    obtain ⟨l, hlexes, hfraction, hspells⟩ := exists_lexes_single hx
    exact ⟨_, closest_shortest hc hq .evenDigit, l, hlexes, hfraction, hspells.value_eq⟩

theorem nearest_nearestTo (l : Literal) : Nearest .binary64 l.value (nearestTo l) := by
  have hvalue : l.value = (l.word * 10 ^ l.scale.toNat : ℕ) / (10 ^ (-l.scale).toNat : ℕ) := by
    rw [Literal.value, eq_div_iff (by positivity)]
    push_cast
    rw [← zpow_mul_pow_toNat (by norm_num : (10 : ℚ) ≠ 0) l.scale]
    ring
  rw [hvalue]
  exact nearest_ratio _ (by positivity)

theorem correct_readsNearest : correct.ReadsNearest where
  finite {l x} _ hread := by
    simp only [correct] at hread
    split_ifs at hread with hfinite
    obtain rfl := Option.some.inj hread
    change Unsigned (unpack .binary64 (UnpackedFloat.pack .binary64 (nearestTo l))) ∧
      Nearest .binary64 _ (unpack .binary64 (UnpackedFloat.pack .binary64 (nearestTo l)))
    rw [(nearest_nearestTo l).proper.unpack_pack]
    rcases unsigned_ratio (l.word * 10 ^ l.scale.toNat)
      (show 0 < 10 ^ (-l.scale).toNat by positivity) with
      ⟨hunsigned, -⟩ | hinfinite
    · exact ⟨hunsigned, nearest_nearestTo l⟩
    · rw [nearestTo, hinfinite] at hfinite
      cases hfinite
  infinite {l} _ hread := by
    simp only [correct] at hread
    split_ifs at hread with hfinite
    rcases unsigned_ratio (l.word * 10 ^ l.scale.toNat)
      (show 0 < 10 ^ (-l.scale).toNat by positivity) with
      ⟨-, htrue⟩ | hinfinite
    · exact absurd htrue hfinite
    · exact hinfinite ▸ nearest_nearestTo l

end NeuralFlow.Json.NumberFormat
