import Mathlib
import NeuralFlow.Proofs.Binary.Packing
import NeuralFlow.Scalar.Single

/-! From double to single precision. A double in the interval of a single precision number becomes that
number, and a double that was read without its sign gets it before it is narrowed. -/

namespace NeuralFlow.Binary

open Float.Model (Format)
open Float.Model.UnpackedFloat

variable {x : Float} {y : Float32} {s : Sign} {m n : ℕ} {q r : ℤ} {hn : 0 < n} {hm : 0 < m}

def withSign (minus : Bool) (x : Float) : Float := if minus then -x else x

theorem unpack_neg (hx : x.toModel.unpack = .finite .positive n r hn) :
    (-x).toModel.unpack = .finite .negative n r hn := by
  obtain ⟨hc, hr, -⟩ := of_unpack_eq_finite (by decide) hx
  have hneg : (-x).toModel = .pack (.finite .negative n r hn) := by
    change Float.Model.pack x.toModel.unpack.neg = _
    rw [hx]
    rfl
  rw [hneg]
  exact unpack_pack hc hr hn

theorem unpack_neg_zero (hx : x.toModel.unpack = .zero .positive) :
    (-x).toModel.unpack = .zero .negative := by
  have hneg : (-x).toModel = .pack (.zero .negative) := by
    change Float.Model.pack x.toModel.unpack.neg = _
    rw [hx]
    rfl
  rw [hneg]
  exact unpack_pack_zero _

theorem unpack_withSign (hx : x.toModel.unpack = .finite .positive n r hn) (s : Sign) :
    (withSign (s == .negative) x).toModel.unpack = .finite s n r hn := by
  cases s
  · exact unpack_neg hx
  · exact hx

theorem zero_or_finite (hy : y.isFinite = true) : (∃ s, y.toModel.unpack = .zero s) ∨
    ∃ s m q hm, y.toModel.unpack = .finite s m q hm := by
  rw [Float32.isFinite, Float32.Model.isFinite] at hy
  cases hunpack : y.toModel.unpack with
  | notANumber => simp [hunpack, isFinite] at hy
  | infinity s => simp [hunpack, isFinite] at hy
  | zero s => exact Or.inl ⟨s, rfl⟩
  | finite s m q hm => exact Or.inr ⟨s, m, q, hm, rfl⟩

/-- A single precision number is what its unpacked form packs to. -/
theorem ofModel_pack_unpack (y : Float32) (h : y.toModel.unpack = .finite s m q hm) :
    Float32.ofModel (.pack (.finite s m q hm)) = y := by
  obtain ⟨⟨⟨b⟩, hb⟩⟩ := y
  obtain ⟨-, -, hpack⟩ := of_unpack_eq_finite (by decide) h
  simp only [Float32.Model.pack, hpack]

theorem ofDouble_of_contains (hx : x.toModel.unpack = .finite .positive n r hn)
    (hc : Canonical .binary32 m q)
    (hv : (Decimal.Interval.ofBinary .binary32 m q).Contains (n * 2 ^ r)) (s : Sign) (hm : 0 < m) :
    Single.ofDouble (withSign (s == .negative) x) = .ofModel (.pack (.finite s m q hm)) := by
  obtain ⟨_, hround⟩ := round_of_contains (s := s) hn hc hv
  simp only [Single.ofDouble, unpack_withSign hx, hround]

theorem ofDouble_zero (hx : x.toModel.unpack = .zero .positive) (hy : y.toModel.unpack = .zero s) :
    Single.ofDouble (withSign (s == .negative) x) = y := by
  have hzero : (withSign (s == .negative) x).toModel.unpack = .zero s := by
    cases s
    · exact unpack_neg_zero hx
    · exact hx
  simp only [Single.ofDouble, hzero]
  obtain ⟨⟨⟨b⟩, hb⟩⟩ := y
  have hpack := pack_of_unpack_eq_zero hy
  simp only [Float32.Model.pack, hpack]

end NeuralFlow.Binary
