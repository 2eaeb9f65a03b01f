import Mathlib
import NeuralFlow.Scalar

/-! Exact arithmetic: the definitions of the library read over an ordered field. What a field lacks,
roots and exponentials, comes with the numbers as functions of a library, and `LawfulLibrary` lists
all that proofs may assume of them. -/

namespace NeuralFlow

/-- An ordered field with the functions of a library. Nothing is assumed about the functions. -/
class ExactScalar (K : Type) extends Field K, LinearOrder K, IsStrictOrderedRing K where
  sqrt : K → K
  exp : K → K
  expMinusOne : K → K
  log : K → K
  tanh : K → K

instance (priority := low) ExactScalar.toScalar {K : Type} [ExactScalar K] : Scalar K where
  toAdd := inferInstance
  toSub := inferInstance
  toMul := inferInstance
  toDiv := inferInstance
  toNeg := inferInstance
  toZero := inferInstance
  toOne := inferInstance
  toNatCast := inferInstance
  toOfScientific := inferInstance
  toBEq := inferInstance
  toLT := inferInstance
  toLE := inferInstance
  decidableLT := inferInstance
  decidableLE := inferInstance
  abs x := |x|
  isNegative x := decide (x < 0)
  isFinite _ := true
  precedes x y := decide (x ≤ y)
  sqrt := ExactScalar.sqrt
  exp := ExactScalar.exp
  expMinusOne := ExactScalar.expMinusOne
  log := ExactScalar.log
  tanh := ExactScalar.tanh

/-- What is assumed of roots, exponentials and logarithms. The exponential lies above each of its
tangents; with its value at zero this is all that convexity arguments need. -/
class LawfulLibrary (K : Type) [ExactScalar K] : Prop where
  sqrt_nonneg : ∀ s : K, 0 ≤ s → 0 ≤ Scalar.sqrt s
  sqrt_sq : ∀ s : K, 0 ≤ s → Scalar.sqrt s ^ 2 = s
  exp_pos : ∀ a : K, 0 < Scalar.exp a
  exp_zero : Scalar.exp (0 : K) = 1
  tangent_le_exp : ∀ a b : K, Scalar.exp b * (1 + a - b) ≤ Scalar.exp a
  expMinusOne_eq : ∀ a : K, Scalar.expMinusOne a = Scalar.exp a - 1
  exp_log : ∀ y : K, 0 < y → Scalar.exp (Scalar.log y) = y
  log_nonpos : ∀ y : K, 0 < y → y ≤ 1 → Scalar.log y ≤ 0
  log_mono : ∀ y z : K, 0 < y → y ≤ z → Scalar.log y ≤ Scalar.log z

/-- The real numbers with the functions of analysis. -/
noncomputable instance : ExactScalar ℝ where
  sqrt := Real.sqrt
  exp := Real.exp
  expMinusOne x := Real.exp x - 1
  log := Real.log
  tanh := Real.tanh

instance : LawfulLibrary ℝ where
  sqrt_nonneg s _ := Real.sqrt_nonneg s
  sqrt_sq _ hs := Real.sq_sqrt hs
  exp_pos := Real.exp_pos
  exp_zero := Real.exp_zero
  tangent_le_exp a b := by
    have h := Real.add_one_le_exp (a - b)
    have hb := Real.exp_pos b
    calc Real.exp b * (1 + a - b) = Real.exp b * (a - b + 1) := by ring
      _ ≤ Real.exp b * Real.exp (a - b) := mul_le_mul_of_nonneg_left h hb.le
      _ = Real.exp a := by rw [← Real.exp_add, add_sub_cancel]
  expMinusOne_eq _ := rfl
  exp_log _ hy := Real.exp_log hy
  log_nonpos _ hy h := Real.log_nonpos hy.le h
  log_mono _ _ hy h := Real.log_le_log hy h

namespace Exact

variable {K : Type} [ExactScalar K]

@[simp] theorem abs_eq (x : K) : Scalar.abs x = |x| := rfl

@[simp] theorem isFinite_eq (x : K) : Scalar.isFinite x = true := rfl

@[simp] theorem larger_eq_max (x y : K) : Scalar.larger x y = max x y := by
  unfold Scalar.larger
  split_ifs with h hy
  · exact (max_eq_left h.le).symm
  · exact (max_eq_right (not_lt.1 h)).symm
  · simp at hy

@[simp] theorem smaller_eq_min (x y : K) : Scalar.smaller x y = min x y := by
  unfold Scalar.smaller
  split_ifs with h hy
  · exact (min_eq_left h.le).symm
  · exact (min_eq_right (not_lt.1 h)).symm
  · simp at hy

@[simp] theorem relu_eq_max (x : K) : Scalar.relu x = max x 0 := larger_eq_max x 0

/-! The order of a sum does not matter. -/

@[simp] theorem runningSum_eq_sum (xs : List K) : Scalar.runningSum xs = xs.sum :=
  List.sum_eq_foldl.symm

theorem sum_zipWith_add {xs ys : List K} (h : xs.length = ys.length) :
    (List.zipWith (· + ·) xs ys).sum = xs.sum + ys.sum :=
  (List.sum_add_sum_eq_sum_zipWith_of_length_eq xs ys h).symm

theorem sum_map_sub {β : Type} (xs : List β) (f g : β → K) :
    (xs.map fun x => f x - g x).sum = (xs.map f).sum - (xs.map g).sum :=
  Multiset.sum_map_sub (m := (xs : Multiset β))

theorem sum_zipWith_scaled {xs ys : List K} (h : xs.length = ys.length) (s t : K) :
    (List.zipWith (fun x y => s * x + t * y) xs ys).sum = s * xs.sum + t * ys.sum := by
  have hsplit : List.zipWith (fun x y => s * x + t * y) xs ys =
      List.zipWith (· + ·) (xs.map (s * ·)) (ys.map (t * ·)) := by
    rw [List.zipWith_map]
  rw [hsplit, sum_zipWith_add (by simpa using h), List.sum_map_mul_left, List.sum_map_mul_left,
    List.map_id', List.map_id']

def lanesUpTo (xs : List K) (m : ℕ) : List K :=
  (List.range m).foldl (fun acc block => List.zipWith (· + ·) acc ((xs.drop (8 * block)).take 8))
    (List.replicate 8 0)

theorem lanesUpTo_succ (xs : List K) (m : ℕ) :
    lanesUpTo xs (m + 1) =
      List.zipWith (· + ·) (lanesUpTo xs m) ((xs.drop (8 * m)).take 8) := by
  simp [lanesUpTo, List.range_succ]

theorem lanesUpTo_spec (xs : List K) (m : ℕ) (h : 8 * m ≤ xs.length) :
    (lanesUpTo xs m).length = 8 ∧ (lanesUpTo xs m).sum = (xs.take (8 * m)).sum := by
  induction m with
  | zero => simp [lanesUpTo]
  | succ m ih =>
    obtain ⟨hl, hs⟩ := ih (by omega)
    have hb : ((xs.drop (8 * m)).take 8).length = 8 := by simp; omega
    refine ⟨by rw [lanesUpTo_succ, List.length_zipWith, hl, hb, Nat.min_self], ?_⟩
    rw [lanesUpTo_succ, sum_zipWith_add (hl.trans hb.symm), hs, Nat.mul_succ, List.take_add,
      List.sum_append]

@[simp] theorem laneSum_eq_sum (xs : List K) : Scalar.laneSum xs = xs.sum := by
  obtain ⟨hl, hs⟩ := lanesUpTo_spec xs (xs.length / 8) (by omega)
  have hlanes : Scalar.lanes xs = lanesUpTo xs (xs.length / 8) := rfl
  have hjoin : (List.zipWith (· + ·) ((Scalar.lanes xs).take 4) ((Scalar.lanes xs).drop 4)).sum =
      (Scalar.lanes xs).sum := by
    rw [sum_zipWith_add (by simp [hlanes, hl]), List.sum_take_add_sum_drop]
  have hfold : ∀ (ys : List K) (z : K), ys.foldl (· + ·) z = z + ys.sum := by
    intro ys
    induction ys with
    | nil => simp
    | cons y ys ih => intro z; rw [List.foldl_cons, ih, List.sum_cons, add_assoc]
  unfold Scalar.laneSum
  simp only [runningSum_eq_sum]
  rw [hfold, hjoin, hlanes, hs, List.sum_take_add_sum_drop]

@[simp] theorem dot_eq_sum (xs ys : List K) :
    Scalar.dot xs ys = (List.zipWith (· * ·) xs ys).sum := laneSum_eq_sum _

end Exact

/-! Consequences of the laws of the library. -/

namespace LawfulLibrary

variable {K : Type} [ExactScalar K] [LawfulLibrary K]

theorem exp_strictMono : StrictMono (Scalar.exp : K → K) := by
  intro a b h
  have hpos := exp_pos a
  have ht := tangent_le_exp b a
  nlinarith [mul_pos hpos (sub_pos.2 h)]

theorem exp_le_exp {a b : K} : (Scalar.exp a : K) ≤ Scalar.exp b ↔ a ≤ b :=
  exp_strictMono.le_iff_le

theorem log_lt_log {y z : K} (hy : 0 < y) (h : y < z) : Scalar.log y < Scalar.log z := by
  rw [← exp_strictMono.lt_iff_lt, exp_log y hy, exp_log z (hy.trans h)]
  exact h

theorem one_le_exp {a : K} (h : 0 ≤ a) : 1 ≤ Scalar.exp a := by
  rw [← exp_zero]
  exact exp_le_exp.2 h

theorem log_nonneg {y : K} (h : 1 ≤ y) : 0 ≤ Scalar.log y := by
  rw [← exp_le_exp, exp_zero, exp_log y (one_pos.trans_le h)]
  exact h

theorem log_le {y a : K} (hy : 0 < y) (h : y ≤ Scalar.exp a) : Scalar.log y ≤ a := by
  rw [← exp_le_exp, exp_log y hy]
  exact h

theorem log_one : Scalar.log (1 : K) = 0 :=
  le_antisymm (log_nonpos 1 one_pos le_rfl) (log_nonneg le_rfl)

theorem sqrt_zero : Scalar.sqrt (0 : K) = 0 :=
  (pow_eq_zero_iff two_ne_zero).1 (sqrt_sq 0 le_rfl)

theorem sqrt_le_sqrt {s t : K} (hs : 0 ≤ s) (h : s ≤ t) : Scalar.sqrt s ≤ Scalar.sqrt t := by
  rw [← sq_le_sq₀ (sqrt_nonneg s hs) (sqrt_nonneg t (hs.trans h)), sqrt_sq s hs,
    sqrt_sq t (hs.trans h)]
  exact h

end LawfulLibrary

end NeuralFlow
