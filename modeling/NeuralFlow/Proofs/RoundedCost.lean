import Mathlib
import NeuralFlow.Cost
import NeuralFlow.Proofs.Single.Range

/-! Costs in single precision. A cost is never undefined, but it is infinite where the products it is made
of exceed the limit; a marginal cost is undefined at zero flow if the scale itself does. -/

namespace NeuralFlow

open Single

/-! Results that are finite up to a size. -/

/-- A number that is finite if a size is well below the limit, and infinite if the size is well above. -/
structure Gauged (size : ℚ) (y : Float32) : Prop where
  nonneg : NonNeg y
  finite : size ≤ 99 / 100 * 2 ^ 128 → y.isFinite = true
  size_le : y.isFinite = true → size ≤ 101 / 100 * 2 ^ 128

theorem Single.Computed.gauged {P : Prop} {slack v size : ℚ} {y : Float32} (h : Computed P slack v y)
    (hslack : slack ≤ 1) (hlow : size ≤ 99 / 100 * 2 ^ 128 → P ∧ v ≤ 995 / 1000 * 2 ^ 128)
    (hhigh : P → v ≤ 1005 / 1000 * 2 ^ 128 → size ≤ 101 / 100 * 2 ^ 128) : Gauged size y where
  nonneg := h.nonneg
  finite hsize := by
    obtain ⟨hP, hv⟩ := hlow hsize
    exact (h.close hP).isFinite (by linarith)
  size_le hy := by
    have hP := h.operands hy
    have hlower := (h.close hP).lower hy
    exact hhigh hP (by linarith [val_lt hy])

namespace CostFunction

@[reducible] def withExponentials (exp expMinusOne : Float32 → Float32) : Scalar Float32 :=
  { (inferInstance : Scalar Float32) with exp := exp, expMinusOne := expMinusOne }

/-- What is assumed of the exponentials up to the start of the tail: they are of the right size, and
nothing is left of one at zero. -/
structure LawfulExponentials (exp expMinusOne : Float32 → Float32) : Prop where
  bounds : ∀ t, NonNeg t → val t ≤ 20 → NonNeg (exp t) ∧ 1 ≤ val (exp t) ∧ val (exp t) ≤ 2 ^ 29
  minusOne : ∀ t, NonNeg t → val t ≤ 20 → NonNeg (expMinusOne t) ∧ val (expMinusOne t) ≤ 2 ^ 29
  atZero : ∀ t, NonNeg t → val t = 0 → val (expMinusOne t) = 0
  atTail : 2 ^ 28 ≤ val (exp tailStart)

/-- The exact size of the largest product that a cost is made of. -/
def size (exp : Float32 → Float32) (cost : CostFunction Float32) (x : Float32) : ℚ :=
  match cost.family with
  | .quadratic => val cost.constant * val x ^ 2
  | .cubic => max 1 (val cost.constant) * val x ^ 3
  | .exponential => val (exp tailStart) * val (cost.constant * x) ^ 2 / 2

def slopeSize (exp : Float32 → Float32) (cost : CostFunction Float32) (x : Float32) : ℚ :=
  match cost.family with
  | .quadratic => 2 * val cost.constant * max 1 (val x)
  | .cubic => 3 * val cost.constant * max 1 (val x ^ 2)
  | .exponential =>
    let t := cost.constant * x
    if val t ≤ 20 then val cost.constant * val (exp t)
    else val cost.constant * val (exp tailStart) * (val t - 19)

/-- The scales whose multiples in the marginal cost are infinite. -/
def Steep (cost : CostFunction Float32) : Prop :=
  match cost.family with
  | .quadratic => (2.0 * cost.constant).isInf = true
  | .cubic => (3.0 * cost.constant).isInf = true
  | .exponential => False

/-! Quadratic and cubic costs. -/

section Powers

variable {c x : Float32} (hc : c.isFinite = true) (hc0 : 0 < val c) (hx : x.isFinite = true)
  (hx0 : 0 ≤ val x)

include hc hc0 hx hx0

theorem gauged_square : Gauged (val c * val x ^ 2) (c * x * x) := by
  have hclose := close_mul hc hc0.le hx hx0
  have hxlt := val_lt hx
  refine (computed_mul_mul hc hc0.le hx hx0).gauged (by norm_num) (fun hsize => ?_) fun hfinite hv => ?_
  · have hupper := mul_le_mul_of_nonneg_right hclose.upper hx0
    refine ⟨isFinite_mul hc hc0.le hx hx0 fun hone => ?_, by linarith⟩
    have hgrow : val c * val x ≤ val c * val x ^ 2 :=
      mul_le_mul_of_nonneg_left (le_self_pow₀ hone.le two_ne_zero) hc0.le
    linarith
  · have hlower := mul_le_mul_of_nonneg_right (hclose.lower hfinite) hx0
    linarith

theorem gauged_cube : Gauged (max 1 (val c) * val x ^ 3) (c * (x * x * x)) := by
  have hsquare := close_mul hx hx0 hx hx0
  have hcube := computed_mul_mul hx hx0 hx hx0
  have hxlt := val_lt hx
  have hx3 : 0 ≤ val x ^ 3 := pow_nonneg hx0 3
  -- the least unit times the flow is small beside the cube or beside one
  have hlinear : val x ≤ val x ^ 3 + 1 := by
    rcases le_total (val x) 1 with h | h
    · linarith
    · linarith [le_self_pow₀ h three_ne_zero]
  have hscaled := mul_le_mul_of_nonneg_left hlinear hc0.le
  have hclt := val_lt hc
  have hprod := computed_mul_left hc hc0 hcube.nonneg
  refine hprod.gauged (by norm_num) (fun hsize => ?_) fun hfinite hv => ?_
  · have hone : val x ^ 3 ≤ max 1 (val c) * val x ^ 3 := le_mul_of_one_le_left hx3 (le_max_left _ _)
    have hsize' : val c * val x ^ 3 ≤ max 1 (val c) * val x ^ 3 :=
      mul_le_mul_of_nonneg_right (le_max_right _ _) hx3
    have hfinite : (x * x).isFinite = true := isFinite_mul hx hx0 hx hx0 fun hgt => by
      have hgrow : val x ^ 2 ≤ val x ^ 3 := pow_le_pow_right₀ hgt.le (by norm_num)
      linarith
    have hupper := mul_le_mul_of_nonneg_right hsquare.upper hx0
    have hclose := hcube.close hfinite
    have hupper' := mul_le_mul_of_nonneg_left hclose.upper hc0.le
    have hupper'' := mul_le_mul_of_nonneg_left hupper hc0.le
    exact ⟨hclose.isFinite (by linarith), by linarith⟩
  · have hfinite' := hcube.operands hfinite
    have hlower := mul_le_mul_of_nonneg_right (hsquare.lower hfinite') hx0
    have hclose := (hcube.close hfinite').lower hfinite
    have hlt := val_lt hfinite
    have hlower' := mul_le_mul_of_nonneg_left hclose hc0.le
    have hlower'' := mul_le_mul_of_nonneg_left hlower hc0.le
    rw [max_mul_of_nonneg _ _ hx3]
    exact max_le (by linarith) (by linarith)

end Powers

section Slopes

variable {k a c x : Float32} {n : ℕ} {v : ℚ}

/-- A whole multiple loses nothing to the least unit. -/
theorem close_multiple (hk : k.isFinite = true) (hkn : val k = n) (hc : c.isFinite = true)
    (hc0 : 0 ≤ val c) : Close 0 (n * val c) (k * c) := by
  have hrounds := rounds_mul hk hc
  rw [hkn] at hrounds
  obtain ⟨l, hl⟩ := exists_units (isNumber_of_isFinite hc)
  exact hrounds.close_of_units ⟨n * l, by rw [hl]; push_cast; ring⟩ (mul_nonneg n.cast_nonneg hc0)

/-- Nothing taken infinitely often. -/
theorem not_isNumber_mul (ha : NonNeg a) (hinf : val a = 2 ^ 128) (hx : NonNeg x) (hzero : val x = 0) :
    ¬ IsNumber (a * x) := by
  rcases mul_cases ha hx with ⟨fa, -⟩ | ⟨-, -, ⟨-, hpos⟩ | ⟨-, h⟩⟩ | ⟨hnot, -⟩
  · exact absurd hinf (val_lt fa).ne
  · exact absurd hzero hpos.ne'
  · rw [hzero] at h
    norm_num at h
  · exact hnot

variable (ha : Close 0 v a) (hv : 0 ≤ v) (hx : x.isFinite = true) (hx0 : 0 ≤ val x)
  (hdefined : ¬ (val x = 0 ∧ val a = 2 ^ 128))

include ha hx hx0 hdefined

theorem computed_slope : Computed (a.isFinite = true) (1 / 2 ^ 150) (val a * val x) (a * x) :=
  computed_mul_right ha.nonneg hx hx0 fun h => hx0.lt_of_ne' fun hzero => hdefined ⟨hzero, h⟩

include hv

theorem gauged_slope : Gauged (v * max 1 (val x)) (a * x) := by
  rw [mul_max_of_nonneg _ _ hv, mul_one]
  refine (computed_slope ha hx hx0 hdefined).gauged (by norm_num) (fun hsize => ?_) fun hfinite hle => ?_
  · obtain ⟨hone, hprod⟩ := max_le_iff.1 hsize
    have hupper := mul_le_mul_of_nonneg_right ha.upper hx0
    exact ⟨ha.isFinite (by linarith), by linarith⟩
  · have hlower := ha.lower hfinite
    have hlower' := mul_le_mul_of_nonneg_right hlower hx0
    have hlt := val_lt hfinite
    exact max_le (by linarith) (by linarith)

theorem gauged_slope_square {y : Float32} (hy : y.isFinite = true) (hxy : val y = val x) :
    Gauged (v * max 1 (val x ^ 2)) (a * x * y) := by
  have honce := computed_slope ha hx hx0 hdefined
  have htwice : Computed ((a * x).isFinite = true) (1 / 2 ^ 150) (val (a * x) * val y) (a * x * y) := by
    refine computed_mul_right honce.nonneg hy (hxy ▸ hx0) fun h => (hxy ▸ hx0).lt_of_ne' fun hzero => ?_
    rw [hxy] at hzero
    have hfinite : a.isFinite = true :=
      (isFinite_iff_lt ha.nonneg).2 ((val_le_limit ha.nonneg.1).lt_of_ne fun h => hdefined ⟨hzero, h⟩)
    rw [(val_mul_eq_zero hfinite hx hzero).2] at h
    norm_num at h
  rw [hxy] at htwice
  have hxlt := val_lt hx
  have hlinear : val x ≤ max 1 (val x ^ 2) := by
    rcases le_total (val x) 1 with h | h
    · exact le_max_of_le_left h
    · exact le_max_of_le_right (le_self_pow₀ h two_ne_zero)
  have hscaled := mul_le_mul_of_nonneg_left hlinear hv
  rw [mul_max_of_nonneg _ _ hv, mul_one] at hscaled ⊢
  refine htwice.gauged (by norm_num) (fun hsize => ?_) fun hfinite hle => ?_
  · obtain ⟨hone, hprod⟩ := max_le_iff.1 hsize
    have hupper := mul_le_mul_of_nonneg_right ha.upper hx0
    have hclose := honce.close (ha.isFinite (by linarith))
    have hupper' := mul_le_mul_of_nonneg_right hclose.upper hx0
    have hupper'' := mul_le_mul_of_nonneg_right hupper hx0
    exact ⟨hclose.isFinite (by linarith), by linarith⟩
  · have hfinite' := honce.operands hfinite
    have hlower := ha.lower hfinite'
    have hlower' := mul_le_mul_of_nonneg_right hlower hx0
    have hlower'' := mul_le_mul_of_nonneg_right hlower' hx0
    have hclose := mul_le_mul_of_nonneg_right ((honce.close hfinite').lower hfinite) hx0
    have hlt := val_lt hfinite'
    exact max_le (by linarith) (by linarith)

end Slopes

/-! The tail of the exponential cost. -/

section Tail

variable {t : Float32} (ht : NonNeg t) (htail : 20 < val t)

include ht htail

theorem computed_excess : Computed (t.isFinite = true) 0 (val t - 20) (t - 20.0) := by
  obtain ⟨hfinite, hval⟩ := val_twenty
  have hexcess := computed_sub ht.1 hfinite (hval ▸ htail.le)
  rwa [hval] at hexcess

theorem computed_parabola :
    let d : Float32 := t - 20.0
    Computed (d.isFinite = true ∧ (0.5 * d * d).isFinite = true) 0 (val d + val (0.5 * d * d))
      (d + 0.5 * d * d) := by
  intro d
  have hd := (computed_excess ht htail).nonneg
  exact computed_add hd (computed_half_mul hd).nonneg

/-- Up to a small part the parabola of the tail is no larger than that of the scaled flow. -/
theorem parabola_le (hle : val t ≤ 2 ^ 52) :
    let d : Float32 := t - 20.0
    (d + 0.5 * d * d).isFinite = true ∧
      val (d + 0.5 * d * d) ≤ 1001 / 1000 * (val t ^ 2 / 2) + 2 ^ 53 := by
  intro d
  have hd : Computed (t.isFinite = true) 0 (val t - 20) d := computed_excess ht htail
  have hsquare : val t ^ 2 ≤ 2 ^ 52 * val t := by nlinarith
  have hcd := hd.close ((isFinite_iff_lt ht).2 (by linarith))
  have hdle : val d ≤ (1 + 1 / 2 ^ 24) * val t := by linarith [hcd.upper]
  have hdsquare := pow_le_pow_left₀ hd.nonneg.2 hdle 2
  have hfd : d.isFinite = true := (isFinite_iff_lt hd.nonneg).2 (by linarith)
  have hhalf := (computed_half hd.nonneg).close hfd
  have hhle := mul_le_mul_of_nonneg_right hhalf.upper hd.nonneg.2
  have hproduct := (computed_half_mul hd.nonneg).close ⟨hhalf.isFinite (by linarith), hfd⟩
  have hsum := (computed_parabola ht htail).close ⟨hfd, hproduct.isFinite (by linarith)⟩
  have hupper := hproduct.upper
  have hupper' := hsum.upper
  exact ⟨hsum.isFinite (by linarith), by linarith [sq_nonneg (val t)]⟩

/-- And it is no smaller, up to what is small beside the limit. -/
theorem le_parabola :
    let d : Float32 := t - 20.0
    (d + 0.5 * d * d).isFinite = true →
      val t ^ 2 / 2 ≤ 1001 / 1000 * val (d + 0.5 * d * d) + 2 ^ 79 := by
  intro d hfinite
  have hd : Computed (t.isFinite = true) 0 (val t - 20) d := computed_excess ht htail
  have hhalf := computed_half hd.nonneg
  have hproduct := computed_half_mul hd.nonneg
  have hsum := computed_parabola ht htail
  obtain ⟨hfd, hfp⟩ := hsum.operands hfinite
  rcases le_total (val t) (2 ^ 40) with hsmall | hlarge
  · have hsquare := pow_le_pow_left₀ ht.2 hsmall 2
    linarith [hsum.nonneg.2]
  · -- far out the start of the tail is a small part of the scaled flow
    have hdge : (1 - 1 / 2 ^ 22) * val t ≤ val d := by linarith [(hd.close (hd.operands hfd)).lower hfd]
    have hdsquare := pow_le_pow_left₀ (by linarith) hdge 2
    have hlower := mul_le_mul_of_nonneg_right ((hhalf.close hfd).lower (hproduct.operands hfp).1)
      hd.nonneg.2
    have hlower' := (hproduct.close (hproduct.operands hfp)).lower hfp
    have hlower'' := (hsum.close ⟨hfd, hfp⟩).lower hfinite
    linarith [val_lt hfd, sq_nonneg (val t)]

theorem gauged_tail {e m : Float32} (he : e.isFinite = true) (hlow : 2 ^ 28 ≤ val e)
    (hhigh : val e ≤ 2 ^ 29) (hm : NonNeg m) (hmle : val m ≤ 2 ^ 29) :
    let d : Float32 := t - 20.0
    Gauged (val e * val t ^ 2 / 2) (m + e * (d + 0.5 * d * d)) := by
  intro d
  have hk : NonNeg (d + 0.5 * d * d) := (computed_parabola ht htail).nonneg
  have he0 : 0 ≤ val e := by linarith
  have hfm : m.isFinite = true := (isFinite_iff_lt hm).2 (by linarith)
  have hproduct := computed_mul_left he (by linarith) hk
  refine (computed_add hm hproduct.nonneg).gauged zero_le_one (fun hsize => ?_) fun ⟨_, hfinite⟩ hle => ?_
  · have hsquare : val t ^ 2 ≤ (2 ^ 52) ^ 2 := by
      have := mul_le_mul_of_nonneg_right hlow (sq_nonneg (val t))
      linarith
    obtain ⟨hfk, hle⟩ := parabola_le ht htail (le_of_sq_le_sq hsquare (by norm_num))
    have hscaled := mul_le_mul_of_nonneg_left hle he0
    have hclose := hproduct.close hfk
    have hupper' := hclose.upper
    exact ⟨⟨hfm, hclose.isFinite (by linarith)⟩, by linarith⟩
  · have hfk := hproduct.operands hfinite
    have hscaled := mul_le_mul_of_nonneg_left (le_parabola ht htail hfk) he0
    have hlower' := (hproduct.close hfk).lower hfinite
    linarith [hm.2]

/-- The last factor of the slope is close to the scaled flow less nineteen. -/
theorem excess_spec :
    let w : Float32 := 1 + t - 20.0
    NonNeg w ∧ 0 < val w ∧
      (val t ≤ 2 ^ 120 → w.isFinite = true ∧ val w ≤ 1001 / 1000 * (val t - 19)) ∧
      (w.isFinite = true → t.isFinite = true ∧ 999 / 1000 * (val t - 19) ≤ val w) := by
  intro w
  obtain ⟨hfinite, hval⟩ := val_twenty
  have hone : NonNeg 1 := ⟨isNumber_one, by rw [val_one]; norm_num⟩
  have hsum := computed_add hone ht
  have hle : val t ≤ val (1 + t) := (hone.add ht).2.2
  have hw : Computed ((1 + t).isFinite = true) 0 (val (1 + t) - 20) w := by
    have hdiff := computed_sub hsum.nonneg.1 hfinite (hval ▸ htail.le.trans hle)
    rwa [hval] at hdiff
  have hpos : 20.0 < 1 + t := lt_iff.2
    ⟨⟨isNumber_of_isFinite hfinite, hsum.nonneg.1⟩, hval ▸ htail.trans_le hle⟩
  rw [val_one] at hsum
  refine ⟨hw.nonneg, (pos_iff.1 (pos_sub_iff.2 hpos)).2, fun hbound => ?_, fun hfw => ?_⟩
  · have hft : t.isFinite = true := (isFinite_iff_lt ht).2 (by linarith)
    have hcs := hsum.close ⟨rfl, hft⟩
    have hcw := hw.close (hcs.isFinite (by linarith))
    have hupper := hcs.upper
    have hupper' := hcw.upper
    exact ⟨hcw.isFinite (by linarith), by linarith⟩
  · have hfs := hw.operands hfw
    obtain ⟨-, hft⟩ := hsum.operands hfs
    have hlower := (hsum.close ⟨rfl, hft⟩).lower hfs
    have hlower' := (hw.close hfs).lower hfw
    exact ⟨hft, by linarith⟩

end Tail

theorem gauged_slope_tail {c e x : Float32} (hc : c.isFinite = true) (hc0 : 0 < val c)
    (hx : x.isFinite = true) (hx0 : 0 ≤ val x) (htail : 20 < val (c * x)) (he : e.isFinite = true)
    (hlow : 2 ^ 28 ≤ val e) :
    Gauged (val c * val e * (val (c * x) - 19)) (c * e * (1 + c * x - 20.0)) := by
  have he0 : 0 ≤ val e := by linarith
  have hct := close_mul hc hc0.le hx hx0
  have hce := close_mul hc hc0.le he he0
  obtain ⟨hw, hwpos, hupper, hlower⟩ := excess_spec hct.nonneg htail
  have hcpos : 0 < val (c * e) := hc0.trans_le
    ((rounds_mul hc he).le_val (isNumber_of_isFinite hc) (le_mul_of_one_le_right hc0.le (by linarith)))
  have hscale : (2 : ℚ) ^ (-149 : ℤ) * 2 ^ 28 ≤ val c * val e :=
    mul_le_mul (power_le_val (isNumber_of_isFinite hc) hc0) hlow (by norm_num) hc0.le
  have hslack : 1 / 2 ^ 150 ≤ val c * val e / 2 ^ 24 := by
    norm_num at hscale ⊢
    linarith
  have hsteep : 0 ≤ val c * val e := mul_nonneg hc0.le he0
  refine (computed_mul hce.nonneg hw (fun _ => hwpos) fun _ => hcpos).gauged (by norm_num)
    (fun hsize => ?_) fun ⟨hfinite, hfinite'⟩ hle => ?_
  · -- a scaled flow near the limit needs a scale near one, and then the slope is beyond the limit
    have hbound : val (c * x) ≤ 2 ^ 120 := by
      by_contra! hlarge
      have hcx : val c * val x ≤ val c * 2 ^ 128 := mul_le_mul_of_nonneg_left (val_lt hx).le hc0.le
      have hclow : 1 / 2 ^ 9 ≤ val c := by linarith [hct.upper]
      have hceLow : 1 / 2 ^ 9 * 2 ^ 28 ≤ val c * val e := mul_le_mul hclow hlow (by norm_num) hc0.le
      have hsizeLow : 1 / 2 ^ 9 * 2 ^ 28 * (2 ^ 120 - 19) ≤ val c * val e * (val (c * x) - 19) :=
        mul_le_mul hceLow (by linarith) (by norm_num) hsteep
      linarith
    obtain ⟨hfw, hwle⟩ := hupper hbound
    have hone : val c * val e ≤ val c * val e * (val (c * x) - 19) :=
      le_mul_of_one_le_right hsteep (by linarith)
    have hce' := hce.le le_rfl hslack
    have hprod := mul_le_mul hce' hwle hw.2 (by linarith)
    exact ⟨⟨(isFinite_iff_lt hce.nonneg).2 (by linarith), hfw⟩, by linarith⟩
  · obtain ⟨hft, hwge⟩ := hlower hfinite'
    have hprod := mul_le_mul (hce.ge hfinite le_rfl hslack) hwge (by linarith) hce.nonneg.2
    have hnonneg : 0 ≤ val c * val e * (val (c * x) - 19) := mul_nonneg hsteep (by linarith)
    linarith

/-! Accepted costs. -/

/-- Costs are accepted as they are, with a finite scale above zero. -/
theorem ofFamily_eq_ok {family : CostFamily} {constant : Float32} {cost : CostFunction Float32} :
    ofFamily family constant = .ok cost ↔
      (constant.isFinite = true ∧ 0 < val constant) ∧ cost = ⟨family, constant⟩ := by
  have hcheck : (!Scalar.isFinite constant) = true ∨ constant ≤ 0 ↔
      ¬ (constant.isFinite = true ∧ 0 < val constant) := by
    change (!constant.isFinite) = true ∨ constant ≤ 0 ↔ _
    rw [not_and_or, Bool.not_eq_true', ← Bool.not_eq_true, not_lt, le_iff, val_zero]
    by_cases hfinite : constant.isFinite = true
    · rw [and_iff_right ⟨isNumber_of_isFinite hfinite, isNumber_zero⟩]
    · exact iff_of_true (Or.inl hfinite) (Or.inl hfinite)
  rw [ofFamily, validate]
  by_cases hpos : constant.isFinite = true ∧ 0 < val constant
  · rw [if_neg fun h => hcheck.1 h hpos, and_iff_right hpos]
    exact ⟨fun h => (Except.ok.inj h).symm, fun h => congrArg Except.ok h.symm⟩
  · rw [if_pos (hcheck.2 hpos)]
    exact iff_of_false (by rintro ⟨⟩) fun h => hpos h.1

section Accepted

variable {exp expMinusOne : Float32 → Float32} (hexp : LawfulExponentials exp expMinusOne)
  {cost : CostFunction Float32} (hc : cost.constant.isFinite = true)
  (hc0 : 0 < val cost.constant) {x : Float32} (hx : x.isFinite = true) (hx0 : 0 ≤ val x)

theorem abs_spec (hx : x.isFinite = true) (hx0 : 0 ≤ val x) :
    x.abs.isFinite = true ∧ val x.abs = val x := by
  obtain ⟨hnumber, hlt⟩ := isFinite_iff.1 hx
  have habs : val x.abs = val x := (val_abs hnumber).trans (abs_of_nonneg hx0)
  exact ⟨isFinite_iff.2 ⟨isNumber_abs.2 hnumber, habs ▸ hlt⟩, habs⟩

theorem nonNeg_tailStart : NonNeg tailStart ∧ val tailStart = 20 :=
  ⟨⟨isNumber_of_isFinite val_twenty.1, val_twenty.2.symm ▸ by norm_num⟩, val_twenty.2⟩

theorem le_tailStart_iff {t : Float32} (ht : NonNeg t) : t ≤ tailStart ↔ val t ≤ 20 := by
  obtain ⟨htail, hval⟩ := nonNeg_tailStart
  rw [le_iff, hval, and_iff_right ⟨ht.1, htail.1⟩]

include hexp

theorem exp_tailStart : (exp tailStart).isFinite = true ∧ val (exp tailStart) ≤ 2 ^ 29 := by
  obtain ⟨htail, hval⟩ := nonNeg_tailStart
  obtain ⟨hnonneg, -, hle⟩ := hexp.bounds _ htail hval.le
  exact ⟨(isFinite_iff_lt hnonneg).2 (by linarith), hle⟩

include hc hc0 hx hx0

theorem gauged_apply :
    Gauged (cost.size exp x) (@apply Float32 (withExponentials exp expMinusOne) cost x) := by
  obtain ⟨family, c⟩ := cost
  cases family with
  | quadratic => exact gauged_square hc hc0 hx hx0
  | cubic =>
    obtain ⟨hfinite, habs⟩ := abs_spec hx hx0
    have hcube := gauged_cube hc hc0 hfinite (habs.symm ▸ hx0)
    rwa [habs] at hcube
  | exponential =>
    have ht : NonNeg (c * x) := (close_mul hc hc0.le hx hx0).nonneg
    obtain ⟨hfe, hele⟩ := exp_tailStart hexp
    change Gauged (val (exp tailStart) * val (c * x) ^ 2 / 2) (if c * x ≤ tailStart then _ else _)
    split_ifs with hle
    · rw [le_tailStart_iff ht] at hle
      obtain ⟨hm, hmle⟩ := hexp.minusOne _ ht hle
      refine ⟨hm, fun _ => (isFinite_iff_lt hm).2 (by linarith), fun _ => ?_⟩
      have hsquare := pow_le_pow_left₀ ht.2 hle 2
      have hprod := mul_le_mul hele hsquare (sq_nonneg _) (by norm_num)
      linarith
    · rw [le_tailStart_iff ht, not_le] at hle
      obtain ⟨hm, hmle⟩ := hexp.minusOne _ nonNeg_tailStart.1 nonNeg_tailStart.2.le
      exact gauged_tail ht hle hfe hexp.atTail hele hm hmle

/-- No flow costs nothing. -/
theorem val_apply_eq_zero (hzero : val x = 0) :
    val (@apply Float32 (withExponentials exp expMinusOne) cost x) = 0 := by
  obtain ⟨family, c⟩ := cost
  obtain ⟨hfinite, hval⟩ := val_mul_eq_zero hc hx hzero
  cases family with
  | quadratic => exact (val_mul_eq_zero hfinite hx hzero).2
  | cubic =>
    obtain ⟨hfabs, habs⟩ := abs_spec hx hx0
    have hzero' := habs.trans hzero
    obtain ⟨hfsquare, -⟩ := val_mul_eq_zero hfabs hfabs hzero'
    obtain ⟨hfcube, hcube⟩ := val_mul_eq_zero hfsquare hfabs hzero'
    exact (val_mul_eq_zero hc hfcube hcube).2
  | exponential =>
    have ht : NonNeg (c * x) := (close_mul hc hc0.le hx hx0).nonneg
    change val (if c * x ≤ tailStart then expMinusOne (c * x) else _) = 0
    rw [if_pos ((le_tailStart_iff ht).2 (hval ▸ by norm_num))]
    exact hexp.atZero _ ht hval

theorem gauged_derivative (hdefined : ¬ (val x = 0 ∧ cost.Steep)) :
    Gauged (cost.slopeSize exp x) (@derivative Float32 (withExponentials exp expMinusOne) cost x) := by
  obtain ⟨family, c⟩ := cost
  cases family with
  | quadratic =>
    have htwice : Close 0 (2 * val c) (2.0 * c) := close_multiple (n := 2) val_two.1 val_two.2 hc hc0.le
    exact gauged_slope htwice (by positivity) hx hx0
      fun h => hdefined ⟨h.1, (isInf_iff_eq htwice.nonneg).2 h.2⟩
  | cubic =>
    have hthrice : Close 0 (3 * val c) (3.0 * c) :=
      close_multiple (n := 3) val_three.1 val_three.2 hc hc0.le
    obtain ⟨hfabs, habs⟩ := abs_spec hx hx0
    exact gauged_slope_square hthrice (by positivity) hx hx0
      (fun h => hdefined ⟨h.1, (isInf_iff_eq hthrice.nonneg).2 h.2⟩) hfabs habs
  | exponential =>
    have ht : NonNeg (c * x) := (close_mul hc hc0.le hx hx0).nonneg
    have hiff := le_tailStart_iff ht
    change Gauged (if val (c * x) ≤ 20 then _ else _) (if c * x ≤ tailStart then _ else _)
    rcases le_or_gt (val (c * x)) 20 with hle | hgt
    · rw [if_pos hle, if_pos (hiff.2 hle)]
      obtain ⟨he, hlow, hele⟩ := hexp.bounds _ ht hle
      have hfe := (isFinite_iff_lt he).2 (by linarith)
      exact (computed_mul_left hc hc0 he).gauged (by norm_num) (fun h => ⟨hfe, by linarith⟩)
        fun _ h => by linarith
    · rw [if_neg hgt.not_ge, if_neg fun h => hgt.not_ge (hiff.1 h)]
      exact gauged_slope_tail hc hc0 hx hx0 hgt (exp_tailStart hexp).1 hexp.atTail

omit hexp in
theorem not_isNumber_derivative (hzero : val x = 0) (hsteep : cost.Steep) :
    ¬ IsNumber (@derivative Float32 (withExponentials exp expMinusOne) cost x) := by
  obtain ⟨family, c⟩ := cost
  have hx' : NonNeg x := ⟨isNumber_of_isFinite hx, hx0⟩
  cases family with
  | quadratic =>
    have htwice : NonNeg (2.0 * c) := (close_multiple (n := 2) val_two.1 val_two.2 hc hc0.le).nonneg
    exact not_isNumber_mul htwice ((isInf_iff_eq htwice).1 hsteep) hx' hzero
  | cubic =>
    have hthrice : NonNeg (3.0 * c) := (close_multiple (n := 3) val_three.1 val_three.2 hc hc0.le).nonneg
    have hproduct := not_isNumber_mul hthrice ((isInf_iff_eq hthrice).1 hsteep) hx' hzero
    exact fun h => hproduct (isNumber_of_mul h)
  | exponential => exact hsteep.elim

end Accepted

/-- The costs and marginal costs of an accepted cost at a finite flow that is not negative. A cost is a
number that is not negative, nothing for no flow, and finite up to the size of its largest product. A
marginal cost is one as well, but where the flow is zero and the multiple of the scale is infinite. -/
theorem gauged_of_accepted {exp expMinusOne : Float32 → Float32}
    (hexp : LawfulExponentials exp expMinusOne) {family : CostFamily} {constant : Float32}
    {cost : CostFunction Float32} (h : ofFamily family constant = .ok cost) {x : Float32}
    (hx : x.isFinite = true) (hx0 : 0 ≤ x) :
    (Gauged (cost.size exp x) (@apply Float32 (withExponentials exp expMinusOne) cost x) ∧
      (val x = 0 → val (@apply Float32 (withExponentials exp expMinusOne) cost x) = 0)) ∧
    (IsNumber (@derivative Float32 (withExponentials exp expMinusOne) cost x) ↔
      ¬ (val x = 0 ∧ cost.Steep)) ∧
    (IsNumber (@derivative Float32 (withExponentials exp expMinusOne) cost x) →
      Gauged (cost.slopeSize exp x)
        (@derivative Float32 (withExponentials exp expMinusOne) cost x)) := by
  obtain ⟨⟨hfinite, hpos⟩, heq⟩ := ofFamily_eq_ok.1 h
  have hc : cost.constant.isFinite = true := by rwa [heq]
  have hc0 : 0 < val cost.constant := by rwa [heq]
  rw [le_iff, val_zero] at hx0
  have hdefined : IsNumber (@derivative Float32 (withExponentials exp expMinusOne) cost x) →
      ¬ (val x = 0 ∧ cost.Steep) := fun hnumber hand =>
    not_isNumber_derivative hc hc0 hx hx0.2 hand.1 hand.2 hnumber
  have hgauged := gauged_derivative hexp hc hc0 hx hx0.2
  exact ⟨⟨gauged_apply hexp hc hc0 hx hx0.2, val_apply_eq_zero hexp hc hc0 hx hx0.2⟩,
    ⟨hdefined, fun h => (hgauged h).nonneg.1⟩, fun hnumber => hgauged (hdefined hnumber)⟩

def stepExp (t : Float32) : Float32 := if t ≤ 0 then 1 else 485165184.0

def stepExpMinusOne (t : Float32) : Float32 := if t ≤ 0 then 0 else 485165184.0

theorem lawful_step : LawfulExponentials stepExp stepExpMinusOne := by
  obtain ⟨-, hval⟩ : (485165184.0 : Float32).isFinite = true ∧ val 485165184.0 = 485165184 :=
    constant_spec 15161412 5 (by norm_num) rfl (by norm_num)
  have hlarge : NonNeg 485165184.0 := ⟨rfl, hval ▸ by norm_num⟩
  refine ⟨fun t _ _ => ?_, fun t _ _ => ?_, fun t ht hzero => ?_, ?_⟩
  · rw [stepExp]
    split_ifs
    · exact ⟨⟨isNumber_one, by rw [val_one]; norm_num⟩, by rw [val_one], by rw [val_one]; norm_num⟩
    · exact ⟨hlarge, by rw [hval]; norm_num, by rw [hval]; norm_num⟩
  · rw [stepExpMinusOne]
    split_ifs
    · exact ⟨nonNeg_zero, by rw [val_zero]; norm_num⟩
    · exact ⟨hlarge, by rw [hval]; norm_num⟩
  · rw [stepExpMinusOne, if_pos (le_iff.2 ⟨⟨ht.1, isNumber_zero⟩, hzero.le⟩), val_zero]
  · rw [stepExp, if_neg (by decide), hval]
    norm_num

/-- The marginal cost of no flow is undefined for a large scale, and the exponential cost is infinite on a
large flow. -/
theorem gauged_of_accepted_overflow :
    ¬ IsNumber (@derivative Float32 (withExponentials stepExp stepExpMinusOne) ⟨.quadratic, 3e38⟩ 0) ∧
    ¬ (@apply Float32 (withExponentials stepExp stepExpMinusOne) ⟨.exponential, 1⟩ 1e16).isFinite = true := by
  constructor
  · have hcost : ofFamily .quadratic (3e38 : Float32) = .ok ⟨.quadratic, 3e38⟩ :=
      ofFamily_eq_ok.2 ⟨⟨by decide +kernel, (pos_iff.1 (by decide +kernel)).2⟩, rfl⟩
    obtain ⟨-, hiff, -⟩ := gauged_of_accepted lawful_step hcost (x := 0) rfl (by decide)
    rw [hiff, not_not]
    have hsteep : (2.0 * 3e38 : Float32).isInf = true := by decide +kernel
    exact ⟨val_zero, hsteep⟩
  · have hcost : ofFamily .exponential (1 : Float32) = .ok ⟨.exponential, 1⟩ :=
      ofFamily_eq_ok.2 ⟨⟨rfl, (pos_iff.1 (by decide)).2⟩, rfl⟩
    obtain ⟨hx, hval⟩ : (1e16 : Float32).isFinite = true ∧ val 1e16 = 9313226 * 2 ^ 30 :=
      constant_spec 9313226 30 (by norm_num) (by with_unfolding_all rfl) (by norm_num)
    have hmul : val (1 * 1e16) = 9313226 * 2 ^ 30 := by
      have hrounds := rounds_mul (x := 1) rfl hx
      rw [val_one, one_mul] at hrounds
      rw [hrounds.val_eq (isNumber_of_isFinite hx), hval]
    obtain ⟨⟨hgauged, -⟩, -⟩ := gauged_of_accepted lawful_step hcost hx (by decide +kernel)
    intro hfinite
    have hsize := hgauged.size_le hfinite
    rw [size] at hsize
    have htail := lawful_step.atTail
    rw [hmul] at hsize
    linarith

end CostFunction

end NeuralFlow
