import Mathlib
import NeuralFlow.FlowModel
import NeuralFlow.Proofs.HopAttention

/-! Shapes of drawn layers. Whatever the samples are, the layers of a new model have the widths that
its settings name. -/

namespace NeuralFlow

variable {α : Type} [Scalar α] {σ β γ : Type}

/-- What holds of a drawn value for every source of samples. -/
def Draws (x : StateM σ β) (P : β → Prop) : Prop := ∀ source, P (x.run source).1

omit [Scalar α] in
theorem Draws.bind {x : StateM σ β} {f : β → StateM σ γ} {P : β → Prop} {Q : γ → Prop}
    (h : Draws x P) (hf : ∀ b, P b → Draws (f b) Q) : Draws (x >>= f) Q :=
  fun source => hf _ (h source) _

theorem Draws.all (x : StateM σ β) : Draws x fun _ => True := fun _ => trivial

theorem draws_pure {b : β} {P : β → Prop} (h : P b) : Draws (pure b : StateM σ β) P := fun _ => h

variable (next : StateM σ α)

namespace Affine

omit [Scalar α] in
theorem length_drawLines (width rows : ℕ) :
    Draws (drawLines next width rows) (·.1.length = rows) := by
  induction rows with
  | zero => exact draws_pure rfl
  | succ rows ih =>
    refine (Draws.all _).bind fun ⟨l, hl⟩ _ => ih.bind fun ⟨lines, hlines⟩ hlen => ?_
    exact draws_pure (by simpa using hlen)

theorem draw_fits (inputs outputs : ℕ) :
    Draws (draw next inputs outputs) (·.Fits inputs outputs) :=
  (length_drawLines _ inputs outputs).bind fun ⟨_, _⟩ hlen =>
    draws_pure ⟨⟨hlen, rfl⟩, List.length_replicate⟩

end Affine

theorem Perceptron.draw_leads (inputs : ℕ) (hidden : List ℕ) (outputs : ℕ) (final : Bool) :
    Draws (draw next inputs hidden outputs final) fun p =>
      p.layers ≠ [] ∧ Leads p.layers inputs outputs := by
  have hlayers : Draws (drawLayers next inputs (hidden ++ [outputs])) fun layers =>
      layers ≠ [] ∧ Leads layers inputs outputs := by
    induction hidden generalizing inputs with
    | nil =>
      exact (Affine.draw_fits next inputs outputs).bind fun layer h =>
        draws_pure ⟨List.cons_ne_nil _ _, outputs, h, rfl⟩
    | cons width hidden ih =>
      exact (Affine.draw_fits next inputs width).bind fun layer h =>
        (ih width).bind fun layers hl => draws_pure ⟨List.cons_ne_nil _ _, width, h, hl.2⟩
  exact hlayers.bind fun layers h => draws_pure h

theorem Perceptron.draw_activateFinal (inputs : ℕ) (hidden : List ℕ) (outputs : ℕ) (final : Bool) :
    Draws (draw next inputs hidden outputs final) (·.activateFinal = final) :=
  (Draws.all _).bind fun _ _ => draws_pure rfl

theorem GatedCell.draw_fits (width : ℕ) : Draws (draw next width width) (·.Fits width) :=
  (Affine.draw_fits next width width).bind fun _ h₁ =>
    (Affine.draw_fits next width width).bind fun _ h₂ =>
      (Affine.draw_fits next width width).bind fun _ h₃ =>
        (Affine.draw_fits next width width).bind fun _ h₄ =>
          (Affine.draw_fits next width width).bind fun _ h₅ =>
            (Affine.draw_fits next width width).bind fun _ h₆ =>
              draws_pure ⟨h₁, h₂, h₃, h₄, h₅, h₆⟩

namespace HopAttention

/-- The widths of drawn attention. The projections are as wide as all heads together. -/
structure Drawn (a : HopAttention α) (width heads headWidth : UInt64) (merge : HeadMerge) :
    Prop where
  heads_eq : a.heads = heads.toNat
  headWidth_eq : a.headWidth = headWidth.toNat
  merge_eq : a.merge = merge
  query : a.query.Fits width.toNat (a.heads * a.headWidth)
  key : a.key.Fits width.toNat (a.heads * a.headWidth)
  value : a.value.Fits width.toNat (a.heads * a.headWidth)
  output : merge = .concat → ∃ output, a.output = some output ∧
    output.Fits (a.heads * a.headWidth) width.toNat
  hopScore : a.hopScore.Fits width.toNat 1

theorem drawHeads_drawn (width : UInt64) {heads headWidth projection : UInt64}
    (h : projection.toNat = heads.toNat * headWidth.toNat) (merge : HeadMerge) :
    Draws (drawHeads next width heads headWidth projection merge)
      (·.Drawn width heads headWidth merge) := by
  rw [drawHeads, h]
  refine (Affine.draw_fits next _ _).bind fun query hq => ?_
  refine (Affine.draw_fits next _ _).bind fun key hk => ?_
  refine (Affine.draw_fits next _ _).bind fun value hv => ?_
  cases merge with
  | concat =>
    have houtput : Draws (some <$> Affine.draw next (heads.toNat * headWidth.toNat) width.toNat)
        fun o => ∃ output, o = some output ∧
          output.Fits (heads.toNat * headWidth.toNat) width.toNat :=
      fun source => ⟨_, rfl, Affine.draw_fits next _ _ source⟩
    exact houtput.bind fun output ho => (Affine.draw_fits next _ _).bind fun score hs =>
      draws_pure ⟨rfl, rfl, rfl, hq, hk, hv, fun _ => ho, hs⟩
  | average =>
    exact (Draws.all (pure none)).bind fun _ _ => (Affine.draw_fits next _ _).bind fun score hs =>
      draws_pure ⟨rfl, rfl, rfl, hq, hk, hv, nofun, hs⟩

theorem ensures_draw (width heads : UInt64) (merge : HeadMerge) :
    Ensures (draw next width heads merge) fun drawing => ∃ headWidth,
      headWidthFor (α := α) width heads merge = .ok headWidth ∧
        Draws drawing (·.Drawn width heads headWidth merge) := by
  refine (show Ensures _ fun w => headWidthFor (α := α) width heads merge = .ok w from
    fun _ h => h).bind fun headWidth hw => ?_
  refine (ensures_wordSize _).bind fun projection hp => ?_
  exact ensures_pure ⟨headWidth, hw, drawHeads_drawn next width hp merge⟩

omit [Scalar α] in
theorem Drawn.fits {a : HopAttention α} {width heads headWidth : UInt64} {merge : HeadMerge}
    (h : a.Drawn width heads headWidth merge)
    (hmerge : merge = .average → headWidth = width ∧ 0 < width.toNat) : a.Fits width.toNat := by
  refine ⟨h.query, h.key, h.value, ?_, h.hopScore⟩
  cases merge with
  | concat =>
    left
    obtain ⟨output, ho, hfit⟩ := h.output rfl
    exact ⟨h.merge_eq, output, ho, hfit⟩
  | average =>
    right
    obtain ⟨hwidth, hpos⟩ := hmerge rfl
    exact ⟨h.merge_eq, by rw [h.headWidth_eq, hwidth], hpos⟩

end HopAttention

end NeuralFlow
