import Mathlib
import NeuralFlow.Layer.GatedCell
import NeuralFlow.Layer.Perceptron
import NeuralFlow.Proofs.Grid
import NeuralFlow.Proofs.Outcome

/-! Shapes of layers. A layer of the right widths takes every table of its input width to one of its
output width; whatever its widths are, it never changes the number of lines. -/

namespace NeuralFlow

variable {α : Type} [Scalar α]

open Grid

namespace Affine

structure Fits (layer : Affine α) (inputs outputs : ℕ) : Prop where
  weights : layer.weights.Shaped outputs inputs
  offsets : layer.offsets.length = outputs

theorem Fits.apply {layer : Affine α} {inputs outputs rows : ℕ} (h : layer.Fits inputs outputs)
    {x : Grid α} (hx : x.Shaped rows inputs) :
    Yields (layer.apply x) (·.Shaped rows outputs) := by
  refine (yields_orFault (hx.timesTransposed? h.weights)).bind fun sums hs => ?_
  refine yields_orFault (combine?_of_commonLength ?_ ?_)
  · rw [hs.rows_eq]
    exact commonLength_one rows
  · rw [hs.cols_eq]
    change commonLength outputs layer.offsets.length = some outputs
    rw [h.offsets, commonLength_self]

theorem Fits.ensures_cols {layer : Affine α} {inputs outputs : ℕ} (h : layer.Fits inputs outputs)
    (x : Grid α) : Ensures (layer.apply x) (·.cols = outputs) := by
  refine (ensures_orFault fun sums => cols_timesTransposed?).bind fun sums hs => ?_
  refine ensures_orFault fun y hy => ?_
  have hcols := (shaped_combine? hy).2
  rw [hs, h.weights.rows_eq] at hcols
  change commonLength outputs layer.offsets.length = some y.cols at hcols
  rw [h.offsets, commonLength_self] at hcols
  exact (Option.some.inj hcols).symm

theorem ensures_rows (layer : Affine α) (x : Grid α) :
    Ensures (layer.apply x) fun y => y.rows = x.rows := by
  refine (ensures_orFault fun sums => rows_timesTransposed?).bind fun sums hs => ?_
  refine ensures_orFault fun y hy => ?_
  have hrows := (shaped_combine? hy).1
  rw [show (ofLine layer.offsets).rows = 1 from rfl, commonLength_one, hs] at hrows
  exact (Option.some.inj hrows).symm

end Affine

namespace Perceptron

def Leads : List (Affine α) → ℕ → ℕ → Prop
  | [], inputs, outputs => inputs = outputs
  | layer :: layers, inputs, outputs =>
    ∃ width, layer.Fits inputs width ∧ Leads layers width outputs

theorem Leads.run {layers : List (Affine α)} {inputs outputs rows : ℕ}
    (h : Leads layers inputs outputs) (final : Bool) {x : Grid α} (hx : x.Shaped rows inputs) :
    Yields (run final layers x) (·.Shaped rows outputs) := by
  induction layers generalizing x inputs with
  | nil =>
    cases h
    exact yields_pure hx
  | cons layer layers ih =>
    obtain ⟨width, hfit, hrest⟩ := h
    refine (hfit.apply hx).bind fun y hy => ih hrest ?_
    split_ifs
    · exact hy.map _
    · exact hy

/-- The width of what a stack gives, whatever the width of its input is. -/
theorem Leads.ensures_cols {layers : List (Affine α)} {inputs outputs : ℕ} {x : Grid α}
    (hx : layers ≠ [] ∨ x.cols = inputs) (h : Leads layers inputs outputs) (final : Bool) :
    Ensures (Perceptron.run final layers x) (·.cols = outputs) := by
  induction layers generalizing x inputs with
  | nil =>
    cases h
    exact ensures_pure (hx.resolve_left fun hne => hne rfl)
  | cons layer layers ih =>
    obtain ⟨width, hfit, hrest⟩ := h
    refine (hfit.ensures_cols x).bind fun y hy => ih (Or.inr ?_) hrest
    split_ifs <;> exact hy

theorem ensures_rows (p : Perceptron α) (x : Grid α) :
    Ensures (p.apply x) fun y => y.rows = x.rows := by
  rw [apply]
  generalize p.layers = layers
  induction layers generalizing x with
  | nil => exact ensures_pure rfl
  | cons layer layers ih =>
    refine (layer.ensures_rows x).bind fun y hy => ?_
    intro z hz
    have hrows := ih _ z hz
    split_ifs at hrows
    · rwa [rows_map, hy] at hrows
    · rwa [hy] at hrows

end Perceptron

namespace GatedCell

structure Fits (cell : GatedCell α) (width : ℕ) : Prop where
  updateMessage : cell.updateMessage.Fits width width
  updateState : cell.updateState.Fits width width
  resetMessage : cell.resetMessage.Fits width width
  resetState : cell.resetState.Fits width width
  candidateMessage : cell.candidateMessage.Fits width width
  candidateState : cell.candidateState.Fits width width

theorem plus_yields {a b : Grid α} {r c : ℕ} (ha : a.Shaped r c) (hb : b.Shaped r c) :
    Yields (plus a b) (·.Shaped r c) := yields_orFault (ha.combine? hb)

theorem times_yields {a b : Grid α} {r c : ℕ} (ha : a.Shaped r c) (hb : b.Shaped r c) :
    Yields (times a b) (·.Shaped r c) := yields_orFault (ha.combine? hb)

theorem respond_yields {forMessage forState : Affine α} {width rows : ℕ}
    (hm : forMessage.Fits width width) (hs : forState.Fits width width) {message state : Grid α}
    (hmessage : message.Shaped rows width) (hstate : state.Shaped rows width) :
    Yields (respond forMessage forState message state) (·.Shaped rows width) :=
  (hm.apply hmessage).bind fun _ ha => (hs.apply hstate).bind fun _ hb => plus_yields ha hb

theorem Fits.apply {cell : GatedCell α} {width rows : ℕ} (h : cell.Fits width)
    {message state : Grid α} (hm : message.Shaped rows width) (hs : state.Shaped rows width) :
    Yields (cell.apply message state) (·.Shaped rows width) := by
  refine (respond_yields h.updateMessage h.updateState hm hs).bind fun update hu => ?_
  refine (respond_yields h.resetMessage h.resetState hm hs).bind fun reset hr => ?_
  refine (times_yields (hr.map _) hs).bind fun seen hseen => ?_
  refine (respond_yields h.candidateMessage h.candidateState hm hseen).bind fun candidate hc => ?_
  refine (times_yields ((hu.map _).map _) hs).bind fun kept hk => ?_
  exact (times_yields (hu.map _) (hc.map _)).bind fun moved hmoved => plus_yields hk hmoved

omit [Scalar α] in
theorem ensures_rows_combine (f : α → α → α) {a b : Grid α} {r : ℕ} (ha : a.rows = r)
    (hb : b.rows = r) :
    Ensures (orFault .shapesDiffer (a.combine? f b) : Outcome α (Grid α)) (·.rows = r) := by
  refine ensures_orFault fun g hg => ?_
  have hrows := (shaped_combine? hg).1
  rw [ha, hb, commonLength_self] at hrows
  exact (Option.some.inj hrows).symm

theorem ensures_rows_respond (forMessage forState : Affine α) {message state : Grid α} {r : ℕ}
    (hm : message.rows = r) (hs : state.rows = r) :
    Ensures (respond forMessage forState message state) (·.rows = r) := by
  refine (forMessage.ensures_rows message).bind fun a ha => ?_
  refine (forState.ensures_rows state).bind fun b hb => ?_
  exact ensures_rows_combine _ (ha.trans hm) (hb.trans hs)

theorem ensures_rows (cell : GatedCell α) {message state : Grid α} {r : ℕ}
    (hm : message.rows = r) (hs : state.rows = r) :
    Ensures (cell.apply message state) (·.rows = r) := by
  refine (ensures_rows_respond _ _ hm hs).bind fun update hu => ?_
  refine (ensures_rows_respond _ _ hm hs).bind fun reset hr => ?_
  refine (ensures_rows_combine _ ((rows_map _ _).trans hr) hs).bind fun seen hseen => ?_
  refine (ensures_rows_respond _ _ hm hseen).bind fun candidate hc => ?_
  refine (ensures_rows_combine _ ?_ hs).bind fun kept hk => ?_
  · rw [rows_map, rows_map, hu]
  refine (ensures_rows_combine _ ?_ ?_).bind fun moved hmoved => ensures_rows_combine _ hk hmoved
  · rw [rows_map, hu]
  · rw [rows_map, hc]

end GatedCell

end NeuralFlow
