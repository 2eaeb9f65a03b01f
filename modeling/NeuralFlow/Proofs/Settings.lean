import Mathlib
import NeuralFlow.Settings
import NeuralFlow.Proofs.Outcome

/-! What the checks of settings accept. -/

namespace NeuralFlow.Settings

variable {α : Type} [Scalar α]

structure Valid (c : Settings α) : Prop where
  positive : ∃ inputWidth, c.inputWidth = .ok inputWidth ∧
    ∀ size ∈ c.positiveSizes inputWidth, size.2 ≠ 0
  hidden : 0 ∉ c.encoderHidden ++ c.decoderHidden
  heads : c.headMerge = .concat → c.encodingWidth % c.heads = 0
  step : Scalar.isFinite c.dualStep = true ∧ 0 < c.dualStep
  momentum : 0 ≤ c.dualMomentum ∧ c.dualMomentum < 1
  epsilon : 0 < c.epsilon ∧ c.epsilon < 1
  cost : c.cost.validate = .ok ()

/-- Settings pass their checks exactly if they meet all conditions. -/
theorem validate_eq_ok_iff (c : Settings α) : c.validate = .ok () ↔ c.Valid := by
  unfold validate
  cases hinput : c.inputWidth with
  | error e =>
    refine ⟨nofun, fun h => ?_⟩
    obtain ⟨_, hw, -⟩ := h.positive
    cases hinput.symm.trans hw
  | ok inputWidth =>
    rw [ok_bind]
    cases hfind : (c.positiveSizes inputWidth).find? fun size => size.2 == 0 with
    | some size =>
      have hzero := List.find?_some hfind
      have hmem := List.mem_of_find?_eq_some hfind
      refine ⟨nofun, fun h => ?_⟩
      obtain ⟨_, hw, hpositive⟩ := h.positive
      cases hinput.symm.trans hw
      exact (hpositive size hmem (eq_of_beq hzero)).elim
    | none =>
      have hpositive : ∀ size ∈ c.positiveSizes inputWidth, size.2 ≠ 0 := by simpa using hfind
      simp only [bind, Except.bind, throw, throwThe, MonadExceptOf.throw]
      split_ifs with hhidden hheads hstep hmomentum hepsilon
      · exact ⟨nofun, fun h => (h.hidden (by simpa using hhidden)).elim⟩
      · exact ⟨nofun, fun h => (hheads.2 (h.heads hheads.1)).elim⟩
      · exact ⟨nofun, fun h => by simp [h.step] at hstep⟩
      · exact ⟨nofun, fun h => by simp [h.momentum] at hmomentum⟩
      · exact ⟨nofun, fun h => by simp [h.epsilon] at hepsilon⟩
      · refine ⟨fun hcost => ⟨⟨inputWidth, hinput, hpositive⟩, ?_, ?_, ?_, ?_, ?_, hcost⟩,
          fun h => h.cost⟩
        · simpa using hhidden
        · exact fun hmerge => by_contra fun hne => hheads ⟨hmerge, hne⟩
        · simpa using hstep
        · simpa using hmomentum
        · simpa using hepsilon

end NeuralFlow.Settings
