import Mathlib
import NeuralFlow.Proofs.Validation

/-! Sizes in words. In valid settings the width of the inputs is a word, and so is the width of joined
heads. Averaged heads may be too wide and hops too many: then there is no model, or no instance that it
evaluates. -/

namespace NeuralFlow

open EdgeMatrix LawfulBacking

variable {α : Type} [Scalar α]

/-- No instance passes its checks where the hops cannot be counted. -/
theorem FlowInstance.check_fails {M : Type → Type} [EdgeMatrix M] {c : Settings α}
    (h : ¬ c.maxHop.toNat + 1 < UInt64.size) (i : FlowInstance M α) :
    ∃ e, i.check c = .error e := by
  refine Ensures.exists_error fun _ hok => ?_
  obtain ⟨hopCount, hcount, -⟩ := i.ensures_size c () hok
  cases hcount.symm.trans (wordSize_overflows h)

namespace FlowModel

/-- What becomes of the sizes of valid settings. The width of the inputs and that of joined heads are
words, and exact. The number of hops and the width of averaged heads are exact or a fault. If the heads
are a fault there is no model; otherwise there is one, and it evaluates what passes the checks, which is
nothing if the hops are a fault. -/
theorem sizes_of_valid {c : Settings α} (hc : c.validate = .ok ()) {σ : Type}
    (next : StateM σ α) (source : σ) :
    Yields c.inputWidth (·.toNat = c.embeddingWidth.toNat + c.featureWidth.toNat) ∧
    (if c.maxHop.toNat + 1 < UInt64.size then Yields c.hopCount (·.toNat = c.maxHop.toNat + 1)
      else c.hopCount = .error (.fault .overflow)) ∧
    (∃ headWidth,
      HopAttention.headWidthFor (α := α) c.encodingWidth c.heads c.headMerge = .ok headWidth ∧
      (c.headMerge = .concat → c.HeadsFit ∧
        c.heads.toNat * headWidth.toNat = c.encodingWidth.toNat) ∧
      (c.HeadsFit → Yields (HopAttention.projectionWidth (α := α) c.heads headWidth)
        (·.toNat = c.heads.toNat * headWidth.toNat)) ∧
      (¬ c.HeadsFit →
        HopAttention.projectionWidth (α := α) c.heads headWidth = .error (.fault .overflow))) ∧
    (¬ c.HeadsFit → draw next c source = .error (.fault .overflow)) ∧
    (c.HeadsFit → ∃ m, draw next c source = .ok m ∧
      ∀ {M : Type → Type} [EdgeMatrix M] [LawfulBacking M] {i : FlowInstance M α}, i.Assembled →
        (i.check c = .ok () → ∃ e, m.evaluate i = .ok e) ∧
        (¬ c.maxHop.toNat + 1 < UInt64.size →
          ∃ e, i.check c = .error e ∧ m.evaluate i = .error e)) := by
  refine ⟨?_, ?_, ?_, fun hfit => draw_overflows next hc hfit source, fun hfit => ?_⟩
  · obtain ⟨inputWidth, hw, -⟩ := (c.validate_eq_ok_iff.1 hc).positive
    exact ⟨inputWidth, hw, wordSize_eq_ok_iff.1 hw⟩
  · split_ifs with hlt
    · exact wordSize_yields hlt
    · exact wordSize_overflows hlt
  · obtain ⟨headWidth, hw, hjoined, hroom⟩ := Settings.headWidthFor_yields hc
    refine ⟨headWidth, hw, fun hmerge => ⟨fun haverage => ?_, hjoined hmerge⟩, fun hfit => ?_,
      fun hfit => ?_⟩
    · cases hmerge.symm.trans haverage
    · exact wordSize_yields (hroom.2 hfit)
    · exact wordSize_overflows fun hlt => hfit (hroom.1 hlt)
  · obtain ⟨m, hm, hdrawn⟩ := draw_yields next hc hfit source
    refine ⟨m, hm, fun {M} _ _ {i} hi => ⟨fun hcheck => ?_, fun hmany => ?_⟩⟩
    · obtain ⟨e, he, -⟩ := evaluate_yields hdrawn hi.adjacency hi.onNodes hi.capacities hcheck
      exact ⟨e, he⟩
    · obtain ⟨e, he⟩ := i.check_fails hmany
      refine ⟨e, he, ?_⟩
      rw [evaluate, hdrawn.settings_eq, he, error_bind]

noncomputable def vastSettings : Settings ℝ :=
  { smallSettings with heads := 9223372036854775808, maxHop := 18446744073709551615 }

/-- No check looks at the number of heads beyond zero, or at the hops. -/
theorem vastSettings_valid : vastSettings.validate = .ok () :=
  (Settings.validate_eq_ok_iff _).2
    { (Settings.validate_eq_ok_iff _).1 smallSettings_valid with
      positive := ⟨2, rfl, by decide⟩
      heads := nofun }

theorem sizes_of_valid_vast :
    vastSettings.validate = .ok () ∧ vastSettings.hopCount = .error (.fault .overflow) ∧
      ¬ vastSettings.HeadsFit ∧ draw (pure 1) vastSettings () = .error (.fault .overflow) := by
  obtain ⟨-, hhops, -, hdraw, -⟩ := sizes_of_valid vastSettings_valid (pure 1) ()
  have hmany : ¬ vastSettings.maxHop.toNat + 1 < UInt64.size := by decide
  have hwide : ¬ vastSettings.HeadsFit := fun h => absurd (h rfl) (by decide)
  rw [if_neg hmany] at hhops
  exact ⟨vastSettings_valid, hhops, hwide, hdraw hwide⟩

end FlowModel

end NeuralFlow
