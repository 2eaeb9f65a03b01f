import Mathlib
import NeuralFlow.Proofs.Backing.Sparse
import NeuralFlow.Proofs.FlowModel

/-! The checks of an instance are complete: what passes them is evaluated by every model. Valid settings
have a model unless the heads that are averaged are together too wide for a word. -/

namespace NeuralFlow

open EdgeMatrix LawfulBacking

/-- Put together from square matrices, with hops that were built or given as a set. -/
structure FlowInstance.Assembled {M : Type → Type} [EdgeMatrix M] [LawfulBacking M] {α : Type}
    [Scalar α] (i : FlowInstance M α) : Prop where
  adjacency : Square i.adjacency
  hops : (∃ (rule : HopRule) (graph : M α), rule.build graph = .ok i.hops) ∨
    ∃ hops : List (M α), (∀ hop ∈ hops, Square hop) ∧ HopSet.ofHops hops = .ok i.hops
  capacities : ∀ capacities, i.capacities = some capacities → Square capacities

theorem FlowInstance.Assembled.onNodes {M : Type → Type} [EdgeMatrix M] [LawfulBacking M]
    {α : Type} [Scalar α] {i : FlowInstance M α} (h : i.Assembled) :
    i.hops.OnNodes i.hops.numNodes := by
  rcases h.hops with ⟨rule, graph, hbuild⟩ | ⟨hops, hsquare, hset⟩
  · obtain ⟨hon, hn⟩ := rule.onNodes_build i.hops hbuild
    rwa [hn]
  · exact HopSet.onNodes_ofHops hsquare hset

namespace FlowModel

/-- A model of valid settings fails on exactly the instances that fail their checks, with the same error.
There is a model if averaged heads fit into a word; if not, drawing one is a fault. -/
theorem evaluate_error_iff_check_error {M : Type → Type} [EdgeMatrix M] [LawfulBacking M]
    {α : Type} [Scalar α] {c : Settings α} (hc : c.validate = .ok ()) {σ : Type}
    (next : StateM σ α) (source : σ) {i : FlowInstance M α} (hi : i.Assembled) :
    (c.HeadsFit → ∃ m, draw next c source = .ok m ∧
      ∀ e, m.evaluate i = .error e ↔ i.check c = .error e) ∧
    (¬ c.HeadsFit → draw next c source = .error (.fault .overflow)) := by
  refine ⟨fun hfit => ?_, fun hfit => draw_overflows next hc hfit source⟩
  obtain ⟨m, hm, hdrawn⟩ := draw_yields next hc hfit source
  refine ⟨m, hm, fun e => ?_⟩
  cases hcheck : i.check c with
  | ok =>
    obtain ⟨r, hr, -⟩ := evaluate_yields hdrawn hi.adjacency hi.onNodes hi.capacities hcheck
    rw [hr]
    exact ⟨nofun, nofun⟩
  | error err =>
    rw [evaluate, hdrawn.settings_eq, hcheck, error_bind, Except.error.injEq, Except.error.injEq]

noncomputable def smallSettings : Settings ℝ where
  sparse := true
  rounds := 1
  heads := 3
  headMerge := .average
  encodingWidth := 2
  encoderHidden := [2]
  decoderHidden := []
  embeddingWidth := 1
  featureWidth := 1
  maxHop := 1
  distinctHops := true
  flowRounds := 2
  dualRounds := 2
  dualStep := 1
  dualMomentum := 0
  useSparsemax := false
  epsilon := 0.5
  pairing := .product
  useCapacities := true
  cancelReciprocal := true
  cost := ⟨.quadratic, 1⟩
  seed := 0

theorem smallSettings_valid : smallSettings.validate = .ok () := by
  have hwidth : smallSettings.inputWidth = .ok 2 := rfl
  have hsizes : ((smallSettings.positiveSizes 2).find? fun size => size.2 == 0) = none := rfl
  have hpos : (0 : ℝ) < 0.5 := by norm_num
  have hlt : (0.5 : ℝ) < 1 := by norm_num
  have hone : ¬ (1 : ℝ) ≤ 0 := by norm_num
  rw [Settings.validate, hwidth, ok_bind, hsizes]
  simp [smallSettings, CostFunction.validate, hpos, hlt, hone]

theorem smallSettings_headsFit : smallSettings.HeadsFit := fun _ => by decide

/-- The identity can be hop zero of a set. -/
theorem isIdentity_identity {α : Type} [Scalar α] (n : ℕ) :
    HopSet.isIdentity (SparseMatrix.identity n : SparseMatrix α) = true := by
  refine (HopSet.isIdentity_iff (SparseMatrix.square_identity n)).2 fun u v => ?_
  rw [SparseMatrix.pattern_identity]
  exact mem_diagonal

noncomputable def smallInstance : FlowInstance SparseMatrix ℝ where
  adjacency := .exchange 1 1
  demands := [1, -1]
  hops := ⟨[.identity 2, .exchange 1 1]⟩
  embeddings := .zeros 2 1
  features := .zeros 2 1
  capacities := some (.exchange 1.5 1.5)

theorem smallInstance_assembled : smallInstance.Assembled where
  adjacency := SparseMatrix.square_exchange 1 1
  hops := Or.inr ⟨[.identity 2, .exchange 1 1], by
    simp [SparseMatrix.square_identity, SparseMatrix.square_exchange], by
    rw [HopSet.ofHops, isIdentity_identity]
    rfl⟩
  capacities := by
    rintro _ ⟨⟩
    exact SparseMatrix.square_exchange 1.5 1.5

theorem evaluate_error_iff_check_error_small :
    smallSettings.validate = .ok () ∧ smallSettings.HeadsFit ∧
      ∃ m, draw (pure 1) smallSettings () = .ok m ∧
        ∀ e, m.evaluate smallInstance = .error e ↔ smallInstance.check smallSettings = .error e :=
  ⟨smallSettings_valid, smallSettings_headsFit,
    (evaluate_error_iff_check_error smallSettings_valid (pure 1) () smallInstance_assembled).1
      smallSettings_headsFit⟩

end FlowModel

end NeuralFlow
