import Mathlib
import NeuralFlow.Proofs.Agreement
import NeuralFlow.Proofs.Backing.Dense
import NeuralFlow.Proofs.Backing.Sparse
import NeuralFlow.Proofs.FinalFlow

/-! A model does not depend on its backing. The same data make instances that are alike in both
backings, the same samples make the same layers, and evaluations in exact arithmetic agree. -/

namespace NeuralFlow

open EdgeMatrix

/-- The data of an instance before a backing is chosen. The hops are built by a rule or given. -/
structure InstanceData (α : Type) where
  nodes : ℕ
  edges : List (Edge α)
  demands : List α
  hops : HopRule ⊕ List (ℕ × List (Edge α))
  embeddings : Grid α
  features : Grid α
  capacities : Option (ℕ × List (Edge α))

namespace InstanceData

variable {M N : Type → Type} [EdgeMatrix M] [EdgeMatrix N] {α : Type} [Scalar α]

def makeHops (d : InstanceData α) (adjacency : M α) : Outcome α (HopSet M α) :=
  match d.hops with
  | .inl rule => rule.build adjacency
  | .inr hops => do HopSet.ofHops (← hops.mapM fun hop => ofEdges hop.1 hop.2)

def makeCapacities (d : InstanceData α) : Outcome α (Option (M α)) :=
  match d.capacities with
  | none => .ok none
  | some (n, es) => do return some (← ofEdges n es)

def assemble (d : InstanceData α) : Outcome α (FlowInstance M α) := do
  let adjacency ← ofEdges d.nodes d.edges
  let hops ← d.makeHops adjacency
  let capacities ← d.makeCapacities
  return {
    adjacency, hops, capacities
    demands := d.demands
    embeddings := d.embeddings
    features := d.features }

variable [LawfulBacking M] [LawfulBacking N]

theorem agree_makeHops (d : InstanceData α) {a : M α} {b : N α} (h : Alike a b) :
    Agree (fun s t => HopsAlike s.numNodes s t) (d.makeHops a) (d.makeHops b) := by
  unfold makeHops
  cases d.hops with
  | inl rule => exact agree_build rule h
  | inr hops =>
    have hbuilt : ∀ hop : ℕ × List (Edge α), Agree Alike
        (ofEdges hop.1 hop.2 : Outcome α (M α)) (ofEdges hop.1 hop.2 : Outcome α (N α)) :=
      fun hop => (agree_ofEdges hop.1 hop.2).mono fun _ _ hab => hab.2
    exact (Agree.mapM_same hops hbuilt).bind fun s t hst => agree_ofHops hst

theorem agree_makeCapacities (d : InstanceData α) :
    Agree (Option.Rel Alike) (d.makeCapacities : Outcome α (Option (M α)))
      (d.makeCapacities : Outcome α (Option (N α))) := by
  unfold makeCapacities
  cases d.capacities with
  | none => exact .ok .none
  | some c => exact (agree_ofEdges c.1 c.2).bind fun _ _ hab => .ok (.some hab.2)

end InstanceData

variable {K : Type} [ExactScalar K]

theorem InstanceData.agree_assemble {M N : Type → Type} [EdgeMatrix M] [ExactBacking M]
    [EdgeMatrix N] [ExactBacking N] (d : InstanceData K) :
    Agree InstancesAlike (d.assemble : Outcome K (FlowInstance M K))
      (d.assemble : Outcome K (FlowInstance N K)) :=
  (agree_ofEdges d.nodes d.edges).bind fun _ _ ha =>
    (d.agree_makeHops ha.2).bind fun _ _ hh => d.agree_makeCapacities.bind fun _ _ hc =>
      .ok ⟨ha.2, rfl, hh, rfl, rfl, hc⟩

namespace FlowModel

/-- Models with the same layers and settings up to the backing. -/
def SameLayers (s t : Bool) (m m' : FlowModel K) : Prop :=
  ∃ layers : FlowModel K, m = layers.withBacking s ∧ m' = layers.withBacking t

/-- Drawing a model does not look at the backing. -/
theorem agree_draw {σ : Type} (next : StateM σ K) (c : Settings K) (source : σ) (s t : Bool) :
    Agree (SameLayers s t) (draw next (c.withBacking s) source)
      (draw next (c.withBacking t) source) := by
  have hdrawn : ∀ {m m' : FlowModel K}, m.withBacking s = m → m.withBacking t = m' →
      Agree (SameLayers s t) (.ok m : Outcome K (FlowModel K)) (.ok m') :=
    fun hm hm' => .ok ⟨_, hm.symm, hm'.symm⟩
  refine (Agree.refl (c.withBacking s).validate).bind fun _ _ _ => ?_
  refine (Agree.refl (c.withBacking s).inputWidth).bind fun inputs inputs' hinputs => ?_
  subst hinputs
  refine (Agree.refl _).bind fun attention attention' hattention => ?_
  subst hattention
  exact hdrawn rfl rfl

/-- Dense and sparse models with the same layers, given or drawn from the same source, say the same about
the same data, or both fail. -/
theorem dense_sparse_agree (d : InstanceData K) :
    (∀ m : FlowModel K, Agree
      (fun (i : FlowInstance DenseMatrix K) (j : FlowInstance SparseMatrix K) =>
        Agree EvaluationsAgree ((m.withBacking false).evaluate i) ((m.withBacking true).evaluate j))
      d.assemble d.assemble) ∧
    ∀ {σ : Type} (next : StateM σ K) (c : Settings K) (source : σ), Agree
      (fun m m' => Agree
        (fun (i : FlowInstance DenseMatrix K) (j : FlowInstance SparseMatrix K) =>
          Agree EvaluationsAgree (m.evaluate i) (m'.evaluate j))
        d.assemble d.assemble)
      (draw next (c.withBacking false) source) (draw next (c.withBacking true) source) := by
  have hagree : ∀ m : FlowModel K, Agree
      (fun (i : FlowInstance DenseMatrix K) (j : FlowInstance SparseMatrix K) =>
        Agree EvaluationsAgree ((m.withBacking false).evaluate i) ((m.withBacking true).evaluate j))
      d.assemble d.assemble :=
    fun m => d.agree_assemble.mono fun i j h => m.agree_evaluate h rfl rfl
  refine ⟨hagree, fun next c source => (agree_draw next c source false true).mono ?_⟩
  rintro m m' ⟨layers, rfl, rfl⟩
  exact hagree layers

noncomputable def smallData : InstanceData ℝ where
  nodes := 2
  edges := [⟨1, 0, 1⟩, ⟨0, 1, 1⟩]
  demands := [1, -1]
  hops := .inr [(2, [⟨0, 0, 1⟩, ⟨1, 1, 1⟩]), (2, [⟨0, 1, 1⟩, ⟨1, 0, 1⟩])]
  embeddings := .zeros 2 1
  features := .zeros 2 1
  capacities := some (2, [⟨0, 1, 1.5⟩, ⟨1, 0, 1.5⟩])

theorem ofEdges_exchange (x y : ℝ) :
    (ofEdges 2 [⟨0, 1, x⟩, ⟨1, 0, y⟩] : Outcome ℝ (SparseMatrix ℝ)) = .ok (.exchange x y) :=
  SparseMatrix.ofEdges_ok (by simp [Edge.Fits])

theorem assemble_smallData : smallData.assemble = .ok smallInstance := by
  have hgraph : ofEdges smallData.nodes smallData.edges =
      (.ok (.exchange 1 1) : Outcome ℝ (SparseMatrix ℝ)) :=
    SparseMatrix.ofEdges_ok (by simp [smallData, Edge.Fits])
  have hself : ofEdges 2 [⟨0, 0, 1⟩, ⟨1, 1, 1⟩] =
      (.ok (.identity 2) : Outcome ℝ (SparseMatrix ℝ)) :=
    SparseMatrix.ofEdges_ok (by simp [Edge.Fits])
  have hhops : smallData.makeHops (SparseMatrix.exchange (1 : ℝ) 1) = .ok smallInstance.hops := by
    change ([(2, _), (2, _)].mapM _ >>= HopSet.ofHops) = _
    simp only [List.mapM_cons, List.mapM_nil, hself, ofEdges_exchange, ok_bind, pure, Except.pure]
    rw [HopSet.ofHops, isIdentity_identity]
    rfl
  have hcapacities : smallData.makeCapacities =
      (.ok smallInstance.capacities : Outcome ℝ (Option (SparseMatrix ℝ))) := by
    change (ofEdges 2 _ >>= _) = _
    rw [ofEdges_exchange]
    rfl
  rw [InstanceData.assemble, hgraph, ok_bind, hhops, ok_bind, hcapacities]
  rfl

/-- The small instance is evaluated in both backings. -/
theorem dense_sparse_agree_small :
    ∃ (m m' : FlowModel ℝ) (i : FlowInstance DenseMatrix ℝ) (j : FlowInstance SparseMatrix ℝ)
      (e : Evaluation DenseMatrix ℝ) (f : Evaluation SparseMatrix ℝ),
      draw (pure 1) (smallSettings.withBacking false) () = .ok m ∧
      draw (pure 1) (smallSettings.withBacking true) () = .ok m' ∧
      smallData.assemble = .ok i ∧ smallData.assemble = .ok j ∧
      m.evaluate i = .ok e ∧ m'.evaluate j = .ok f ∧ EvaluationsAgree e f := by
  obtain ⟨m', hm', hdrawn⟩ := draw_yields (pure 1) smallSettings_valid smallSettings_headsFit ()
  obtain ⟨f, hf, -⟩ := evaluate_yields hdrawn
    smallInstance_assembled.adjacency smallInstance_assembled.onNodes
    smallInstance_assembled.capacities (FlowInstance.check_eq_ok_iff.2 smallInstance_accepted)
  -- what succeeds with sparse matrices succeeds with dense ones
  obtain ⟨m, hm, hinstances⟩ :=
    ((dense_sparse_agree smallData).2 (pure 1) smallSettings ()).yields_left hm'
  obtain ⟨i, hi, hevaluations⟩ := hinstances.yields_left assemble_smallData
  obtain ⟨e, he, hagree⟩ := hevaluations.yields_left hf
  exact ⟨m, m', i, smallInstance, e, f, hm, hm', hi, assemble_smallData, he, hf, hagree⟩

end FlowModel

end NeuralFlow
