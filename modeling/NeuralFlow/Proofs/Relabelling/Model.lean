import Mathlib
import NeuralFlow.Proofs.Relabelling.Flow
import NeuralFlow.Proofs.Relabelling.Instance
import NeuralFlow.Proofs.Relabelling.Layers
import NeuralFlow.Proofs.Validation

/-! Evaluations do not depend on the names of nodes. In exact arithmetic a model gives a relabelled
instance the relabelled results, and the same costs, bounds and residuals. -/

namespace NeuralFlow

open EdgeMatrix LawfulBacking

variable {n : ℕ} {π : Relabelling n} {M : Type → Type} [EdgeMatrix M] [ExactBacking M] {K : Type}
  [ExactScalar K] {i j : FlowInstance M K}

structure EvaluationsRelabelled (π : Relabelling n) (e f : FlowModel.Evaluation M K) : Prop where
  flow : RelabelledFlow π e.flow f.flow
  weights : RelabelledFlow π e.weights f.weights
  cost : e.cost = f.cost
  bound : e.bound = f.bound
  dualFlow : RelabelledFlow π e.dualFlow f.dualFlow
  potentials : π.Moves e.potentials f.potentials
  nodes : FlowModel.NodeState.Moves π e.nodes f.nodes
  scores : π.Moves e.scores f.scores
  residual : e.residual = f.residual

namespace FlowModel

theorem moves_encodeRounds (m : FlowModel K) (rounds : ℕ) (h : InstancesRelabelled π i j) :
    Agree (NodeState.Moves π) (m.encodeRounds rounds i) (m.encodeRounds rounds j) := by
  have hsize : i.hops.size = j.hops.size := h.hops.length_eq
  have hembeddings := h.embeddings
  have hfeatures := h.features
  rw [Relabelling.movesLines_eq] at hembeddings hfeatures
  rw [encodeRounds, encodeRounds, h.numNodes.1, h.numNodes.2, hsize, NodeState.moves_eq]
  refine (aligned_nodeInputs hembeddings hfeatures).bind fun inputs inputs' hinputs => ?_
  refine (Perceptron.aligned_run _ _ hinputs).bind fun encoding encoding' hencoding => ?_
  refine Agree.iterate (fun s t hst => ?_) rounds ⟨hencoding, .zeros _⟩
  exact m.aligned_round (fun _ _ huv => huv)
    (h.hops.imp fun _ _ => HopAttention.carriesHeads_relabelled) hst.encoding

theorem relabelled_evaluate (m : FlowModel K) (h : InstancesRelabelled π i j)
    (hi : i.Accepted m.settings) :
    Agree (EvaluationsRelabelled π) (m.evaluate i) (m.evaluate j) := by
  have hcheck : i.check m.settings = .ok () := FlowInstance.check_eq_ok_iff.2 hi
  have hcheck' : j.check m.settings = .ok () := FlowInstance.check_eq_ok_iff.2 (h.accepted hi)
  rw [evaluate, evaluate, hcheck, hcheck', ok_bind, ok_bind]
  refine (moves_encodeRounds m _ h).bind fun nodes nodes' hnodes => ?_
  refine (moves_decode _ hnodes.encoding).bind fun scores scores' hscores => ?_
  refine (WeightRule.relabelled_weights _ h.adjacency hscores).bind fun weights weights' hweights => ?_
  refine (Redistribution.relabelled_solve _ hweights h.demands).bind fun primal primal' hprimal => ?_
  refine (relabelled_cancel _ hprimal.1).bind fun flow flow' hflow => ?_
  refine (relabelled_price _ (fun huse => ?_) hflow).bind fun priced priced' hpriced => ?_
  · obtain ⟨a, b, ha, hb, hab, -⟩ := h.capacities_of_used hi huse
    exact ⟨a, b, ha, hb, hab⟩
  refine (moves_decode _ hnodes.encoding).bind fun initial initial' hinitial => ?_
  refine (DualAscent.relabelled_solve _ h.adjacency h.demands hinitial).bind
    fun dual dual' hdual => .ok ?_
  exact {
    flow := hpriced.1
    weights := hweights
    cost := hpriced.2
    bound := hdual.2.2
    dualFlow := hdual.2.1
    potentials := hdual.1
    nodes := hnodes
    scores := hscores
    residual := hprimal.2 }

/-- Every instance with hops built from its graph can be relabelled by every permutation of its nodes.
What passes its checks still passes them, the hops of the relabelled graph are the relabelled hops,
and a model evaluates both instances or none: weights, flows, potentials, scores, encodings and
proportions of hops are moved along, and cost, bound and residual are the same. A drawn model
does evaluate both. -/
theorem evaluate_relabelled (m : FlowModel K) (rule : HopRule) {i : FlowInstance M K}
    (hb : i.Built rule) (hcheck : i.check m.settings = .ok ()) (π : Relabelling i.numNodes) :
    (∃ j, j.Built rule ∧ InstancesRelabelled π i j) ∧
    ∀ j, InstancesRelabelled π i j →
      j.check m.settings = .ok () ∧
      (∃ hops, rule.build j.adjacency = .ok hops ∧
        List.Forall₂ (Relabelled π) i.hops.hops hops.hops) ∧
      Agree (EvaluationsRelabelled π) (m.evaluate i) (m.evaluate j) ∧
      (m.Drawn m.settings → ∃ e f, m.evaluate i = .ok e ∧
        m.evaluate j = .ok f ∧ EvaluationsRelabelled π e f) := by
  have hi := FlowInstance.check_eq_ok_iff.1 hcheck
  refine ⟨exists_instancesRelabelled hb hi π, fun j h => ?_⟩
  have hagree := m.relabelled_evaluate h hi
  refine ⟨FlowInstance.check_eq_ok_iff.2 (h.accepted hi), ?_, hagree, fun hdrawn => ?_⟩
  · obtain ⟨s, hs, t, ht, hhops⟩ := h.adjacency.build rfl rule
    obtain rfl : i.hops = s := Except.ok.inj (hb.hops.symm.trans hs)
    exact ⟨t, ht, hhops⟩
  · obtain ⟨hon, hn⟩ := rule.onNodes_build i.hops hb.hops
    obtain ⟨e, he, -⟩ :=
      evaluate_yields hdrawn hb.adjacency (hn.symm ▸ hon) hb.capacities hcheck
    rw [he] at hagree
    generalize m.evaluate j = result at hagree ⊢
    cases hagree with
    | ok hef => exact ⟨e, _, he, rfl, hef⟩

def exchangeNodes : Relabelling 2 := .ofPerm (Equiv.swap 0 1)

theorem exchangeNodes_apply : exchangeNodes 0 = 1 ∧ exchangeNodes 1 = 0 :=
  ⟨Relabelling.ofPerm_apply _ 0, Relabelling.ofPerm_apply _ 1⟩

theorem relabelled_exchange (x y : ℝ) :
    Relabelled exchangeNodes (SparseMatrix.exchange x y) (SparseMatrix.exchange y x) where
  square := ⟨SparseMatrix.square_exchange x y, SparseMatrix.square_exchange y x⟩
  nodes := ⟨rfl, rfl⟩
  edges := by
    simp only [SparseMatrix.edges_exchange, List.map_cons, List.map_nil, Edge.relabel,
      exchangeNodes_apply.1, exchangeNodes_apply.2]
    exact List.Perm.swap _ _ _

theorem moves_exchange (x y : ℝ) : exchangeNodes.Moves [x, y] [y, x] where
  length_left := rfl
  length_right := rfl
  getElem? u hu := by
    interval_cases u
    · rw [exchangeNodes_apply.1]
      rfl
    · rw [exchangeNodes_apply.2]
      rfl

noncomputable def exchangeInstance (hops : HopSet SparseMatrix ℝ) (demands : List ℝ) (x y : ℝ) :
    FlowInstance SparseMatrix ℝ where
  adjacency := .exchange 1 1
  demands
  hops
  embeddings := .ofColumns 2 [demands]
  features := .zeros 2 1
  capacities := some (.exchange x y)

theorem exchangeInstance_relabelled {rule : HopRule} {hops : HopSet SparseMatrix ℝ}
    (h : rule.build (SparseMatrix.exchange (1 : ℝ) 1) = .ok hops) (d d' x y : ℝ) :
    InstancesRelabelled exchangeNodes (exchangeInstance hops [d, d'] x y)
      (exchangeInstance hops [d', d] y x) where
  adjacency := relabelled_exchange 1 1
  demands := moves_exchange d d'
  hops := by
    obtain ⟨s, hs, t, ht, hst⟩ := (relabelled_exchange 1 1).build rfl rule
    obtain rfl : hops = s := Except.ok.inj (h.symm.trans hs)
    obtain rfl : hops = t := Except.ok.inj (h.symm.trans ht)
    exact hst
  embeddings := .ofColumns (.cons (moves_exchange d d') .nil)
  features := Relabelling.movesLines_zeros 1
  capacities := .some fun _ => relabelled_exchange x y

theorem exchangeInstance_accepted {hops : HopSet SparseMatrix ℝ}
    (h : HopRule.build ⟨1, true⟩ (SparseMatrix.exchange (1 : ℝ) 1) = .ok hops) {d d' x y : ℝ}
    (hx : 0 < x) (hy : 0 < y) :
    (exchangeInstance hops [d, d'] x y).Accepted smallSettings where
  demands := rfl
  hops := (HopRule.onNodes_build _ hops h).2
  embeddings := Grid.shaped_ofColumns 2 _
  features := Grid.shaped_zeros 2 1
  capacities _ := by
    refine ⟨_, rfl, (samePattern_iff (SparseMatrix.square_exchange x y)
      (SparseMatrix.square_exchange 1 1)).2 ⟨rfl, ?_⟩⟩
    simp [pattern]
  backing := rfl
  size := by
    obtain ⟨s, hs, hsize, -⟩ := HopRule.build_isHop rfl ⟨1, true⟩ (SparseMatrix.square_exchange (1 : ℝ) 1)
    obtain rfl : hops = s := Except.ok.inj (h.symm.trans hs)
    exact ⟨2, rfl, hsize⟩
  positive _ capacities hcap := by
    cases hcap
    simp [hx, hy]

theorem evaluate_relabelled_exchange :
    ∃ (m : FlowModel ℝ) (hops : HopSet SparseMatrix ℝ), draw (pure 1) smallSettings () = .ok m ∧
      HopRule.build ⟨1, true⟩ (SparseMatrix.exchange (1 : ℝ) 1) = .ok hops ∧
      (exchangeInstance hops [1, -1] 1.5 2).check smallSettings = .ok () ∧
      ∃ e f, m.evaluate (exchangeInstance hops [1, -1] 1.5 2) = .ok e ∧
        m.evaluate (exchangeInstance hops [-1, 1] 2 1.5) = .ok f ∧
        EvaluationsRelabelled exchangeNodes e f := by
  obtain ⟨m, hm, hdrawn⟩ := draw_yields (pure 1) smallSettings_valid smallSettings_headsFit ()
  obtain ⟨hops, hhops, -⟩ :=
    HopRule.build_isHop rfl ⟨1, true⟩ (SparseMatrix.square_exchange (1 : ℝ) 1)
  have hb : (exchangeInstance hops [1, -1] 1.5 2).Built ⟨1, true⟩ := {
    adjacency := SparseMatrix.square_exchange 1 1
    hops := hhops
    capacities := by
      rintro _ ⟨⟩
      exact SparseMatrix.square_exchange 1.5 2 }
  have hcheck : (exchangeInstance hops [1, -1] 1.5 2).check smallSettings = .ok () :=
    FlowInstance.check_eq_ok_iff.2
      (exchangeInstance_accepted hhops (by norm_num) (by norm_num))
  refine ⟨m, hops, hm, hhops, hcheck, ?_⟩
  have hsettings := hdrawn.settings_eq
  obtain ⟨-, -, -, heval⟩ := (evaluate_relabelled m ⟨1, true⟩ hb (hsettings.symm ▸ hcheck)
    exchangeNodes).2 _ (exchangeInstance_relabelled hhops 1 (-1) 1.5 2)
  exact heval (hsettings.symm ▸ hdrawn)

end FlowModel

end NeuralFlow
