import Mathlib
import NeuralFlow.Proofs.FlowModel

/-! The stages of a model on matrices that are alike. In exact arithmetic each stage fails on both
backings or gives results that are alike, so whole evaluations do. -/

namespace NeuralFlow

open EdgeMatrix Grid

variable {M N : Type → Type} [EdgeMatrix M] [ExactBacking M] [EdgeMatrix N] [ExactBacking N]
  {K : Type} [ExactScalar K]

/-! Message passing. -/

namespace HopAttention

omit [ExactScalar K] in
theorem ensures_rows_head (p : Projections K) (lo hi : ℕ) :
    Ensures (p.head lo hi) (·.value.rows = p.value.rows) :=
  (ensures_all _).bind fun _ _ => (ensures_all _).bind fun _ _ =>
    (ensures_orFault fun _ => rows_columns?).bind fun _ hvalue => ensures_pure hvalue

theorem ensures_rows_project (a : HopAttention K) (x : Grid K) :
    Ensures (a.project x) (·.value.rows = x.rows) :=
  (ensures_all _).bind fun _ _ => (ensures_all _).bind fun _ _ =>
    (a.value.ensures_rows x).bind fun _ hvalue => ensures_pure hvalue

theorem ensures_rows_mix (shares : Grid K) (nodes width : ℕ) (messages : List (Grid K)) :
    Ensures (mix shares nodes width messages) (·.rows = nodes) := by
  have hsum : Ensures (messages.zipIdx.foldlM (addHop shares) (.zeros nodes width))
      (·.rows = nodes) := by
    refine Ensures.foldlM (P := fun g : Grid K => g.rows = nodes) (fun sum hop hsum => ?_)
      (shaped_zeros nodes width).rows_eq
    refine (ensures_all _).bind fun _ _ => (ensures_all _).bind fun _ _ => ?_
    exact ensures_orFault fun _ hg => (shaped_update? hg).rows_eq.trans hsum
  exact hsum.bind fun sum h => ensures_pure ((rows_map _ _).trans h)

theorem agree_headMessage (a : HopAttention K) {hop : M K} {hop' : N K} (h : Alike hop hop')
    {p : Projections K} (hp : p.value.rows = numNodes hop) (head : ℕ) :
    Agree Eq (a.headMessage hop p head) (a.headMessage hop' p head) := by
  refine (Agree.self (ensures_rows_head p _ _)).bind fun own own' hown => ?_
  obtain ⟨rfl, hrows⟩ := hown
  refine (h.withValuesM _).bind fun raw raw' hraw => ?_
  have hweights := hraw.1.mapRows fun _ _ row => Simplex.softmax row
  have hnodes : own.value.rows = numNodes (mapRows raw fun _ _ row => Simplex.softmax row) := by
    rw [hrows, hp, mapRows_eq, LawfulBacking.numNodes_overwrite, hraw.2]
  refine (hweights.times hnodes).bind fun mean mean' hmean => ?_
  subst hmean
  exact Agree.refl _

theorem agree_hopMessage (a : HopAttention K) {hop : M K} {hop' : N K} (h : Alike hop hop')
    {p : Projections K} (hp : p.value.rows = numNodes hop) :
    Agree Eq (a.hopMessage p hop) (a.hopMessage p hop') := by
  refine (Agree.collect (fun i => agree_headMessage a h hp i) 0 a.heads).bind
    fun messages messages' hm => ?_
  rw [List.forall₂_eq_eq_eq] at hm
  subst hm
  exact Agree.refl _

theorem agree_apply (a : HopAttention K) {x : Grid K} {s : HopSet M K} {t : HopSet N K}
    (h : HopsAlike x.rows s t) :
    Agree (fun sent sent' => sent = sent' ∧ sent.message.rows = x.rows) (a.apply x s)
      (a.apply x t) := by
  refine (Agree.self (ensures_rows_project a x)).bind fun p p' hp => ?_
  obtain ⟨rfl, hrows⟩ := hp
  refine (Agree.mapM h fun hop hop' hhop => agree_hopMessage a hhop.2 (hrows.trans hhop.1.symm)).bind
    fun messages messages' hm => ?_
  rw [List.forall₂_eq_eq_eq] at hm
  subst hm
  refine Agree.self ((ensures_all _).bind fun shares _ => ?_)
  exact (ensures_rows_mix _ _ _ _).bind fun message hmessage => ensures_pure hmessage

end HopAttention

namespace FlowModel

variable (m : FlowModel K)

theorem agree_encodeRounds (rounds : ℕ) {i : FlowInstance M K} {j : FlowInstance N K}
    (hnodes : i.numNodes = j.numNodes) (hembeddings : i.embeddings = j.embeddings)
    (hfeatures : i.features = j.features) (hhops : HopsAlike i.embeddings.rows i.hops j.hops) :
    Agree Eq (m.encodeRounds rounds i) (m.encodeRounds rounds j) := by
  have hinputs : nodeInputs j = nodeInputs i := by rw [nodeInputs, nodeInputs, hembeddings, hfeatures]
  have hrows : Ensures (nodeInputs i) (·.rows = i.embeddings.rows) := by
    intro inputs h
    unfold nodeInputs at h
    split at h
    · rename_i hjoin
      cases h
      exact rows_beside? hjoin
    · cases h
  rw [encodeRounds, encodeRounds, hinputs, ← hnodes, ← hhops.size]
  refine (Agree.self hrows).bind fun inputs inputs' hin => ?_
  obtain ⟨rfl, hin⟩ := hin
  refine (Agree.self (m.encoder.ensures_rows inputs)).bind fun encoding encoding' henc => ?_
  obtain ⟨rfl, henc⟩ := henc
  refine (Agree.iterate (R := fun s s' : NodeState K => s = s' ∧
    s.encoding.rows = i.embeddings.rows) ?_ rounds ⟨rfl, henc.trans hin⟩).mono fun _ _ hs => hs.1
  rintro s _ ⟨rfl, hs⟩
  refine (m.attention.agree_apply (hs.symm ▸ hhops)).bind fun sent sent' hsent => ?_
  obtain ⟨rfl, hmessage⟩ := hsent
  refine Agree.self ((m.cell.ensures_rows (hmessage.trans hs) hs).bind fun next hnext => ?_)
  exact ensures_pure hnext

/-! Flows and bounds. -/

theorem agree_residual {a : M K} {b : N K} (h : Alike a b) (demands : List K) :
    Agree Eq (Flow.residual a demands) (Flow.residual b demands) := by
  rw [Flow.residual, Flow.residual, Flow.imbalance, Flow.imbalance, h.rowSums, h.colSums]
  exact Agree.refl _

theorem agree_redistribute (rounds : ℕ) {a : M K} {b : N K} (h : Alike a b) (demands : List K) :
    Agree (fun s s' => Alike s.flow s'.flow ∧ s.residual = s'.residual)
      (Redistribution.solve rounds a demands) (Redistribution.solve rounds b demands) := by
  rw [Redistribution.solve, Redistribution.solve, h.nodes]
  split_ifs
  · exact .error
  · refine (agree_flowAfter Alike.colSums rounds h demands).bind fun flow flow' hflow => ?_
    refine (agree_residual hflow demands).bind fun r r' hr => .ok ⟨hflow, hr⟩

theorem agree_cancel (c : Settings K) {a : M K} {b : N K} (h : Alike a b) :
    Agree Alike (cancel c a) (cancel c b) := by
  unfold cancel
  split_ifs
  · exact agree_cancelReciprocal h
  · exact .ok h

theorem agree_price (c : Settings K) {capacities : Option (M K)} {capacities' : Option (N K)}
    (hc : Option.Rel Alike capacities capacities') {a : M K} {b : N K} (h : Alike a b) :
    Agree (fun x y => Alike x.1 y.1 ∧ x.2 = y.2) (price c capacities a) (price c capacities' b) := by
  have hplain : Alike a b ∧ c.cost.total a = c.cost.total b := ⟨h, h.sumEdges _⟩
  cases hc with
  | none => exact .ok hplain
  | some hcap =>
    cases huse : c.useCapacities with
    | false =>
      rw [price_unused c huse, price_unused c huse]
      exact .ok hplain
    | true =>
      simp only [price, huse]
      refine (h.zipMap hcap _).bind fun clipped clipped' hclip => ?_
      exact (agree_totalWithCapacities c.cost hclip hcap).bind fun cost cost' hcost => .ok ⟨hclip, hcost⟩

theorem agree_respond (cost : CostFunction K) {a : M K} {b : N K} (h : Alike a b)
    (potentials : List K) :
    Agree (fun r r' => Alike r.flow r'.flow ∧ ∀ demands,
        DualAscent.lagrangian cost r demands potentials =
          DualAscent.lagrangian cost r' demands potentials)
      (DualAscent.respond cost a potentials) (DualAscent.respond cost b potentials) := by
  refine (h.withValuesM _).bind fun d d' hd => .ok ⟨hd.1.map _, fun demands => ?_⟩
  have hflow := hd.1.map (DualAscent.chosenFlow cost)
  rw [DualAscent.lagrangian, DualAscent.lagrangian, sumEdges, sumEdges, ← hflow.edges]
  refine congrArg (fun values => Scalar.runningSum values + Scalar.dot potentials demands)
    (List.map_congr_left fun e he => ?_)
  obtain ⟨hu, hv⟩ := LawfulBacking.ends_lt hflow.square.1 e he
  rw [EdgeMatrix.map, numNodes_withValues] at hu hv
  rw [hd.1.get? hu hv]

theorem agree_ascend (d : DualAscent K) {a : M K} {b : N K} (h : Alike a b)
    (demands initial : List K) :
    Agree (fun s s' => s.potentials = s'.potentials ∧ Alike s.response.flow s'.response.flow ∧
        s.cost = s'.cost) (d.solve a demands initial) (d.solve b demands initial) := by
  have hgradient : ∀ {flow : M K} {flow' : N K}, Alike flow flow' →
      DualAscent.gradient flow demands = DualAscent.gradient flow' demands := by
    intro flow flow' hflow
    rw [DualAscent.gradient, DualAscent.gradient, hflow.colSums, hflow.rowSums]
  have hadvance : ∀ s s' : DualAscent.State K, s = s' →
      Agree Eq (d.advance a demands s) (d.advance b demands s') := by
    rintro s _ rfl
    refine (agree_respond d.cost h s.potentials).bind fun r r' hr => ?_
    rw [hgradient hr.1]
    exact .ok rfl
  rw [DualAscent.solve, DualAscent.solve, h.nodes]
  refine (Agree.refl _).bind fun _ _ _ => ?_
  refine (Agree.iterate hadvance d.rounds rfl).bind fun last last' hlast => ?_
  subst hlast
  exact (agree_respond d.cost h last.potentials).bind fun r r' hr => .ok ⟨rfl, hr.1, hr.2 demands⟩

end FlowModel

/-! Instances and evaluations. -/

structure InstancesAlike (i : FlowInstance M K) (j : FlowInstance N K) : Prop where
  adjacency : Alike i.adjacency j.adjacency
  demands : i.demands = j.demands
  hops : HopsAlike i.hops.numNodes i.hops j.hops
  embeddings : i.embeddings = j.embeddings
  features : i.features = j.features
  capacities : Option.Rel Alike i.capacities j.capacities

def Settings.withBacking (c : Settings K) (sparse : Bool) : Settings K := { c with sparse }

def FlowModel.withBacking (m : FlowModel K) (sparse : Bool) : FlowModel K :=
  { m with settings := m.settings.withBacking sparse }

structure EvaluationsAgree (e : FlowModel.Evaluation M K) (f : FlowModel.Evaluation N K) : Prop where
  flow : edges e.flow = edges f.flow
  weights : edges e.weights = edges f.weights
  cost : e.cost = f.cost
  bound : e.bound = f.bound
  dualFlow : edges e.dualFlow = edges f.dualFlow
  potentials : e.potentials = f.potentials
  nodes : e.nodes = f.nodes
  scores : e.scores = f.scores
  residual : e.residual = f.residual

theorem checkCapacities_eq {a c : M K} {b d : N K} (h : Alike a b) (k : Alike c d) :
    FlowInstance.checkCapacities a c = FlowInstance.checkCapacities b d := by
  rw [FlowInstance.checkCapacities, FlowInstance.checkCapacities, h.samePattern k, h.numEdges,
    k.numEdges, h.edges]

/-- The checks find the same, once the backings are as the settings say. -/
theorem check_eq {c : Settings K} {s t : Bool} {i : FlowInstance M K} {j : FlowInstance N K}
    (h : InstancesAlike i j) (hs : FlowInstance.checkBacking M (c.withBacking s) = .ok ())
    (ht : FlowInstance.checkBacking N (c.withBacking t) = .ok ()) :
    i.check (c.withBacking s) = j.check (c.withBacking t) := by
  have hnodes : i.numNodes = j.numNodes := h.adjacency.nodes
  rw [FlowInstance.check, FlowInstance.check, hs, ht, ok_bind, ok_bind]
  dsimp only
  rw [hnodes, h.demands, h.hops.size, h.hops.numNodes, h.embeddings, h.features]
  obtain ⟨adjacency, demands, hops, embeddings, features, capacities⟩ := i
  obtain ⟨adjacency', demands', hops', embeddings', features', capacities'⟩ := j
  have hcapacities : Option.Rel Alike capacities capacities' := h.capacities
  cases hcapacities with
  | none => rfl
  | some hcap =>
    simp only [checkCapacities_eq hcap h.adjacency]
    rfl

/-- In exact arithmetic a model evaluates instances that are alike to the same results, or fails on
both. -/
theorem FlowModel.agree_evaluate (m : FlowModel K) {s t : Bool} {i : FlowInstance M K}
    {j : FlowInstance N K} (h : InstancesAlike i j)
    (hs : FlowInstance.checkBacking M (m.withBacking s).settings = .ok ())
    (ht : FlowInstance.checkBacking N (m.withBacking t).settings = .ok ()) :
    Agree EvaluationsAgree ((m.withBacking s).evaluate i) ((m.withBacking t).evaluate j) := by
  have hcheck : Agree (fun _ _ => i.Checked (m.withBacking s).settings)
      (i.check (m.withBacking s).settings) (j.check (m.withBacking t).settings) := by
    have hsame : i.check (m.withBacking s).settings = j.check (m.withBacking t).settings :=
      check_eq h hs ht
    rw [← hsame]
    exact (Agree.self (i.ensures_checked _)).mono fun _ _ hc => hc.2
  refine hcheck.bind fun _ _ hc => ?_
  have hrows : i.hops.numNodes = i.embeddings.rows := hc.hops.trans hc.embeddings.rows_eq.symm
  refine (agree_encodeRounds m _ h.adjacency.nodes h.embeddings h.features
    (hrows ▸ h.hops)).bind fun nodes nodes' hnodes => ?_
  subst hnodes
  refine (Agree.refl _).bind fun scores scores' hscores => ?_
  subst hscores
  refine (agree_weights _ h.adjacency scores).bind fun weights weights' hweights => ?_
  rw [h.demands]
  refine (agree_redistribute _ hweights _).bind fun primal primal' hprimal => ?_
  refine (agree_cancel _ hprimal.1).bind fun flow flow' hflow => ?_
  refine (agree_price _ h.capacities hflow).bind fun priced priced' hpriced => ?_
  refine (Agree.refl _).bind fun initial initial' hinitial => ?_
  subst hinitial
  refine (agree_ascend _ h.adjacency _ _).bind fun dual dual' hdual => .ok ?_
  exact {
    flow := hpriced.1.edges
    weights := hweights.edges
    cost := hpriced.2
    bound := hdual.2.2
    dualFlow := hdual.2.1.edges
    potentials := hdual.1
    nodes := rfl
    scores := rfl
    residual := hprimal.2 }

end NeuralFlow
