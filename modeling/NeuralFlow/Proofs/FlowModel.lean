import Mathlib
import NeuralFlow.Proofs.Draw
import NeuralFlow.Proofs.DualAscent
import NeuralFlow.Proofs.Flow
import NeuralFlow.Proofs.Redistribution
import NeuralFlow.Proofs.Settings

/-! Evaluation of checked instances. The checks fix the shapes of all inputs; from there every stage
of a drawn model gives what the next stage needs. -/

namespace NeuralFlow

open EdgeMatrix LawfulBacking Grid

variable {α : Type} [Scalar α]

/-- Heads that are averaged fit side by side into a word. -/
def Settings.HeadsFit (c : Settings α) : Prop :=
  c.headMerge = .average → c.heads.toNat * c.encodingWidth.toNat < UInt64.size

/-- Joined heads of valid settings are together as wide as the encoding. -/
theorem Settings.joined_heads {c : Settings α} (hc : c.validate = .ok ())
    (hmerge : c.headMerge = .concat) :
    c.heads.toNat * (c.encodingWidth / c.heads).toNat = c.encodingWidth.toNat := by
  have hdivide := (c.validate_eq_ok_iff.1 hc).heads hmerge
  have hmod : c.encodingWidth.toNat % c.heads.toNat = 0 := by
    rw [← UInt64.toNat_mod, hdivide, UInt64.toNat_zero]
  rw [UInt64.toNat_div, Nat.mul_div_cancel' (Nat.dvd_of_mod_eq_zero hmod)]

/-- Heads of valid settings have a width, and only if they are averaged they may not fit. -/
theorem Settings.headWidthFor_yields {c : Settings α} (hc : c.validate = .ok ()) :
    Yields (HopAttention.headWidthFor (α := α) c.encodingWidth c.heads c.headMerge)
      fun headWidth =>
        (c.headMerge = .concat → c.heads.toNat * headWidth.toNat = c.encodingWidth.toNat) ∧
        (c.heads.toNat * headWidth.toNat < UInt64.size ↔ c.HeadsFit) := by
  obtain ⟨_, -, hpositive⟩ := (c.validate_eq_ok_iff.1 hc).positive
  have hheads : c.heads ≠ 0 := hpositive ("num_heads", c.heads) (by simp [positiveSizes])
  unfold HeadsFit
  cases hmerge : c.headMerge with
  | concat =>
    have hjoined := joined_heads hc hmerge
    rw [HopAttention.headWidthFor, if_neg hheads]
    refine ⟨_, rfl, fun _ => hjoined, fun _ => nofun, fun _ => ?_⟩
    rw [hjoined]
    exact c.encodingWidth.toNat_lt_size
  | average => exact ⟨_, rfl, nofun, fun hlt _ => hlt, fun h => h rfl⟩

namespace FlowModel

structure Drawn (m : FlowModel α) (c : Settings α) : Prop where
  valid : c.validate = .ok ()
  settings_eq : m.settings = c
  encoder : m.encoder.layers ≠ [] ∧
    Perceptron.Leads m.encoder.layers (c.embeddingWidth.toNat + c.featureWidth.toNat)
      c.encodingWidth.toNat
  attention : ∃ headWidth, HopAttention.headWidthFor (α := α) c.encodingWidth c.heads
    c.headMerge = .ok headWidth ∧
      m.attention.Drawn c.encodingWidth c.heads headWidth c.headMerge
  cell : m.cell.Fits c.encodingWidth.toNat
  scoreDecoder : Perceptron.Leads m.scoreDecoder.layers c.encodingWidth.toNat 1
  potentialDecoder : Perceptron.Leads m.potentialDecoder.layers c.encodingWidth.toNat 1

theorem ensures_drawn {σ : Type} (next : StateM σ α) (c : Settings α) (source : σ) :
    Ensures (draw next c source) (·.Drawn c) := by
  refine (show Ensures c.validate fun _ => c.validate = .ok () from fun _ h => h).bind
    fun _ hvalid => ?_
  refine (ensures_wordSize _).bind fun inputWidth hinput => ?_
  refine (HopAttention.ensures_draw next c.encodingWidth c.heads c.headMerge).bind
    fun drawAttention hdraw => ensures_pure ?_
  obtain ⟨headWidth, hw, hdraw⟩ := hdraw
  refine (?_ : Draws _ fun m : FlowModel α => m.Drawn c) source
  refine (Perceptron.draw_leads next _ _ _ _).bind fun encoder hencoder => ?_
  refine hdraw.bind fun attention hattention => ?_
  refine (GatedCell.draw_fits next _).bind fun cell hcell => ?_
  refine (Perceptron.draw_leads next _ _ _ _).bind fun scores hscores => ?_
  refine (Perceptron.draw_leads next _ _ _ _).bind fun potentials hpotentials => ?_
  rw [hinput] at hencoder
  exact draws_pure ⟨hvalid, rfl, hencoder, ⟨headWidth, hw, hattention⟩, hcell, hscores.2,
    hpotentials.2⟩

/-- Valid settings with heads that fit have a model. -/
theorem draw_yields {σ : Type} (next : StateM σ α) {c : Settings α} (hc : c.validate = .ok ())
    (hfit : c.HeadsFit) (source : σ) : Yields (draw next c source) (·.Drawn c) := by
  obtain ⟨inputWidth, hinput, -⟩ := (c.validate_eq_ok_iff.1 hc).positive
  obtain ⟨headWidth, hwidth, -, hroom⟩ := Settings.headWidthFor_yields hc
  obtain ⟨projection, hprojection, -⟩ := wordSize_yields (α := α) (hroom.2 hfit)
  have hsome : ∃ m, draw next c source = .ok m := by
    rw [draw, hc, ok_bind, hinput, ok_bind, HopAttention.draw, hwidth, ok_bind,
      HopAttention.projectionWidth, hprojection]
    exact ⟨_, rfl⟩
  obtain ⟨m, hm⟩ := hsome
  exact ⟨m, hm, ensures_drawn next c source m hm⟩

/-- Valid settings with heads that do not fit have none. -/
theorem draw_overflows {σ : Type} (next : StateM σ α) {c : Settings α} (hc : c.validate = .ok ())
    (hfit : ¬ c.HeadsFit) (source : σ) : draw next c source = .error (.fault .overflow) := by
  obtain ⟨inputWidth, hinput, -⟩ := (c.validate_eq_ok_iff.1 hc).positive
  obtain ⟨headWidth, hwidth, -, hroom⟩ := Settings.headWidthFor_yields hc
  rw [draw, hc, ok_bind, hinput, ok_bind, HopAttention.draw, hwidth, ok_bind,
    HopAttention.projectionWidth, wordSize_overflows fun hlt => hfit (hroom.1 hlt)]
  rfl

end FlowModel

namespace FlowInstance

variable {M : Type → Type} [EdgeMatrix M]

structure Checked (c : Settings α) (i : FlowInstance M α) : Prop where
  demands : i.demands.length = i.numNodes
  hops : i.hops.numNodes = i.numNodes
  embeddings : i.embeddings.Shaped i.numNodes c.embeddingWidth.toNat
  features : i.features.Shaped i.numNodes c.featureWidth.toNat
  capacities : c.useCapacities = true →
    ∃ capacities, i.capacities = some capacities ∧ samePattern capacities i.adjacency = true

theorem ensures_checkDemands (demands : List α) (nodes : ℕ) :
    Ensures (checkDemands demands nodes) fun _ => demands.length = nodes := by
  intro _ h
  unfold checkDemands at h
  split_ifs at h with hlen
  exact not_not.1 hlen

theorem ensures_checkNodeInput (what : String) (table : Grid α) (nodes width : ℕ) :
    Ensures (checkNodeInput what table nodes width) fun _ => table.Shaped nodes width := by
  intro _ h
  unfold checkNodeInput at h
  split_ifs at h with hrows hcols
  exact ⟨not_not.1 hrows, not_not.1 hcols⟩

theorem ensures_checkCapacities (capacities adjacency : M α) :
    Ensures (checkCapacities capacities adjacency) fun _ =>
      samePattern capacities adjacency = true := by
  intro _ h
  unfold checkCapacities at h
  split_ifs at h with hsame
  simpa using hsame

/-- As many hops as the settings count. -/
theorem ensures_size (c : Settings α) (i : FlowInstance M α) :
    Ensures (i.check c) fun _ => ∃ hopCount, c.hopCount = .ok hopCount ∧
      i.hops.size = hopCount.toNat := by
  refine (ensures_all _).bind fun _ _ => (ensures_all _).bind fun _ _ => ?_
  refine (show Ensures c.hopCount (c.hopCount = .ok ·) from fun _ h => h).bind
    fun hopCount hcount => ?_
  by_cases hsize : i.hops.size = hopCount.toNat
  · exact fun _ _ => ⟨hopCount, hcount, hsize⟩
  · rw [if_pos hsize]
    exact (ensures_throw _).bind_of_fails

theorem ensures_checked (c : Settings α) (i : FlowInstance M α) :
    Ensures (i.check c) fun _ => i.Checked c := by
  refine (ensures_all _).bind fun _ _ => ?_
  refine (ensures_checkDemands _ _).bind fun _ hd => (ensures_all _).bind fun hopCount _ => ?_
  by_cases hsize : i.hops.size = hopCount.toNat
  swap
  · rw [if_pos hsize]
    exact (ensures_throw _).bind_of_fails
  by_cases hnodes : i.hops.numNodes = i.numNodes
  swap
  · rw [if_neg (not_not.2 hsize), if_pos hnodes]
    exact (ensures_throw _).bind_of_fails
  rw [if_neg (not_not.2 hsize), if_neg (not_not.2 hnodes)]
  refine (ensures_checkNodeInput _ _ _ _).bind fun _ he => ?_
  refine (ensures_checkNodeInput _ _ _ _).bind fun _ hf => ?_
  by_cases huse : c.useCapacities = true
  · rw [if_pos huse]
    cases hcap : i.capacities with
    | none => exact fun _ h => nomatch h
    | some capacities =>
      refine (ensures_checkCapacities capacities i.adjacency).mono fun _ hsame => ?_
      exact ⟨hd, hnodes, he, hf, fun _ => ⟨capacities, hcap, hsame⟩⟩
  · rw [if_neg huse]
    exact ensures_pure ⟨hd, hnodes, he, hf, fun hon => (huse hon).elim⟩

end FlowInstance

namespace FlowModel

/-! The stages. -/

section Inputs

omit [Scalar α]

variable {M : Type → Type}

theorem nodeInputs_yields {i : FlowInstance M α} {n e f : ℕ} (he : i.embeddings.Shaped n e)
    (hf : i.features.Shaped n f) : Yields (nodeInputs i) (·.Shaped n (e + f)) := by
  obtain ⟨inputs, hinputs, hshape⟩ := he.beside? hf
  rw [nodeInputs, hinputs]
  exact yields_pure hshape

end Inputs

variable {M : Type → Type} [EdgeMatrix M] [LawfulBacking M]

theorem Drawn.attention_fits {m : FlowModel α} {c : Settings α} (h : m.Drawn c) :
    m.attention.Fits c.encodingWidth.toNat := by
  obtain ⟨headWidth, hw, hdrawn⟩ := h.attention
  refine hdrawn.fits fun hmerge => ?_
  rw [hmerge] at hw
  cases hw
  obtain ⟨_, -, hpositive⟩ := (c.validate_eq_ok_iff.1 h.valid).positive
  have hwidth : c.encodingWidth ≠ 0 :=
    hpositive ("node_encoding", c.encodingWidth) (by simp [Settings.positiveSizes])
  exact ⟨rfl, Nat.pos_of_ne_zero fun hzero => hwidth (UInt64.toNat_inj.1 hzero)⟩

theorem round_yields {m : FlowModel α} {c : Settings α} (h : m.Drawn c) {hops : HopSet M α}
    {n : ℕ} (hh : hops.OnNodes n) {s : NodeState α}
    (hstate : s.encoding.Shaped n c.encodingWidth.toNat) :
    Yields (m.round hops s) (·.encoding.Shaped n c.encodingWidth.toNat) :=
  (h.attention_fits.apply hh hstate).bind fun _ hsent =>
    (h.cell.apply hsent.1 hstate).bind fun _ hnext => yields_pure hnext

theorem encodeRounds_yields {m : FlowModel α} {c : Settings α} (h : m.Drawn c)
    {i : FlowInstance M α} (hh : i.hops.OnNodes i.numNodes) (hc : i.Checked c) (rounds : ℕ) :
    Yields (m.encodeRounds rounds i) (·.encoding.Shaped i.numNodes c.encodingWidth.toNat) := by
  refine (nodeInputs_yields hc.embeddings hc.features).bind fun inputs hinputs => ?_
  refine (h.encoder.2.run _ hinputs).bind fun encoding hencoding => ?_
  exact Yields.iterate (P := fun s : NodeState α =>
    s.encoding.Shaped i.numNodes c.encodingWidth.toNat) (fun s => round_yields h hh) _ hencoding

theorem encode_yields {m : FlowModel α} {c : Settings α} (h : m.Drawn c)
    {i : FlowInstance M α} (hh : i.hops.OnNodes i.numNodes) (hc : i.Checked c) :
    Yields (m.encode i) (·.encoding.Shaped i.numNodes c.encodingWidth.toNat) :=
  encodeRounds_yields h hh hc m.settings.rounds.toNat

theorem decode_yields {decoder : Perceptron α} {width n : ℕ}
    (h : Perceptron.Leads decoder.layers width 1) {encoding : Grid α}
    (he : encoding.Shaped n width) : Yields (decode decoder encoding) (·.length = n) :=
  (h.run _ he).bind fun _ hy => yields_orFault (hy.column? Nat.zero_lt_one)

theorem cancel_yields (c : Settings α) {a flow : M α} (h : OnPattern a flow) :
    Yields (cancel c flow) (OnPattern a) := by
  unfold cancel
  split_ifs
  · exact Flow.cancelReciprocal_yields h
  · exact yields_pure h

omit [LawfulBacking M] in
/-- Without capacities a flow is priced as it is, whether or not there are some. -/
theorem price_unused (c : Settings α) (huse : c.useCapacities = false)
    (capacities : Option (M α)) (flow : M α) :
    price c capacities flow = .ok (flow, c.cost.total flow) := by
  unfold price
  rw [huse]
  cases capacities <;> rfl

theorem price_yields (c : Settings α) {a flow : M α} (h : OnPattern a flow)
    {capacities : Option (M α)} (hc : c.useCapacities = true → ∀ b, capacities = some b →
      Square b ∧ numNodes b = numNodes a ∧ pattern b = pattern a) :
    Yields (price c capacities flow) (OnPattern a ·.1) := by
  unfold price
  split
  · rename_i b huse
    obtain ⟨hb, hn, hp⟩ := hc huse b rfl
    exact clip_price_yields c.cost h hb hn hp
  · exact yields_pure h

structure Stages (m : FlowModel α) (i : FlowInstance M α) (e : Evaluation M α)
    (primal : Redistribution.Solution M α) (corrected : M α) (initial : List α)
    (dual : DualAscent.Solution M α) : Prop where
  check : i.check m.settings = .ok ()
  nodes : m.encode i = .ok e.nodes
  scores : decode m.scoreDecoder e.nodes.encoding = .ok e.scores
  weights : m.settings.weightRule.weights i.adjacency e.scores = .ok e.weights
  solved : Redistribution.solve m.settings.flowRounds.toNat e.weights i.demands = .ok primal
  cancelled : cancel m.settings primal.flow = .ok corrected
  priced : price m.settings i.capacities corrected = .ok (e.flow, e.cost)
  started : decode m.potentialDecoder e.nodes.encoding = .ok initial
  ascended : (ascent m.settings).solve i.adjacency i.demands initial = .ok dual
  bound : e.bound = dual.cost
  residual : e.residual = primal.residual

omit [LawfulBacking M] in
/-- An evaluation comes from stages that have all succeeded. -/
theorem evaluate_stages {m : FlowModel α} {i : FlowInstance M α} {e : Evaluation M α}
    (h : m.evaluate i = .ok e) :
    ∃ primal corrected initial dual, Stages m i e primal corrected initial dual := by
  obtain ⟨⟨⟩, hcheck, h⟩ := exists_of_bind_eq_ok h
  obtain ⟨nodes, hnodes, h⟩ := exists_of_bind_eq_ok h
  obtain ⟨scores, hscores, h⟩ := exists_of_bind_eq_ok h
  obtain ⟨weights, hweights, h⟩ := exists_of_bind_eq_ok h
  obtain ⟨primal, hprimal, h⟩ := exists_of_bind_eq_ok h
  obtain ⟨corrected, hcorrected, h⟩ := exists_of_bind_eq_ok h
  obtain ⟨⟨flow, cost⟩, hprice, h⟩ := exists_of_bind_eq_ok h
  obtain ⟨initial, hinitial, h⟩ := exists_of_bind_eq_ok h
  obtain ⟨dual, hdual, h⟩ := exists_of_bind_eq_ok h
  cases h
  exact ⟨primal, corrected, initial, dual, hcheck, hnodes, hscores, hweights, hprimal, hcorrected,
    hprice, hinitial, hdual, rfl, rfl⟩

/-- A drawn model evaluates every checked instance, whatever unused capacities are. -/
theorem evaluate_yields_of_used {m : FlowModel α} {c : Settings α} (h : m.Drawn c)
    {i : FlowInstance M α} (ha : Square i.adjacency) (hh : i.hops.OnNodes i.hops.numNodes)
    (hcap : c.useCapacities = true → ∀ b, i.capacities = some b → Square b)
    (hcheck : i.check c = .ok ()) : Yields (m.evaluate i) fun _ => True := by
  have hc := i.ensures_checked c () hcheck
  rw [hc.hops] at hh
  rw [evaluate, h.settings_eq]
  refine Yields.bind ⟨(), hcheck, trivial⟩ fun _ (_ : True) => ?_
  refine (encode_yields h hh hc).bind fun nodes hnodes => ?_
  refine (decode_yields h.scoreDecoder hnodes).bind fun scores hscores => ?_
  refine (WeightRule.weights_yields _ ha hscores).bind fun weights hw => ?_
  have hd : i.demands.length = numNodes weights := hc.demands.trans hw.nodes.symm
  refine (Redistribution.solve_yields hw.square hd _).bind fun primal hprimal => ?_
  refine (cancel_yields c (hw.trans hprimal)).bind fun flow hflow => ?_
  refine (price_yields c hflow fun huse b hb => ?_).bind fun ⟨clipped, cost⟩ _ => ?_
  · obtain ⟨b', hb', hsame⟩ := hc.capacities huse
    cases hb.symm.trans hb'
    have hsquare := hcap huse b hb
    exact ⟨hsquare, (samePattern_iff hsquare ha).1 hsame⟩
  refine (decode_yields h.potentialDecoder hnodes).bind fun initial hinitial => ?_
  exact (DualAscent.solve_yields _ ha hc.demands hinitial).bind fun dual _ => yields_pure trivial

/-- A drawn model evaluates every checked instance. -/
theorem evaluate_yields {m : FlowModel α} {c : Settings α} (h : m.Drawn c)
    {i : FlowInstance M α} (ha : Square i.adjacency) (hh : i.hops.OnNodes i.hops.numNodes)
    (hcap : ∀ b, i.capacities = some b → Square b) (hcheck : i.check c = .ok ()) :
    Yields (m.evaluate i) fun _ => True :=
  evaluate_yields_of_used h ha hh (fun _ => hcap) hcheck

end FlowModel

end NeuralFlow
