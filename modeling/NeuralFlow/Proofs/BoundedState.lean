import Mathlib
import NeuralFlow.Proofs.FinalFlow
import NeuralFlow.Proofs.Simplex

/-! Bounds on what nodes know. Encodings and messages come out of `tanh`, and a gate moves an encoding to a
point between itself and a candidate that does too; so however many rounds are run, no entry leaves the
range from -1 to 1. The proportions of the hops come out of softmax. -/

namespace NeuralFlow

open EdgeMatrix LawfulBacking Grid

variable {K : Type} [ExactScalar K]

def Grid.Bounded (x : Grid K) : Prop := ∀ i j y, x.get? i j = some y → |y| ≤ 1

def TanhBounded (K : Type) [ExactScalar K] : Prop := ∀ a : K, |Scalar.tanh a| ≤ 1

theorem Grid.bounded_map_tanh (htanh : TanhBounded K) (x : Grid K) : (x.map Scalar.tanh).Bounded := by
  intro i j y hy
  rw [get?_map, Option.map_eq_some_iff] at hy
  obtain ⟨z, -, rfl⟩ := hy
  exact htanh z

/-! Gates. -/

namespace GatedCell

/-- A gate is open to a degree between zero and one. -/
theorem logistic_mem_Icc (hpos : ∀ a : K, 0 < Scalar.exp a) (x : K) :
    logistic x ∈ Set.Icc (0 : K) 1 := by
  unfold logistic
  have hneg := hpos (-x)
  have hx := hpos x
  split_ifs
  · exact ⟨by positivity, (div_le_one (by positivity)).2 (by linarith)⟩
  · exact ⟨by positivity, (div_le_one (by positivity)).2 (by linarith)⟩

/-- A point between two points within bounds is within bounds. -/
theorem abs_mix_le_one {u s t : K} (hu : u ∈ Set.Icc (0 : K) 1) (hs : |s| ≤ 1) (ht : |t| ≤ 1) :
    |(1 - u) * s + u * t| ≤ 1 := by
  have hu' : 0 ≤ 1 - u := sub_nonneg.2 hu.2
  calc |(1 - u) * s + u * t| ≤ |(1 - u) * s| + |u * t| := abs_add_le _ _
    _ = (1 - u) * |s| + u * |t| := by
        rw [abs_mul, abs_mul, abs_of_nonneg hu', abs_of_nonneg hu.1]
    _ ≤ (1 - u) * 1 + u * 1 :=
        add_le_add (mul_le_mul_of_nonneg_left hs hu') (mul_le_mul_of_nonneg_left ht hu.1)
    _ = 1 := by ring

theorem ensures_get?_times {a b : Grid K} {r c : ℕ} (ha : a.Shaped r c) (hb : b.Shaped r c) :
    Ensures (times a b) fun g => g.Shaped r c ∧
      ∀ i j, g.get? i j = Option.map₂ (· * ·) (a.get? i j) (b.get? i j) := by
  have hget : Ensures (times a b) fun g =>
      ∀ i j, g.get? i j = Option.map₂ (· * ·) (a.get? i j) (b.get? i j) :=
    ensures_orFault fun _ hsome => get?_combine? ha hb hsome
  exact fun g hg => ⟨(times_yields ha hb).ensures g hg, hget g hg⟩

theorem ensures_get?_plus {a b : Grid K} {r c : ℕ} (ha : a.Shaped r c) (hb : b.Shaped r c) :
    Ensures (plus a b) fun g =>
      ∀ i j, g.get? i j = Option.map₂ (· + ·) (a.get? i j) (b.get? i j) :=
  ensures_orFault fun _ hsome => get?_combine? ha hb hsome

/-- A cell keeps states within bounds, whatever the message is. -/
theorem Fits.ensures_bounded (hpos : ∀ a : K, 0 < Scalar.exp a) (htanh : TanhBounded K)
    {cell : GatedCell K} {width rows : ℕ} (h : cell.Fits width) {message state : Grid K}
    (hm : message.Shaped rows width) (hs : state.Shaped rows width) (hstate : state.Bounded) :
    Ensures (cell.apply message state) (·.Bounded) := by
  have hrespond : ∀ {forMessage forState : Affine K} {seen : Grid K}, forMessage.Fits width width →
      forState.Fits width width → seen.Shaped rows width →
      Ensures (respond forMessage forState message seen) (·.Shaped rows width) :=
    fun hfm hfs hseen => (respond_yields hfm hfs hm hseen).ensures
  refine (hrespond h.updateMessage h.updateState hs).bind fun update hu => ?_
  refine (hrespond h.resetMessage h.resetState hs).bind fun reset hr => ?_
  refine (times_yields (hr.map _) hs).ensures.bind fun seen hseen => ?_
  refine (hrespond h.candidateMessage h.candidateState hseen).bind fun candidate hc => ?_
  refine (ensures_get?_times ((hu.map _).map _) hs).bind fun kept hkept => ?_
  refine (ensures_get?_times (hu.map _) (hc.map _)).bind fun moved hmoved => ?_
  refine (ensures_get?_plus hkept.1 hmoved.1).mono fun next hnext i j y hy => ?_
  -- at every position the new state is a mixture of the old one and the candidate
  rw [hnext, hkept.2, hmoved.2, get?_map, get?_map, get?_map] at hy
  simp only [Option.map₂_eq_some_iff, Option.map_eq_some_iff, Option.mem_def] at hy
  obtain ⟨_, _, ⟨_, s, ⟨_, ⟨x, hx, rfl⟩, rfl⟩, hsij, rfl⟩,
    ⟨_, _, ⟨x', hx', rfl⟩, ⟨z, -, rfl⟩, rfl⟩, rfl⟩ := hy
  obtain rfl : x = x' := Option.some.inj (hx.symm.trans hx')
  exact abs_mix_le_one (logistic_mem_Icc hpos x) (hstate i j s hsij) (htanh z)

end GatedCell

/-- With `tanh` after its last layer a stack gives tables within bounds. -/
theorem Perceptron.ensures_bounded_run (htanh : TanhBounded K) {layers : List (Affine K)}
    {x : Grid K} (hx : layers ≠ [] ∨ x.Bounded) : Ensures (run true layers x) (·.Bounded) := by
  induction layers generalizing x with
  | nil => exact ensures_pure (hx.resolve_left fun hne => hne rfl)
  | cons layer layers ih =>
    exact (ensures_all _).bind fun y _ => ih (Or.inr (bounded_map_tanh htanh y))

/-! Messages. -/

namespace HopAttention

structure Message.Bounded (sent : Message K) (nodes : ℕ) : Prop where
  message : sent.message.Bounded
  rows : sent.shares.rows = nodes
  proportions : ∀ line ∈ sent.shares.lines, Simplex.Proportions line

theorem ensures_mix (htanh : TanhBounded K) (shares : Grid K) (nodes width : ℕ)
    (messages : List (Grid K)) : Ensures (mix shares nodes width messages) fun message =>
      message.Shaped nodes width ∧ message.Bounded := by
  have hsum : Ensures (messages.zipIdx.foldlM (addHop shares) (.zeros nodes width))
      (·.Shaped nodes width) := by
    refine Ensures.foldlM (P := fun g : Grid K => g.Shaped nodes width) (fun sum hop hsum => ?_)
      (shaped_zeros nodes width)
    refine (ensures_all _).bind fun _ _ => (ensures_all _).bind fun _ _ => ?_
    refine ensures_orFault fun g hg => ?_
    have hshape := shaped_update? hg
    rwa [hsum.rows_eq, hsum.cols_eq] at hshape
  exact hsum.bind fun sum h => ensures_pure ⟨h.map _, bounded_map_tanh htanh sum⟩

section Shares

variable (hpos : ∀ a : K, 0 < Scalar.exp a) (hzero : Scalar.exp (0 : K) = 1)

include hpos hzero

/-- With at least one hop the shares of every node are proportions. -/
theorem ensures_hopShares (a : HopAttention K) (nodes : ℕ) (messages : List (Grid K)) :
    Ensures (a.hopShares nodes messages) fun shares => shares.rows = nodes ∧
      (messages ≠ [] → ∀ line ∈ shares.lines, Simplex.Proportions line) := by
  refine ensures_length_mapM.bind fun logits hlen => ensures_pure ⟨?_, fun hne line hline => ?_⟩
  · rw [rows_mapLines]
    exact (shaped_ofColumns nodes logits).rows_eq
  · obtain ⟨scores, hscores, rfl⟩ := List.mem_map.1 hline
    refine Simplex.proportions_softmax hpos hzero fun hnil => hne ?_
    have hwidth := (ofColumns nodes logits).width_eq scores hscores
    rw [hnil, (shaped_ofColumns nodes logits).cols_eq, hlen] at hwidth
    exact List.length_eq_zero_iff.1 hwidth.symm

variable {M : Type → Type} [EdgeMatrix M]

theorem ensures_bounded_apply (htanh : TanhBounded K) (a : HopAttention K) {hops : HopSet M K}
    {x : Grid K} (hhops : hops.hops = [] → x.rows = 0) :
    Ensures (a.apply x hops) fun sent =>
      sent.message.Shaped x.rows x.cols ∧ sent.Bounded x.rows := by
  refine (ensures_all _).bind fun p _ => ensures_length_mapM.bind fun messages hlen => ?_
  refine (ensures_hopShares hpos hzero a x.rows messages).bind fun shares hshares => ?_
  refine (ensures_mix htanh shares x.rows x.cols messages).bind fun message hmessage => ?_
  refine ensures_pure ⟨hmessage.1, hmessage.2, hshares.1, ?_⟩
  by_cases hnone : messages = []
  · -- without hops there are no nodes
    have hrows : x.rows = 0 := hhops (List.length_eq_zero_iff.1 (by rw [← hlen, hnone]; rfl))
    have hlines : shares.lines = [] := List.length_eq_zero_iff.1 (hshares.1.trans hrows)
    simp [hlines]
  · exact hshares.2 hnone

end Shares

end HopAttention

namespace FlowModel

/-- New models have `tanh` after the last layer of their encoder. -/
theorem ensures_activateFinal {σ : Type} (next : StateM σ K) (c : Settings K) (source : σ) :
    Ensures (draw next c source) (·.encoder.activateFinal = true) := by
  refine (ensures_all _).bind fun _ _ => (ensures_all _).bind fun _ _ => ?_
  refine (ensures_all _).bind fun drawAttention _ => ensures_pure ?_
  refine (?_ : Draws _ fun m : FlowModel K => m.encoder.activateFinal = true) source
  refine (Perceptron.draw_activateFinal next _ _ _ true).bind fun encoder hencoder => ?_
  refine (Draws.all _).bind fun _ _ => (Draws.all _).bind fun _ _ => ?_
  exact (Draws.all _).bind fun _ _ => (Draws.all _).bind fun _ _ => draws_pure hencoder

variable (hpos : ∀ a : K, 0 < Scalar.exp a) (hzero : Scalar.exp (0 : K) = 1) (htanh : TanhBounded K)
  {M : Type → Type} [EdgeMatrix M] {m : FlowModel K} {c : Settings K} {i : FlowInstance M K}

structure NodeState.Bounded (s : NodeState K) (nodes width : ℕ) : Prop where
  shape : s.encoding.Shaped nodes width
  encoding : s.encoding.Bounded

include hpos hzero htanh

theorem ensures_sent (hc : i.Checked c) {s : NodeState K} {width : ℕ}
    (hs : s.Bounded i.numNodes width) : Ensures (m.attention.apply s.encoding i.hops) fun sent =>
      sent.message.Shaped i.numNodes width ∧ sent.Bounded i.numNodes := by
  have hhops : i.hops.hops = [] → s.encoding.rows = 0 := by
    intro hnil
    rw [hs.shape.rows_eq, ← hc.hops, HopSet.numNodes, hnil]
    rfl
  have hsent := m.attention.ensures_bounded_apply hpos hzero htanh hhops
  rwa [hs.shape.rows_eq, hs.shape.cols_eq] at hsent

theorem ensures_bounded_round (hm : m.Drawn c) (hc : i.Checked c) {s : NodeState K}
    (hs : s.Bounded i.numNodes c.encodingWidth.toNat) : Ensures (m.round i.hops s) fun next =>
      next.Bounded i.numNodes c.encodingWidth.toNat ∧ next.shares.rows = i.numNodes ∧
        ∀ line ∈ next.shares.lines, Simplex.Proportions line := by
  refine (ensures_sent hpos hzero htanh hc hs).bind fun sent hsent => ?_
  have hcell := hm.cell.ensures_bounded hpos htanh hsent.1 hs.shape hs.encoding
  have hshape := (hm.cell.apply hsent.1 hs.shape).ensures
  refine Ensures.bind (P := fun next : Grid K => next.Shaped i.numNodes c.encodingWidth.toNat ∧
    next.Bounded) (fun next hnext => ⟨hshape next hnext, hcell next hnext⟩) fun next hnext => ?_
  exact ensures_pure ⟨⟨hnext.1, hnext.2⟩, hsent.2.rows, hsent.2.proportions⟩

omit hpos hzero in
theorem ensures_bounded_start (hm : m.Drawn c) (hfinal : m.encoder.activateFinal = true)
    (hc : i.Checked c) : Ensures (nodeInputs i >>= m.encoder.apply) fun encoding =>
      encoding.Shaped i.numNodes c.encodingWidth.toNat ∧ encoding.Bounded := by
  refine (nodeInputs_yields hc.embeddings hc.features).ensures.bind fun inputs hinputs => ?_
  intro encoding hencoding
  have hrows := m.encoder.ensures_rows inputs encoding hencoding
  rw [Perceptron.apply, hfinal] at hencoding
  have hcols := hm.encoder.2.ensures_cols (Or.inl hm.encoder.1) true encoding hencoding
  have hbounded := Perceptron.ensures_bounded_run htanh (Or.inl hm.encoder.1) encoding hencoding
  exact ⟨⟨hrows.trans hinputs.rows_eq, hcols⟩, hbounded⟩

/-- What is true of the nodes after the given number of rounds. -/
theorem ensures_bounded_rounds (hm : m.Drawn c) (hfinal : m.encoder.activateFinal = true)
    (hc : i.Checked c) (rounds : ℕ) : Ensures (m.encodeRounds rounds i) fun s =>
      s.Bounded i.numNodes c.encodingWidth.toNat ∧ (0 < rounds → s.shares.rows = i.numNodes ∧
        ∀ line ∈ s.shares.lines, Simplex.Proportions line) := by
  have hstep : ∀ s : NodeState K, s.Bounded i.numNodes c.encodingWidth.toNat →
      Ensures (m.round i.hops s) _ := fun s => ensures_bounded_round hpos hzero htanh hm hc
  rw [encodeRounds, ← bind_assoc]
  refine (ensures_bounded_start htanh hm hfinal hc).bind fun encoding hencoding => ?_
  cases rounds with
  | zero => exact ensures_pure ⟨⟨hencoding.1, hencoding.2⟩, fun h => absurd h (lt_irrefl 0)⟩
  | succ rounds =>
    rw [iterate_succ]
    refine (Ensures.iterate (P := fun s : NodeState K =>
      s.Bounded i.numNodes c.encodingWidth.toNat) (fun s hs => (hstep s hs).mono fun _ h => h.1)
      rounds ⟨hencoding.1, hencoding.2⟩).bind fun s hs => ?_
    exact (hstep s hs).mono fun next hnext => ⟨hnext.1, fun _ => hnext.2⟩

/-- However many rounds a new model runs on an accepted instance: the encodings stay between -1 and 1, and
so do the messages that are sent next; the hops are mixed in proportions at every node, whether or not it
has neighbors. The rounds and the messages exist. -/
theorem encodeRounds_bounded [LawfulBacking M] {σ : Type} {next : StateM σ K} {source : σ}
    (hdraw : draw next c source = .ok m) (hcheck : i.check c = .ok ()) (rounds : ℕ) :
    (Ensures (m.encodeRounds rounds i) fun s => s.encoding.Bounded ∧
      (0 < rounds → s.shares.rows = i.numNodes ∧
        ∀ line ∈ s.shares.lines, Simplex.Proportions line) ∧
      Ensures (m.attention.apply s.encoding i.hops) (·.Bounded i.numNodes)) ∧
    (i.hops.OnNodes i.hops.numNodes → ∃ s sent, m.encodeRounds rounds i = .ok s ∧
      m.attention.apply s.encoding i.hops = .ok sent) := by
  have hm := ensures_drawn next c source m hdraw
  have hfinal := ensures_activateFinal next c source m hdraw
  have hc := i.ensures_checked c () hcheck
  constructor
  · refine (ensures_bounded_rounds hpos hzero htanh hm hfinal hc rounds).mono fun s hs => ?_
    refine ⟨hs.1.encoding, hs.2, ?_⟩
    exact (ensures_sent hpos hzero htanh hc hs.1).mono fun _ hsent => hsent.2
  · intro hhops
    rw [hc.hops] at hhops
    obtain ⟨s, hs, hshape⟩ := encodeRounds_yields hm hhops hc rounds
    obtain ⟨sent, hsent, -⟩ := hm.attention_fits.apply hhops hshape
    exact ⟨s, sent, hs, hsent⟩

omit hpos hzero htanh

theorem encodeRounds_bounded_small :
    (∀ a : ℝ, 0 < Scalar.exp a) ∧ Scalar.exp (0 : ℝ) = 1 ∧ TanhBounded ℝ ∧
    ∃ (m : FlowModel ℝ) (s : NodeState ℝ) (sent : HopAttention.Message ℝ),
      draw (pure 1) smallSettings () = .ok m ∧ smallInstance.check smallSettings = .ok () ∧
      m.encodeRounds 5 smallInstance = .ok s ∧ s.encoding.Bounded ∧
      (∀ line ∈ s.shares.lines, Simplex.Proportions line) ∧
      m.attention.apply s.encoding smallInstance.hops = .ok sent ∧ sent.Bounded 2 := by
  have htanh : TanhBounded ℝ := fun a => (Real.abs_tanh_lt_one a).le
  have hcheck : smallInstance.check smallSettings = .ok () :=
    FlowInstance.check_eq_ok_iff.2 smallInstance_accepted
  obtain ⟨m, hm, -⟩ := draw_yields (pure 1) smallSettings_valid smallSettings_headsFit ()
  obtain ⟨hbounded, hexists⟩ :=
    encodeRounds_bounded Real.exp_pos Real.exp_zero htanh hm hcheck 5
  obtain ⟨s, sent, hs, hsent⟩ := hexists smallInstance_assembled.onNodes
  obtain ⟨hencoding, hshares, hsend⟩ := hbounded s hs
  exact ⟨Real.exp_pos, Real.exp_zero, htanh, m, s, sent, hm, hcheck, hs, hencoding,
    (hshares (by norm_num)).2, hsent, hsend sent hsent⟩

end FlowModel

end NeuralFlow
