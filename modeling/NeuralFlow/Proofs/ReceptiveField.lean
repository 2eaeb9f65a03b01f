import Mathlib
import NeuralFlow.Proofs.Acceptance
import NeuralFlow.Proofs.Aligned.Layers
import NeuralFlow.Proofs.Validation
import NeuralFlow.Proofs.Walks

/-! The receptive field of a node. In a round of message passing a node looks at the ends of its hops and
at nothing else: the weights and the mean of a row are made from this row. So after the last round a
node knows of the nodes within as many edges as all rounds together can go, and of no others. -/

namespace NeuralFlow

open EdgeMatrix LawfulBacking

def Among (s : Set ℕ) (u v : ℕ) : Prop := u = v ∧ u ∈ s

theorem Among.mono {s t : Set ℕ} (h : s ⊆ t) (u v : ℕ) (huv : Among s u v) : Among t u v :=
  ⟨huv.1, h huv.2⟩

def SameLine {α : Type} (u : ℕ) (x y : Grid α) : Prop :=
  ∃ line, x.lines[u]? = some line ∧ y.lines[u]? = some line

theorem AlignedLines.sameLine {n : ℕ} {s : Set ℕ} {α : Type} {x y : Grid α}
    (h : AlignedLines n (Among s) x y) {u : ℕ} (hu : u < n) (hus : u ∈ s) : SameLine u x y := by
  have hx : u < x.lines.length := h.lines.length_left.symm ▸ hu
  have hline := List.getElem?_eq_getElem hx
  exact ⟨_, hline, (h.lines.getElem? u u hu hu ⟨rfl, hus⟩).trans hline⟩

/-- Tables with a line for each node are aligned along nodes where they have the same line. -/
theorem alignedLines_among {n : ℕ} {s : Set ℕ} {α : Type} {x y : Grid α} (hx : x.rows = n)
    (hy : y.rows = n) {u : ℕ} (hu : u < n) (hus : u ∈ s)
    (h : ∀ v ∈ s, x.lines[v]? = y.lines[v]?) : AlignedLines n (Among s) x y := by
  refine ⟨?_, hx, hy, ?_⟩
  · -- the lines of one common node have the widths of both tables
    have hline := List.getElem?_eq_getElem (l := x.lines) (hx.symm ▸ hu)
    have hline' := (h u hus).symm.trans hline
    rw [← x.width_eq _ (List.mem_of_getElem? hline), y.width_eq _ (List.mem_of_getElem? hline')]
  · rintro v _ _ _ ⟨rfl, hv⟩
    exact (h v hv).symm

section Rows

variable {M : Type → Type} [EdgeMatrix M] {α : Type}

structure SameRows [LawfulBacking M] [Scalar α] (hop : M α) (t : Set ℕ) (a b : M α) : Prop where
  left : OnPattern hop a
  right : OnPattern hop b
  row_eq : ∀ u ∈ t, u < numNodes hop → row a u = row b u

def LeadsInto (hop : M α) (t s : Set ℕ) : Prop :=
  ∀ u v, (u, v) ∈ pattern hop → u ∈ t → v ∈ s

theorem LeadsInto.of_mem_row {hop a : M α} {s t : Set ℕ} (h : LeadsInto hop t s)
    (hp : pattern a = pattern hop) {u : ℕ} (hu : u ∈ t) {e : Edge α} (he : e ∈ row a u) :
    e.dst ∈ s := by
  obtain ⟨hmem, rfl⟩ := mem_row_iff.1 he
  exact h _ _ (hp ▸ mem_pattern_of_mem hmem) hu

namespace SameRows

variable [LawfulBacking M] [Scalar α] {hop a b : M α} {s t : Set ℕ}

/-- What is listed alike for the ends of the edges of some nodes makes the same rows there. -/
theorem lookUpEnds {β γ : Type} (h : Square hop) (hts : t ⊆ s) (hl : LeadsInto hop t s)
    {xs xs' : List β} {ys ys' : List γ} (hx : Aligned (numNodes hop) (Among s) xs xs')
    (hy : Aligned (numNodes hop) (Among s) ys ys') (f : β → γ → α) :
    Agree (SameRows hop t)
      (withValuesM hop fun u v _ => do
        let x ← orFault .indexOutOfRange xs[u]?
        let y ← orFault .indexOutOfRange ys[v]?
        return f x y : Outcome α (M α))
      (withValuesM hop fun u v _ => do
        let x ← orFault .indexOutOfRange xs'[u]?
        let y ← orFault .indexOutOfRange ys'[v]?
        return f x y : Outcome α (M α)) := by
  rw [lookUpEnds_ok h hx.length_left hy.length_left, lookUpEnds_ok h hx.length_right hy.length_right]
  refine .ok ⟨onPattern_withValues h _, onPattern_withValues h _, fun u hut hu => ?_⟩
  rw [row_withValues h, row_withValues h]
  refine List.map_congr_left fun e he => ?_
  have hdst := hl.of_mem_row rfl hut he
  obtain ⟨hmem, rfl⟩ := mem_row_iff.1 he
  have hv := (ends_lt h e hmem).2
  rw [atEnds, atEnds, hx.getElem? _ _ hu hu ⟨rfl, hts hut⟩, hy.getElem? _ _ hv hv ⟨rfl, hdst⟩]

theorem mapRows (h : SameRows hop t a b) (f : ℕ → List ℕ → List α → List α) :
    SameRows hop t (EdgeMatrix.mapRows a f) (EdgeMatrix.mapRows b f) where
  left := h.left.trans (onPattern_mapRows h.left.square h.left.cleared f)
  right := h.right.trans (onPattern_mapRows h.right.square h.right.cleared f)
  row_eq u hut hu := row_mapRows_congr h.left.square h.right.square h.left.cleared h.right.cleared f
    (h.left.nodes.symm ▸ hu) (h.right.nodes.symm ▸ hu) (h.row_eq u hut hu)

end SameRows

variable [ExactBacking M] {K : Type} [ExactScalar K] {hop a b : M K} {s t : Set ℕ}

/-- The line of a node in a product is made from its row and the lines at the ends of its edges. -/
theorem SameRows.times (h : SameRows hop t a b) (hl : LeadsInto hop t s) {x y : Grid K}
    (hxy : AlignedLines (numNodes hop) (Among s) x y) :
    Agree (AlignedLines (numNodes hop) (Among t)) (EdgeMatrix.times a x) (EdgeMatrix.times b y) := by
  have hx : x.rows = numNodes a := hxy.rows_left.trans h.left.nodes.symm
  have hy : y.rows = numNodes b := hxy.rows_right.trans h.right.nodes.symm
  obtain ⟨p, hp, -, hcols⟩ := times_shape h.left.square hx
  obtain ⟨q, hq, -, hcols'⟩ := times_shape h.right.square hy
  rw [hp, hq]
  refine .ok ⟨by rw [hcols, hcols', hxy.cols], ?_⟩
  rw [ExactBacking.times_eq h.left.square h.left.cleared hx hp,
    ExactBacking.times_eq h.right.square h.right.cleared hy hq, productLines, productLines,
    h.left.nodes, h.right.nodes]
  refine .range ?_
  rintro u _ hu _ ⟨rfl, hut⟩
  rw [← h.row_eq u hut hu, hxy.cols]
  refine List.map_congr_left fun j _ => congrArg List.sum (List.map_congr_left fun e he => ?_)
  have hdst : e.dst < numNodes hop :=
    h.left.nodes ▸ (ends_lt h.left.square e (mem_row_iff.1 he).1).2
  rw [hxy.entry hdst hdst ⟨rfl, hl.of_mem_row h.left.pattern hut he⟩]

/-- In a hop that leads from some nodes to others, the heads of the former look at the latter only. -/
theorem HopAttention.carriesHeads_among (h : Square hop) (hts : t ⊆ s) (hl : LeadsInto hop t s) :
    CarriesHeads (numNodes hop) (Among s) (Among t) hop hop := by
  intro attention p q head hpq
  refine (aligned_head hpq _ _).bind fun own own' hown => ?_
  refine (SameRows.lookUpEnds h hts hl hown.query.lines hown.key.lines fun query key =>
    Scalar.dot query key / Scalar.sqrt (attention.headWidth : K)).bind fun raw raw' hraw => ?_
  have hweights := hraw.mapRows fun _ _ row => Simplex.softmax row
  refine (hweights.times hl hown.value).bind fun mean mean' hmean => ?_
  rw [hpq.query.rows_left, hpq.query.rows_right]
  exact Agree.orFault_rel hmean.stretchLines?

end Rows

def reachable {M : Type → Type} [EdgeMatrix M] {α : Type} (graph : M α) (limit u : ℕ) : Set ℕ :=
  {v | ∃ k ≤ limit, Walk graph k u v}

theorem reachable_mono {M : Type → Type} [EdgeMatrix M] {α : Type} {graph : M α} {limit limit' u : ℕ}
    (h : limit ≤ limit') : reachable graph limit u ⊆ reachable graph limit' u := by
  rintro v ⟨k, hk, hwalk⟩
  exact ⟨k, hk.trans h, hwalk⟩

/-- An instance on a graph, with the hops that a rule builds from it and a line of inputs for each
node. -/
structure FlowInstance.OnGraph {M : Type → Type} [EdgeMatrix M] {α : Type} [Scalar α] (graph : M α)
    (rule : HopRule) (i : FlowInstance M α) : Prop where
  adjacency : i.adjacency = graph
  hops : rule.build graph = .ok i.hops
  embeddings : i.embeddings.rows = EdgeMatrix.numNodes graph
  features : i.features.rows = EdgeMatrix.numNodes graph

namespace FlowModel

variable {M : Type → Type} [EdgeMatrix M] [ExactBacking M] {K : Type} [ExactScalar K] {graph : M K}
  {rule : HopRule} {i j : FlowInstance M K}

/-- The hops of a graph lead as far as the rule says. -/
theorem carriesHeads_hops (hgraph : Square graph) {set : HopSet M K}
    (hset : rule.build graph = .ok set) (limit u : ℕ) :
    List.Forall₂ (HopAttention.CarriesHeads (numNodes graph)
      (Among (reachable graph (limit + rule.maxHop) u)) (Among (reachable graph limit u)))
      set.hops set.hops := by
  obtain ⟨set', hset', hsize, hhops⟩ := rule.build_isHop rfl hgraph
  obtain rfl : set = set' := Except.ok.inj (hset.symm.trans hset')
  refine List.forall₂_same.2 fun hop hmem => ?_
  obtain ⟨k, hk, rfl⟩ := List.getElem_of_mem hmem
  have hhop := hhops k _ (List.getElem?_eq_getElem hk)
  have hmax : k < rule.maxHop + 1 := hsize ▸ hk
  rw [← hhop.nodes]
  refine HopAttention.carriesHeads_among hhop.square (reachable_mono (Nat.le_add_right _ _)) ?_
  rintro w v hwv ⟨l, hl, hwalk⟩
  have hedge := ((hhop.mem_pattern w v).1 hwv).walk
  exact ⟨l + k, by omega, hwalk.append hedge⟩

/-- Two runs that start alike at all nodes that the rounds can reach from a node end alike there. -/
theorem aligned_encodeRounds (m : FlowModel K) (rounds : ℕ) (hgraph : Square graph)
    (hi : i.OnGraph graph rule) (hj : j.OnGraph graph rule) {u : ℕ}
    (he : AlignedLines (numNodes graph) (Among (reachable graph (rule.maxHop * rounds) u))
      i.embeddings j.embeddings)
    (hf : AlignedLines (numNodes graph) (Among (reachable graph (rule.maxHop * rounds) u))
      i.features j.features) :
    Agree (NodeState.Aligned (numNodes graph) (Among (reachable graph 0 u)))
      (m.encodeRounds rounds i) (m.encodeRounds rounds j) := by
  have hhops : j.hops = i.hops := Except.ok.inj (hj.hops.symm.trans hi.hops)
  have hnodes : i.numNodes = numNodes graph := congrArg numNodes hi.adjacency
  have hnodes' : j.numNodes = numNodes graph := congrArg numNodes hj.adjacency
  rw [encodeRounds, encodeRounds, hhops, hnodes, hnodes']
  refine (aligned_nodeInputs he hf).bind fun inputs inputs' hinputs => ?_
  refine (Perceptron.aligned_run _ _ hinputs).bind fun encoding encoding' hencoding => ?_
  -- with `k` rounds to go, the runs are alike at the nodes that `k` rounds can reach
  refine Agree.iterate_down (R := fun k => NodeState.Aligned (numNodes graph)
    (Among (reachable graph (rule.maxHop * k) u))) (fun k s t hst => ?_) rounds
    ⟨hencoding, .zeros _⟩
  have hcarries := carriesHeads_hops hgraph hi.hops (rule.maxHop * k) u
  rw [← Nat.mul_succ] at hcarries
  have hle : rule.maxHop * k ≤ rule.maxHop * (k + 1) := Nat.mul_le_mul_left _ (Nat.le_succ k)
  exact m.aligned_round (Among.mono (reachable_mono hle)) hcarries hst.encoding

/-- What a node knows after all rounds it knows from the nodes in its reach: two runs that start alike
there end alike at the node, whatever all other nodes start with. -/
theorem encode_within_reach (m : FlowModel K) (hgraph : Square graph) (hi : i.OnGraph graph rule)
    (hj : j.OnGraph graph rule) {u : ℕ} (hu : u < numNodes graph)
    (hsame : ∀ v ∈ reachable graph (rule.maxHop * m.settings.rounds.toNat) u,
      i.embeddings.lines[v]? = j.embeddings.lines[v]? ∧
        i.features.lines[v]? = j.features.lines[v]?) :
    Agree (fun s t => SameLine u s.encoding t.encoding ∧ SameLine u s.shares t.shares)
        (m.encode i) (m.encode j) ∧
      (m.Drawn m.settings → i.check m.settings = .ok () →
        Yields (m.encode i) fun s => Yields (m.encode j) fun t =>
          SameLine u s.encoding t.encoding ∧ SameLine u s.shares t.shares) := by
  have hself : ∀ limit, u ∈ reachable graph limit u := fun _ => ⟨0, Nat.zero_le _, .stay hu⟩
  have hembeddings := alignedLines_among hi.embeddings hj.embeddings hu (hself _)
    fun v hv => (hsame v hv).1
  have hfeatures := alignedLines_among hi.features hj.features hu (hself _)
    fun v hv => (hsame v hv).2
  have hagree := (m.aligned_encodeRounds _ hgraph hi hj hembeddings hfeatures).mono
    fun s t hst => And.intro
      (hst.encoding.sameLine hu (hself _)) (hst.shares.sameLine hu (hself _))
  refine ⟨hagree, fun hdrawn hcheck => ?_⟩
  obtain ⟨hon, hn⟩ := rule.onNodes_build i.hops hi.hops
  rw [← hi.adjacency] at hon
  obtain ⟨s, hs, -⟩ := encode_yields hdrawn hon (i.ensures_checked _ () hcheck)
  obtain ⟨t, ht, hst⟩ := hagree.yields hs
  exact ⟨s, hs, t, ht, hst⟩

noncomputable def pathGraph : SparseMatrix ℝ := .compress 3 3 [⟨0, 1, 1⟩, ⟨1, 2, 1⟩]

theorem square_pathGraph : Square pathGraph :=
  SparseMatrix.square_compress (by simp [RowOrdered, Edge.Before]) (by simp)

theorem edges_pathGraph : edges pathGraph = [⟨0, 1, 1⟩, ⟨1, 2, 1⟩] :=
  SparseMatrix.edges_compress (by simp [RowOrdered, Edge.Before]) (by simp)

noncomputable def pathInstance (hops : HopSet SparseMatrix ℝ) (last : ℝ) :
    FlowInstance SparseMatrix ℝ where
  adjacency := pathGraph
  demands := [1, 0, -1]
  hops
  embeddings := .ofColumns 3 [[0, 0, last]]
  features := .zeros 3 1
  capacities := some pathGraph

variable {hops : HopSet SparseMatrix ℝ} (h : HopRule.build ⟨1, true⟩ pathGraph = .ok hops)
include h

theorem pathInstance_onGraph (last : ℝ) : (pathInstance hops last).OnGraph pathGraph ⟨1, true⟩ where
  adjacency := rfl
  hops := h
  embeddings := (Grid.shaped_ofColumns 3 _).rows_eq
  features := (Grid.shaped_zeros 3 1).rows_eq

theorem pathInstance_accepted (last : ℝ) : (pathInstance hops last).Accepted smallSettings where
  demands := rfl
  hops := (HopRule.onNodes_build _ hops h).2
  embeddings := Grid.shaped_ofColumns 3 _
  features := Grid.shaped_zeros 3 1
  capacities _ := ⟨_, rfl, (samePattern_iff square_pathGraph square_pathGraph).2 ⟨rfl, rfl⟩⟩
  backing := rfl
  size := by
    obtain ⟨s, hs, hsize, -⟩ := HopRule.build_isHop rfl ⟨1, true⟩ square_pathGraph
    obtain rfl : hops = s := Except.ok.inj (h.symm.trans hs)
    exact ⟨2, rfl, hsize⟩
  positive _ capacities hcap := by
    cases hcap
    simp [edges_pathGraph]

omit h in
/-- One round with hops of one edge: what the last node starts with does not reach the first one. -/
theorem encode_within_reach_path :
    ∃ (m : FlowModel ℝ) (hops : HopSet SparseMatrix ℝ), draw (pure 1) smallSettings () = .ok m ∧
      Square pathGraph ∧ (pathInstance hops 0).OnGraph pathGraph ⟨1, true⟩ ∧
      (pathInstance hops 5).OnGraph pathGraph ⟨1, true⟩ ∧ 0 < numNodes pathGraph ∧
      (pathInstance hops 0).embeddings ≠ (pathInstance hops 5).embeddings ∧
      Yields (m.encode (pathInstance hops 0)) fun s =>
        Yields (m.encode (pathInstance hops 5)) fun t =>
          SameLine 0 s.encoding t.encoding ∧ SameLine 0 s.shares t.shares := by
  have hpos : 0 < numNodes pathGraph := Nat.zero_lt_succ 2
  obtain ⟨m, hm, hdrawn⟩ := draw_yields (pure 1) smallSettings_valid smallSettings_headsFit ()
  have hsettings := hdrawn.settings_eq
  obtain ⟨hops, hhops, -⟩ := HopRule.build_isHop rfl ⟨1, true⟩ square_pathGraph
  have hi := pathInstance_onGraph hhops 0
  have hj := pathInstance_onGraph hhops 5
  refine ⟨m, hops, hm, square_pathGraph, hi, hj, hpos, ?_, ?_⟩
  · intro heq
    have hline := congrArg (fun x : Grid ℝ => x.lines[2]?) heq
    simp [pathInstance, Grid.ofColumns] at hline
  · refine (encode_within_reach m square_pathGraph hi hj hpos ?_).2 (hsettings.symm ▸ hdrawn)
      (hsettings.symm ▸ FlowInstance.check_eq_ok_iff.2 (pathInstance_accepted hhops 0))
    rw [hsettings]
    rintro v ⟨k, hk, hwalk⟩
    refine ⟨?_, rfl⟩
    have hv : v = 0 ∨ v = 1 := by
      have hone : k ≤ 1 := hk
      interval_cases k
      · exact Or.inl (Walk.zero_iff.1 hwalk).1.symm
      · obtain ⟨w, hzero, hedge⟩ := Walk.succ_iff.1 hwalk
        obtain ⟨rfl, -⟩ := Walk.zero_iff.1 hzero
        exact Or.inr (by simpa [pattern, edges_pathGraph] using hedge)
    rcases hv with rfl | rfl
    · rfl
    · rfl

end FlowModel

end NeuralFlow
