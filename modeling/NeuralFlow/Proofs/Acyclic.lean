import Mathlib
import NeuralFlow.Proofs.Canonical
import NeuralFlow.Proofs.Redistribution
import NeuralFlow.Proofs.Walks

/-! Redistribution on graphs without directed cycles. What a node passes on depends on the edges into it
in the round before, so the flow out of a node is final one round after the flow out of all nodes
before it. No law of arithmetic is needed for this, only that the sum over a column looks at this
column alone. -/

namespace NeuralFlow

open EdgeMatrix LawfulBacking

namespace EdgeMatrix

section Columns

variable {M : Type → Type} [EdgeMatrix M] {α : Type}

def column (a : M α) (v : ℕ) : List (Edge α) := (edges a).filter (·.dst == v)

theorem mem_column_iff {a : M α} {v : ℕ} {e : Edge α} :
    e ∈ column a v ↔ e ∈ edges a ∧ e.dst = v := by
  rw [column, List.mem_filter, beq_iff_eq]

theorem pattern_subset_of_column {a b : M α} {v : ℕ} (h : column a v = column b v) {u : ℕ}
    (huv : (u, v) ∈ pattern a) : (u, v) ∈ pattern b := by
  obtain ⟨x, he⟩ := exists_edge huv
  exact mem_pattern_of_mem (mem_column_iff.1 (h ▸ mem_column_iff.2 ⟨he, rfl⟩)).1

variable [LawfulBacking M] [Scalar α]

/-- The entries of a column are known by its edges. -/
theorem entry_congr {a b : M α} (ha : Square a ∧ Cleared a) (hb : Square b ∧ Cleared b)
    (hn : numNodes a = numNodes b) {u v : ℕ} (hu : u < numNodes a) (hv : v < numNodes a)
    (h : column a v = column b v) : entry a u v = entry b u v := by
  by_cases huv : (u, v) ∈ pattern a
  · obtain ⟨x, he⟩ := exists_edge huv
    have he' : (⟨u, v, x⟩ : Edge α) ∈ edges b :=
      (mem_column_iff.1 (h ▸ mem_column_iff.2 ⟨he, rfl⟩)).1
    exact (entry_of_mem ha.1 he).trans (entry_of_mem hb.1 he').symm
  · have huv' : (u, v) ∉ pattern b := fun hmem => huv (pattern_subset_of_column h.symm hmem)
    rw [entry_eq_zero ha.1 ha.2 hu hv huv, entry_eq_zero hb.1 hb.2 (hn ▸ hu) (hn ▸ hv) huv']

end Columns

end EdgeMatrix

/-- A backing whose sum over a column is made from the edges of this column. -/
class ColumnwiseBacking (M : Type → Type) [EdgeMatrix M] [LawfulBacking M] : Prop where
  colSums_congr {α : Type} [Scalar α] {a b : M α} : Square a ∧ Cleared a → Square b ∧ Cleared b →
    numNodes a = numNodes b → ∀ v < numNodes a, column a v = column b v →
    (colSums a).getD v 0 = (colSums b).getD v 0

theorem DenseMatrix.columnValues_eq {α : Type} [Scalar α] (a : DenseMatrix α) (v : ℕ) :
    columnValues a.cells.lines v = (List.range (numNodes a)).map fun u => entry a u v := by
  refine List.ext_getElem (by simp [columnValues, EdgeMatrix.numNodes, Grid.rows]) fun u hu _ => ?_
  have hlt : u < a.cells.lines.length := by simpa [columnValues] using hu
  simp [columnValues, entry, EdgeMatrix.get?, Grid.get?, hlt]

instance : ColumnwiseBacking DenseMatrix where
  colSums_congr {_ _ a b} ha hb hn v hv h := by
    have hcols : v < a.cells.cols := hv.trans_eq ha.1
    have hcols' : v < b.cells.cols := (hv.trans_eq hn).trans_eq hb.1
    change a.colSums.getD v 0 = b.colSums.getD v 0
    rw [DenseMatrix.getD_colSums hcols, DenseMatrix.getD_colSums hcols', DenseMatrix.columnValues_eq,
      DenseMatrix.columnValues_eq, ← hn]
    refine congrArg Scalar.runningSum (List.map_congr_left fun u hu => ?_)
    exact entry_congr ha hb hn (List.mem_range.1 hu) hv h

instance : ColumnwiseBacking SparseMatrix where
  colSums_congr {α _ a b} ha hb hn v hv h := by
    have hsum : ∀ c : SparseMatrix α, Square c → v < numNodes c →
        (colSums c).getD v 0 = columnSum c v := by
      intro c hc hlt
      obtain ⟨es, hes, hends, hce⟩ := hc
      have hcols := SparseMatrix.colSums_eq_columnSum hes fun e he => (hends e he).1
      rw [← hce] at hcols
      change c.colSums.getD v 0 = _
      rw [hcols]
      have hlt' : v < c.rows := hlt
      simp [hlt']
    rw [hsum a ha.1 hv, hsum b hb.1 (hn ▸ hv)]
    exact congrArg (fun es => Scalar.runningSum (es.map Edge.value)) h

/-! Graphs without directed cycles. -/

section Graphs

variable {M : Type → Type} [EdgeMatrix M] {α : Type} {a : M α}

/-- No walk comes back to where it started. Then no walk meets a node twice, so walks are paths. -/
def Acyclic (a : M α) : Prop := ∀ k u, ¬ Walk a (k + 1) u u

/-- The number of edges of a longest path that ends at a node. -/
def IsDepth (a : M α) (d v : ℕ) : Prop := IsGreatest {k | ∃ u, Walk a k u v} d

/-- Where all edges lead to higher numbers a walk rises with every edge. -/
theorem Walk.add_le_of_forward (h : ∀ u v, (u, v) ∈ pattern a → u < v) {k u v : ℕ}
    (hw : Walk a k u v) : u + k ≤ v := by
  induction hw with
  | stay _ => exact le_rfl
  | step _ he ih =>
    have hlt := h _ _ he
    omega

theorem acyclic_of_forward (h : ∀ u v, (u, v) ∈ pattern a → u < v) : Acyclic a := by
  intro k u hw
  have hle := hw.add_le_of_forward h
  omega

variable [LawfulBacking M]

/-- On the way to its last node a walk meets a new node with every edge. -/
theorem Acyclic.exists_nodes (ha : Square a) (h : Acyclic a) {k u v : ℕ} (hw : Walk a k u v) :
    ∃ nodes : Finset ℕ, nodes.card = k + 1 ∧ ∀ w ∈ nodes, ∃ j, Walk a j w v := by
  induction hw with
  | stay hu => exact ⟨{_}, rfl, fun w hw => ⟨0, Finset.mem_singleton.1 hw ▸ .stay hu⟩⟩
  | @step k u w v hw he ih =>
    obtain ⟨nodes, hcard, hreach⟩ := ih
    have hnew : v ∉ nodes := by
      intro hv
      obtain ⟨j, hj⟩ := hreach v hv
      exact h j v (hj.step he)
    refine ⟨insert v nodes, ?_, fun x hx => ?_⟩
    · rw [Finset.card_insert_of_notMem hnew, hcard]
    · rcases Finset.mem_insert.1 hx with rfl | hx
      · exact ⟨0, .stay ((hw.step he).ends_lt ha).2⟩
      · obtain ⟨j, hj⟩ := hreach x hx
        exact ⟨j + 1, hj.step he⟩

/-- So a walk has fewer edges than the graph has nodes. -/
theorem Acyclic.walk_lt (ha : Square a) (h : Acyclic a) {k u v : ℕ} (hw : Walk a k u v) :
    k < numNodes a := by
  obtain ⟨nodes, hcard, hreach⟩ := h.exists_nodes ha hw
  have hsub : nodes ⊆ Finset.range (numNodes a) := by
    intro w hw
    obtain ⟨j, hj⟩ := hreach w hw
    exact Finset.mem_range.2 (hj.ends_lt ha).1
  have hle := Finset.card_le_card hsub
  rw [hcard, Finset.card_range] at hle
  exact hle

theorem Acyclic.exists_isDepth (ha : Square a) (h : Acyclic a) {v : ℕ} (hv : v < numNodes a) :
    ∃ d < numNodes a, IsDepth a d v := by
  have hbound : BddAbove {k | ∃ u, Walk a k u v} :=
    ⟨numNodes a, fun _ ⟨_, hw⟩ => (h.walk_lt ha hw).le⟩
  have hsome : {k | ∃ u, Walk a k u v}.Nonempty := ⟨0, v, .stay hv⟩
  have hmem := Nat.sSup_mem hsome hbound
  obtain ⟨u, hw⟩ := id hmem
  exact ⟨_, h.walk_lt ha hw, hmem, fun _ hk => le_csSup hbound hk⟩

end Graphs

/-! Rounds settle node after node. -/

namespace Redistribution

section Rounds

variable {M : Type → Type} [EdgeMatrix M] [LawfulBacking M] {α : Type} [Scalar α] {weights : M α}
  {demands : List α}

theorem row_spread (hw : Square weights) (amounts : List α) (v : ℕ) :
    row (spread weights amounts) v =
      (row weights v).map fun e => { e with value := e.value * amounts.getD v 0 } := by
  rw [spread, row_withValues hw]
  refine List.map_congr_left fun e he => ?_
  rw [(mem_row_iff.1 he).2]

/-- The edges into a node are known by the edges out of the nodes before it. -/
theorem column_congr {a b : M α} (ha : OnPattern weights a) (hb : OnPattern weights b) {v : ℕ}
    (h : ∀ u, (u, v) ∈ pattern weights → row a u = row b u) : column a v = column b v := by
  have hsub : ∀ {c d : M α}, OnPattern weights c →
      (∀ u, (u, v) ∈ pattern weights → row c u = row d u) → ∀ e ∈ column c v, e ∈ column d v := by
    intro c d hc hrow e he
    obtain ⟨hmem, rfl⟩ := mem_column_iff.1 he
    have hsame := hrow e.src (hc.pattern ▸ mem_pattern_of_mem hmem)
    exact mem_column_iff.2 ⟨(mem_row_iff.1 (hsame ▸ mem_row_iff.2 ⟨hmem, rfl⟩)).1, rfl⟩
  refine ((rowOrdered ha.square).filter _).eq_of_mem_iff ((rowOrdered hb.square).filter _) fun e => ?_
  exact ⟨hsub ha h e, hsub hb (fun u hu => (h u hu).symm) e⟩

variable [ColumnwiseBacking M]

/-- A round passes on from a node what came into it. -/
theorem row_nextFlow_congr (hw : Square weights) (hd : demands.length = numNodes weights) {a b : M α}
    (ha : OnPattern weights a) (hb : OnPattern weights b) {v : ℕ} (hv : v < numNodes weights)
    (h : column a v = column b v) :
    row (nextFlow weights demands a) v = row (nextFlow weights demands b) v := by
  have hexcess : ∀ {c : M α}, OnPattern weights c → (excess demands c).getD v 0 =
      Scalar.relu ((colSums c).getD v 0 + demands.getD v 0) := by
    intro c hc
    have hcols : v < (colSums c).length := by rwa [length_colSums hc.square, hc.nodes]
    simp [excess, hcols, hd.symm ▸ hv]
  have hsum := ColumnwiseBacking.colSums_congr ⟨ha.square, ha.cleared⟩ ⟨hb.square, hb.cleared⟩
    (ha.nodes.trans hb.nodes.symm) v (ha.nodes.symm ▸ hv) h
  rw [nextFlow, nextFlow, row_spread hw, row_spread hw, hexcess ha, hexcess hb, hsum]

/-- What comes into a node is the same after as many rounds as the walks to it have edges, and after
any more. -/
theorem column_settled (hw : Square weights) (hd : demands.length = numNodes weights) {k v : ℕ}
    (hv : v < numNodes weights) (hk : ∀ u, ¬ Walk weights (k + 1) u v) {s t : ℕ} (hs : k ≤ s)
    (ht : k ≤ t) : column ((nextFlow weights demands)^[s] (still weights)) v =
      column ((nextFlow weights demands)^[t] (still weights)) v := by
  have hon := fun r => (flowAfter_ok hw hd r).2
  induction k generalizing v s t with
  | zero =>
    refine column_congr (hon s) (hon t) fun u huv => ?_
    exact absurd (.step (.stay (lt_of_mem_pattern hw huv).1) huv) (hk u)
  | succ k ih =>
    obtain ⟨s, rfl⟩ := Nat.exists_eq_add_of_le' hs
    obtain ⟨t, rfl⟩ := Nat.exists_eq_add_of_le' ht
    refine column_congr (hon _) (hon _) fun u huv => ?_
    have hu := (lt_of_mem_pattern hw huv).1
    have hbefore := ih hu (fun w hwalk => hk w (hwalk.step huv)) (Nat.le_add_left k s)
      (Nat.le_add_left k t)
    rw [← Nat.add_assoc, ← Nat.add_assoc, Function.iterate_succ_apply', Function.iterate_succ_apply']
    exact row_nextFlow_congr hw hd (hon _) (hon _) hu hbefore

/-- The flow out of a node is final one round after what comes in. -/
theorem row_settled (hw : Square weights) (hd : demands.length = numNodes weights) {d v : ℕ}
    (hv : v < numNodes weights) (hdepth : IsDepth weights d v) {t : ℕ} (ht : d + 1 ≤ t) :
    row ((nextFlow weights demands)^[t] (still weights)) v =
      row ((nextFlow weights demands)^[d + 1] (still weights)) v := by
  have hnone : ∀ u, ¬ Walk weights (d + 1) u v := fun u hwalk =>
    Nat.not_succ_le_self d (hdepth.2 ⟨u, hwalk⟩)
  have hon := fun r => (flowAfter_ok hw hd r).2
  obtain ⟨t, rfl⟩ := Nat.exists_eq_add_of_le' ht
  rw [← Nat.add_assoc, Function.iterate_succ_apply', Function.iterate_succ_apply']
  exact row_nextFlow_congr hw hd (hon _) (hon _) hv
    (column_settled hw hd hv hnone (Nat.le_add_left d t) le_rfl)

/-- On a graph without directed cycles the flow out of a node is final after one round more than a
longest path to it has edges. So after as many rounds as there are nodes the whole flow is final, and
its residual. -/
theorem solve_settles_of_acyclic [CanonicalBacking M] (hw : Square weights)
    (hacyclic : Acyclic weights) (hd : demands.length = numNodes weights) :
    (∀ v < numNodes weights, ∃ d < numNodes weights, IsDepth weights d v ∧
      ∃ out, ∀ t, d + 1 ≤ t → Yields (solve t weights demands) (row ·.flow v = out)) ∧
    ∃ flow residual, ∀ t, numNodes weights ≤ t →
      Yields (solve t weights demands) fun s => s.flow = flow ∧ s.residual = residual := by
  have hon := fun r => (flowAfter_ok hw hd r).2
  constructor
  · intro v hv
    obtain ⟨d, hlt, hdepth⟩ := hacyclic.exists_isDepth hw hv
    refine ⟨d, hlt, hdepth, row ((nextFlow weights demands)^[d + 1] (still weights)) v,
      fun t ht => ?_⟩
    obtain ⟨r, -, hs⟩ := exists_solve_eq hw hd t
    exact ⟨_, hs, row_settled hw hd hv hdepth ht⟩
  · obtain ⟨r, hr, -⟩ := exists_solve_eq hw hd (numNodes weights)
    refine ⟨(nextFlow weights demands)^[numNodes weights] (still weights), r, fun t ht => ?_⟩
    have hrows : ∀ v < numNodes weights,
        row ((nextFlow weights demands)^[t] (still weights)) v =
          row ((nextFlow weights demands)^[numNodes weights] (still weights)) v := by
      intro v hv
      obtain ⟨d, hlt, hdepth⟩ := hacyclic.exists_isDepth hw hv
      rw [row_settled hw hd hv hdepth (hlt.trans_le ht), row_settled hw hd hv hdepth hlt]
    have hflow : (nextFlow weights demands)^[t] (still weights) =
        (nextFlow weights demands)^[numNodes weights] (still weights) := by
      refine CanonicalBacking.eq_of_alike ⟨⟨(hon t).square, (hon _).square⟩,
        ⟨(hon t).cleared, (hon _).cleared⟩, (hon t).nodes.trans (hon _).nodes.symm, ?_⟩
      rw [← flatMap_row (hon t).square, ← flatMap_row (hon _).square, (hon t).nodes, (hon _).nodes]
      exact List.flatMap_congr fun v hv => hrows v (List.mem_range.1 hv)
    obtain ⟨r', hr', hs⟩ := exists_solve_eq hw hd t
    rw [hflow] at hr'
    exact ⟨_, hs, hflow, Except.ok.inj (hr'.symm.trans hr)⟩

end Rounds

def detour : SparseMatrix Float32 :=
  .compress 4 4 [⟨0, 1, 0.3⟩, ⟨0, 2, 0.7⟩, ⟨1, 2, 1⟩, ⟨2, 3, 1⟩]

theorem square_detour : Square detour :=
  SparseMatrix.square_compress (by simp [RowOrdered, Edge.Before]) (by simp)

theorem pattern_detour : pattern detour = [(0, 1), (0, 2), (1, 2), (2, 3)] := by
  have hedges : edges detour = [⟨0, 1, 0.3⟩, ⟨0, 2, 0.7⟩, ⟨1, 2, 1⟩, ⟨2, 3, 1⟩] :=
    SparseMatrix.edges_compress (by simp [RowOrdered, Edge.Before]) (by simp)
  simp [pattern, hedges]

/-- With rounding numbers the flow out of the third node is final after three rounds, when both ways
have come together, and the whole flow after four. -/
theorem solve_settles_of_acyclic_detour :
    Square detour ∧ Acyclic detour ∧ ([1, 0.1, 0, -1.1] : List Float32).length = numNodes detour ∧
    (∃ out, ∀ t, 3 ≤ t → Yields (solve t detour [1, 0.1, 0, -1.1]) (row ·.flow 2 = out)) ∧
    ∃ flow residual, ∀ t, 4 ≤ t →
      Yields (solve t detour [1, 0.1, 0, -1.1]) fun s => s.flow = flow ∧ s.residual = residual := by
  have hforward : ∀ u v, (u, v) ∈ pattern detour → u < v := by
    intro u v huv
    rw [pattern_detour] at huv
    simp only [List.mem_cons, Prod.mk.injEq, List.not_mem_nil, or_false] at huv
    omega
  have hacyclic := acyclic_of_forward hforward
  have hdepth : IsDepth detour 2 2 := by
    refine ⟨⟨0, ?_⟩, fun k ⟨u, hw⟩ => ?_⟩
    · have hstart : Walk detour 0 0 0 := .stay (Nat.zero_lt_succ 3)
      exact (hstart.step (v := 1) (by simp [pattern_detour])).step (by simp [pattern_detour])
    · have hle := hw.add_le_of_forward hforward
      omega
  have hdemands : ([1, 0.1, 0, -1.1] : List Float32).length = numNodes detour := rfl
  obtain ⟨hrows, hall⟩ := solve_settles_of_acyclic square_detour hacyclic hdemands
  obtain ⟨d, -, hd, hout⟩ := hrows 2 (Nat.lt_add_of_pos_right (Nat.zero_lt_succ 1))
  obtain rfl : d = 2 := hd.unique hdepth
  exact ⟨square_detour, hacyclic, hdemands, hout, hall⟩

end Redistribution

end NeuralFlow
