import Mathlib
import NeuralFlow.Proofs.Alike
import NeuralFlow.Proofs.Backing.Dense
import NeuralFlow.Proofs.Backing.Sparse
import NeuralFlow.Proofs.Derivation

/-! The two backings cannot be told apart. Matrices that are alike stay alike under every operation,
which calls its functions with the same arguments in both backings, and whoever looks at them sees the
same; only rounded sums over all places may differ. -/

namespace NeuralFlow

open EdgeMatrix LawfulBacking

variable {α : Type} [Scalar α]

/-! Runs side by side. -/

/-- Two runs that fail together or give related results, after the same calls. -/
structure Traced.Agree {σ β γ : Type} (R : β → γ → Prop) (x : Traced σ α β) (y : Traced σ α γ) :
    Prop where
  results : NeuralFlow.Agree R x.1 y.1
  histories : x.2 = y.2

omit [Scalar α] in
theorem Traced.Agree.mono {σ β γ : Type} {R S : β → γ → Prop} {x : Traced σ α β} {y : Traced σ α γ}
    (h : Traced.Agree R x y) (hrs : ∀ b c, R b c → S b c) : Traced.Agree S x y :=
  ⟨h.results.mono hrs, h.histories⟩

omit [Scalar α] in
theorem Traced.Agree.andThen {σ β β' γ γ' : Type} {R : β → β' → Prop} {S : γ → γ' → Prop}
    {x : Traced σ α β} {y : Traced σ α β'} {f : β → History σ α → Traced σ α γ}
    {g : β' → History σ α → Traced σ α γ'} (h : Traced.Agree R x y)
    (hf : ∀ b c history, R b c → Traced.Agree S (f b history) (g c history)) :
    Traced.Agree S (x.andThen f) (y.andThen g) := by
  obtain ⟨x, history⟩ := x
  obtain ⟨y, history'⟩ := y
  obtain ⟨hxy, rfl⟩ := h
  cases hxy with
  | ok hbc => exact hf _ _ _ hbc
  | error => exact ⟨.error, rfl⟩

namespace Alike

variable {M N : Type → Type} [EdgeMatrix M] [LawfulBacking M] [EdgeMatrix N] [LawfulBacking N]
  {σ : Type} {a c : M α} {b d : N α}

/-- One visit of the edges serves both matrices. -/
theorem visited_withValuesM (h : Alike a b) (f : ℕ → ℕ → α → StateM (History σ α) α)
    (history : History σ α) : Traced.Agree Alike (visited (EdgeMatrix.withValuesM a f) history)
      (visited (EdgeMatrix.withValuesM b f) history) := by
  rw [EdgeMatrix.withValuesM, EdgeMatrix.withValuesM, ← h.edges]
  exact ⟨.ok (h.refill (length_mapM _ _ history)), rfl⟩

theorem visited_mapRowsM (h : Alike a b) (f : ℕ → List ℕ → List α → StateM (History σ α) (List α))
    (history : History σ α) : Traced.Agree Alike (visited (mapRowsM a f) history)
      (visited (mapRowsM b f) history) := by
  have hvisits : (fun u => visitRow f u (EdgeMatrix.row b u)) = fun u => visitRow f u (EdgeMatrix.row a u) :=
    funext fun u => by rw [h.row]
  rw [visited, visited, run_mapRowsM, run_mapRowsM, hvisits, ← h.nodes]
  exact ⟨.ok (h.overwrite (length_visitRows h.square.1 f history)), rfl⟩

theorem run (op : Operation σ α) (h : Alike a b) (history : History σ α) :
    Traced.Agree Alike (op.run a history) (op.run b history) := by
  cases op with
  | withValues f =>
    exact h.visited_withValuesM (fun u v x => noted (.edge u v x) (f u v x)) history
  | map f => exact h.visited_withValuesM (fun _ _ x => noted (.value x) (f x)) history
  | scaleRows factors => exact ⟨h.scaleRows factors, rfl⟩
  | reverse => exact ⟨.ok h.reverse, rfl⟩
  | mapRows f =>
    exact h.visited_mapRowsM (fun u ends values => noted (.row u ends values) (f u ends values)) history

theorem zipped (f : α → α → StateM σ α) (h : Alike a b) (k : Alike c d) (history : History σ α) :
    Traced.Agree Alike (NeuralFlow.zipped f a c history) (NeuralFlow.zipped f b d history) := by
  simp only [NeuralFlow.zipped, zipMapM, h.sameLayout k, h.edges, k.edges]
  split_ifs with hsame
  · obtain ⟨-, hpattern⟩ := (sameLayout_iff h.square.2 k.square.2).1 hsame
    have hlen := length_edges_eq hpattern
    refine ⟨.ok (h.refill ((length_mapM _ _ history).trans ?_)), rfl⟩
    rw [List.length_zip, ← hlen, Nat.min_self, h.edges]
  · exact ⟨.error, rfl⟩

/-- The same sources and operations lead to matrices that are alike in both backings, or to none. -/
theorem derivation (d : Derivation (ℕ × List (Edge α)) σ α) (history : History σ α) :
    Traced.Agree Alike (d.run (fun s => (ofEdges s.1 s.2 : Outcome α (M α))) history)
      (d.run (fun s => (ofEdges s.1 s.2 : Outcome α (N α))) history) := by
  induction d generalizing history with
  | source s => exact ⟨(agree_ofEdges s.1 s.2).mono fun _ _ h => h.2, rfl⟩
  | apply op receiver ih => exact (ih history).andThen fun _ _ history h => h.run op history
  | zipMap f receiver other ihr iho =>
    exact (ihr history).andThen fun _ _ history h =>
      (iho history).andThen fun _ _ history k => h.zipped f k history

end Alike

/-! What is seen of a matrix. -/

theorem LawfulBacking.exists_get? {M : Type → Type} [EdgeMatrix M] [LawfulBacking M] {a : M α}
    (h : Square a) (hc : Cleared a) {u v : ℕ} (hu : u < numNodes a) (hv : v < numNodes a) :
    ∃ x, get? a u v = some x := by
  by_cases hmem : (u, v) ∈ pattern a
  · obtain ⟨e, he, hends⟩ := List.mem_map.1 hmem
    obtain ⟨rfl, rfl⟩ := Prod.mk.inj hends
    exact ⟨_, get?_edge h e he⟩
  · exact ⟨_, get?_blank h hc hu hv hmem⟩

theorem Grid.get?_ofFn {β : Type} {r c : ℕ} (f : ℕ → ℕ → β) {i j : ℕ} (hi : i < r) (hj : j < c) :
    (Grid.ofFn r c f).get? i j = some (f i j) := by
  simp [Grid.ofFn, Grid.get?, hi, hj]

namespace DenseMatrix

omit [Scalar α] in
theorem rowDegree?_eq {a : DenseMatrix α} {u : ℕ} (hu : u < numNodes a) :
    rowDegree? a u = some (row a u).length := by
  have hline := List.getElem?_eq_getElem (l := a.cells.lines) hu
  change (a.cells.lines[u]?).map _ = _
  rw [row_eq_lineEdges hline, hline, Option.map_some]
  exact congrArg some (length_edgesFrom u 0 _).symm

theorem get?_toGrid (a : DenseMatrix α) (u v : ℕ) :
    (EdgeMatrix.toGrid a).get? u v = EdgeMatrix.get? a u v :=
  Grid.get?_map _ _ _ _

end DenseMatrix

namespace SparseMatrix

omit [Scalar α] in
theorem rowDegree?_eq {a : SparseMatrix α} (h : Square a) {u : ℕ} (hu : u < numNodes a) :
    rowDegree? a u = some (row a u).length := by
  obtain ⟨es, hes, hn, ha⟩ := h
  have hrow : row a u = es.filter (·.src == u) := by
    rw [row, ha]
    exact congrArg _ (edges_compress hes fun e he => (hn e he).1)
  have hcount := congrArg List.length (hes.slots_eq_row u)
  rw [List.length_take, List.length_drop] at hcount
  have hle : es.countP (·.src < u + 1) ≤ es.length := List.countP_le_length
  have hu' : u < a.rows := hu
  have hstart : (compress a.rows a.rows es).rowPtr[u]? = some (es.countP (·.src < u)) :=
    rowPtr_compress hu'.le
  have hstop : (compress a.rows a.rows es).rowPtr[u + 1]? = some (es.countP (·.src < u + 1)) :=
    rowPtr_compress hu'
  rw [hrow, ha]
  change (do
    let start ← (compress a.rows a.rows es).rowPtr[u]?
    let stop ← (compress a.rows a.rows es).rowPtr[u + 1]?
    return stop - start) = _
  rw [hstart, hstop, ← hcount]
  exact congrArg some (by omega)

omit [Scalar α] in
theorem Square.cols_eq {a : SparseMatrix α} (h : Square a) : a.cols = a.rows := by
  obtain ⟨es, -, -, ha⟩ := h
  rw [ha]
  rfl

theorem get?_toGrid {a : SparseMatrix α} (h : Square a) {u v : ℕ} (hu : u < numNodes a)
    (hv : v < numNodes a) : (EdgeMatrix.toGrid a).get? u v = EdgeMatrix.get? a u v := by
  obtain ⟨x, hx⟩ := LawfulBacking.exists_get? h trivial hu hv
  refine (Grid.get?_ofFn _ hu (h.cols_eq ▸ hv)).trans ?_
  change some ((EdgeMatrix.get? a u v).getD 0) = _
  rw [hx, Option.getD_some]

end SparseMatrix

/-- All that is seen of a matrix: its sizes and edges, what a look-up finds, the sum of any quantity
over the edges, and the table of all entries. -/
structure SameView (a : DenseMatrix α) (b : SparseMatrix α) : Prop where
  nodes : numNodes a = numNodes b
  numEdges : numEdges a = numEdges b
  edges : edges a = edges b
  hasEdge? : ∀ u < numNodes a, ∀ v < numNodes a,
    ∃ found, hasEdge? a u v = some found ∧ hasEdge? b u v = some found
  get? : ∀ u < numNodes a, ∀ v < numNodes a, ∃ x, get? a u v = some x ∧ get? b u v = some x
  rowDegree? : ∀ u < numNodes a, ∃ k, rowDegree? a u = some k ∧ rowDegree? b u = some k
  sumEdges : ∀ f : ℕ → ℕ → α → α, sumEdges a f = sumEdges b f
  toGrid : toGrid a = toGrid b

theorem Alike.sameView {a : DenseMatrix α} {b : SparseMatrix α} (h : Alike a b) : SameView a b where
  nodes := h.nodes
  numEdges := h.numEdges
  edges := h.edges
  hasEdge? u hu v hv := by
    refine ⟨_, hasEdge?_eq h.square.1 hu hv, ?_⟩
    rw [hasEdge?_eq h.square.2 (h.nodes ▸ hu) (h.nodes ▸ hv), h.pattern]
  get? u hu v hv := by
    obtain ⟨x, hx⟩ := LawfulBacking.exists_get? h.square.1 h.cleared.1 hu hv
    exact ⟨x, hx, (h.get? hu hv).symm.trans hx⟩
  rowDegree? u hu := by
    refine ⟨_, DenseMatrix.rowDegree?_eq hu, ?_⟩
    rw [SparseMatrix.rowDegree?_eq h.square.2 (h.nodes ▸ hu), h.row]
  sumEdges f := h.sumEdges f
  toGrid := by
    have hrows : (EdgeMatrix.toGrid a).rows = numNodes a := Grid.rows_map _ _
    have hcols : (EdgeMatrix.toGrid a).cols = numNodes a := h.square.1.symm
    have hrows' : (EdgeMatrix.toGrid b).rows = numNodes b := by
      change ((List.range b.rows).map _).length = b.rows
      simp
    have hcols' : (EdgeMatrix.toGrid b).cols = numNodes b := h.square.2.cols_eq
    refine Grid.ext_get? (by rw [hrows, hrows', h.nodes]) (by rw [hcols, hcols', h.nodes]) fun u v hu hv => ?_
    rw [hrows] at hu
    rw [hcols] at hv
    rw [DenseMatrix.get?_toGrid, SparseMatrix.get?_toGrid h.square.2 (h.nodes ▸ hu) (h.nodes ▸ hv),
      h.get? hu hv]

structure SameSums {K : Type} [ExactScalar K] (a : DenseMatrix K) (b : SparseMatrix K) : Prop where
  rowSums : rowSums a = rowSums b
  colSums : colSums a = colSums b
  times : ∀ x : Grid K, x.rows = numNodes a → ∃ y, times a x = .ok y ∧ times b x = .ok y

theorem Alike.sameSums {K : Type} [ExactScalar K] {a : DenseMatrix K} {b : SparseMatrix K}
    (h : Alike a b) : SameSums a b where
  rowSums := h.rowSums
  colSums := h.colSums
  times x hx := by
    obtain ⟨y, hy, -⟩ := times_shape h.square.1 hx
    have hagree := h.times hx
    rw [hy] at hagree
    generalize hz : EdgeMatrix.times b x = z at hagree
    cases hagree with
    | ok heq => exact ⟨y, hy, heq ▸ rfl⟩

/-- The same edges make a matrix in both backings or in none. Whatever operations follow, the
functions are called with the same arguments in the same order, an operation fails in both backings
or in none, and the matrices look the same. In exact arithmetic their sums and products are equal. -/
theorem backings_agree :
    (∀ {α : Type} [Scalar α] (n : ℕ) (es : List (Edge α)),
      (∃ a : DenseMatrix α, ofEdges n es = .ok a) ↔ ∃ b : SparseMatrix α, ofEdges n es = .ok b) ∧
    (∀ {σ α : Type} [Scalar α] (d : Derivation (ℕ × List (Edge α)) σ α) (history : History σ α),
      Traced.Agree SameView
        (d.run (fun s => (ofEdges s.1 s.2 : Outcome α (DenseMatrix α))) history)
        (d.run (fun s => (ofEdges s.1 s.2 : Outcome α (SparseMatrix α))) history)) ∧
    ∀ {σ K : Type} [ExactScalar K] (d : Derivation (ℕ × List (Edge K)) σ K) (history : History σ K),
      Traced.Agree SameSums
        (d.run (fun s => (ofEdges s.1 s.2 : Outcome K (DenseMatrix K))) history)
        (d.run (fun s => (ofEdges s.1 s.2 : Outcome K (SparseMatrix K))) history) := by
  refine ⟨fun {α} _ n es => ?_, fun {σ α} _ d history => ?_, fun {σ K} _ d history => ?_⟩
  · exact (agree_ofEdges (M := DenseMatrix) (N := SparseMatrix) n es).exists_ok_iff
  · exact (Alike.derivation d history).mono fun a b h => h.sameView
  · exact (Alike.derivation d history).mono fun a b h => h.sameSums

end NeuralFlow
