import Mathlib
import NeuralFlow.Proofs.Alike
import NeuralFlow.Proofs.Backing.Dense
import NeuralFlow.Proofs.Backing.Sparse
import NeuralFlow.Proofs.Entries

/-! Matrices are known by their nodes and edges. Neither backing stores more than that, so within one
backing matrices that are alike are equal; giving all edges new values leaves nothing of the old ones. -/

namespace NeuralFlow

open EdgeMatrix LawfulBacking

/-- A backing that stores nothing beside the nodes and the edges. -/
class CanonicalBacking (M : Type → Type) [EdgeMatrix M] [LawfulBacking M] : Prop where
  eq_of_alike {α : Type} [Scalar α] {a b : M α} : Alike a b → a = b

/-- A cell without a mark holds zero, so cells with the same marks and marked values are the same. -/
theorem DenseMatrix.eq_of_alike {α : Type} [Scalar α] {a b : DenseMatrix α} (h : Alike a b) :
    a = b := by
  obtain ⟨ha, hb⟩ := h.square
  obtain ⟨hca, hcb⟩ := h.cleared
  have hrows : a.cells.rows = b.cells.rows := h.nodes
  have hcols : a.cells.cols = b.cells.cols := ha.symm.trans (hrows.trans hb)
  refine congrArg DenseMatrix.mk (Grid.ext_get? hrows hcols fun u v hu hv => ?_)
  have hu' : u < b.cells.rows := hrows ▸ hu
  have hv' : v < b.cells.rows := hb ▸ hcols ▸ hv
  obtain ⟨⟨mark, x⟩, hx⟩ := Grid.get?_of_lt hu hv
  obtain ⟨⟨mark', y⟩, hy⟩ := Grid.get?_of_lt hu' (hcols ▸ hv)
  have hmark := DenseMatrix.hasEdge?_eq ha hu (ha ▸ hv)
  have hmark' := DenseMatrix.hasEdge?_eq hb hu' hv'
  have hvalue := h.get? hu (ha ▸ hv)
  change (a.cells.get? u v).map Cell.value = (b.cells.get? u v).map Cell.value at hvalue
  rw [hx, h.pattern] at hmark
  rw [hy] at hmark'
  rw [hx, hy] at hvalue
  have hmarks : mark = mark' := by simpa using hmark.trans hmark'.symm
  have hvalues : x = y := by simpa using hvalue
  rw [hx, hy, hmarks, hvalues]

instance : CanonicalBacking DenseMatrix where
  eq_of_alike := DenseMatrix.eq_of_alike

instance : CanonicalBacking SparseMatrix where
  eq_of_alike {_ _ a b} h := by
    rw [SparseMatrix.eq_compress_edges h.square.1, SparseMatrix.eq_compress_edges h.square.2, h.nodes]
    exact congrArg _ h.edges

namespace EdgeMatrix

variable {M : Type → Type} [EdgeMatrix M] [LawfulBacking M] [CanonicalBacking M] {α : Type}
  [Scalar α] {a b : M α}

/-- Giving every edge the value it has changes nothing. -/
theorem withValues_eq_self (h : Square a) (hc : Cleared a) {f : ℕ → ℕ → α → α}
    (hf : ∀ e ∈ edges a, f e.src e.dst e.value = e.value) : withValues a f = a := by
  have hon := onPattern_withValues h f
  refine CanonicalBacking.eq_of_alike ⟨⟨hon.square, h⟩, ⟨hon.cleared, hc⟩, hon.nodes, ?_⟩
  rw [edges_withValues h]
  refine (List.map_congr_left fun e he => ?_).trans (List.map_id _)
  rw [hf e he]
  rfl

/-- Of the matrix that new values are put into only the pattern stays. -/
theorem refill_congr (ha : Square a) (hb : Square b) (hn : numNodes a = numNodes b)
    (hp : pattern a = pattern b) {new : List α} (hnew : new.length = (edges a).length) :
    refill a new = refill b new := by
  have hnew' : new.length = (edges b).length := hnew.trans (length_edges_eq hp)
  refine CanonicalBacking.eq_of_alike ⟨⟨square_refill new ha, square_refill new hb⟩,
    ⟨cleared_refill a new, cleared_refill b new⟩, ?_, ?_⟩
  · rw [numNodes_refill, numNodes_refill, hn]
  · rw [edges_refill ha hnew, edges_refill hb hnew']
    refine Edge.eq_of_ends_values ?_ ?_
    · rw [ends_setValues hnew, ends_setValues hnew', ← pattern_eq_map_ends, hp, pattern_eq_map_ends]
    · rw [values_setValues hnew, values_setValues hnew']

end EdgeMatrix

end NeuralFlow
