import Mathlib
import NeuralFlow.Scalar.Single
import NeuralFlow.Proofs.Backing.Dense
import NeuralFlow.Proofs.Backing.Sparse
import NeuralFlow.Proofs.Derivation
import NeuralFlow.Proofs.EntryList

/-! What is stored stays well formed. Compressed rows have rising pointers and columns, and cells
without a mark hold a zero of either sign, whatever operations a matrix comes from. -/

namespace NeuralFlow

open EdgeMatrix LawfulBacking

variable {α : Type}

theorem ensures_ofEdges {M : Type → Type} [EdgeMatrix M] [LawfulBacking M] [Scalar α] (n : ℕ)
    (es : List (Edge α)) :
    Ensures (ofEdges n es : Outcome α (M α)) fun a => Square a ∧ Cleared a :=
  (ofEdges_ensures n es).mono fun _ h => ⟨h.2.1, h.2.2.1⟩

namespace SparseMatrix

/-- A square matrix with row pointers from zero up to the number of entries, and in every row rising
columns that lie inside. -/
structure WellFormed (a : SparseMatrix α) : Prop where
  square : a.rows = a.cols
  length_rowPtr : a.rowPtr.length = a.rows + 1
  first : a.rowPtr[0]? = some 0
  last : a.rowPtr[a.rows]? = some a.values.length
  rising : a.rowPtr.Pairwise (· ≤ ·)
  length_colIndices : a.colIndices.length = a.values.length
  columns : ∀ u < a.rows, ∃ columns, a.slots? u a.colIndices = some columns ∧
    columns.Pairwise (· < ·) ∧ ∀ v ∈ columns, v < a.rows

theorem Compressed.wellFormed {a : SparseMatrix α} (h : a.Compressed) (hsquare : a.rows = a.cols) :
    a.WellFormed where
  square := hsquare
  length_rowPtr := h.length_rowPtr
  first := h.first
  last := h.last
  rising := h.rising
  length_colIndices := h.length_colIndices
  columns u hu := by
    rw [hsquare]
    exact h.columns u hu

/-- The square matrices of the laws are those that are stored well formed. -/
theorem square_iff_wellFormed {a : SparseMatrix α} : a.Square ↔ a.WellFormed := by
  constructor
  · rintro ⟨es, hes, hn, ha⟩
    rw [ha]
    exact (compressed_compress hes hn).wellFormed rfl
  · intro h
    have hcompressed : a.Compressed :=
      { h with columns := fun u hu => h.square ▸ h.columns u hu }
    obtain ⟨es, hes, hn, ha⟩ := compressed_iff.1 hcompressed
    rw [← h.square] at hn ha
    exact ⟨es, hes, hn, ha⟩

theorem Square.wellFormed {a : SparseMatrix α} (h : a.Square) : a.WellFormed :=
  square_iff_wellFormed.1 h

inductive Source (α : Type) where
  | edges (nodes : ℕ) (es : List (Edge α))
  | identity (nodes : ℕ)

def Source.build [Scalar α] : Source α → Outcome α (SparseMatrix α)
  | .edges n es => EdgeMatrix.ofEdges n es
  | .identity n => .ok (SparseMatrix.identity n)

theorem Source.ensures_build [Scalar α] (s : Source α) : Ensures s.build LawfulBacking.Square := by
  cases s with
  | edges n es => exact (ensures_ofEdges n es).mono fun a h => h.1
  | identity n => exact ensures_pure (square_identity n)

theorem ensures_wellFormed [Scalar α] {σ : Type} (d : Derivation (Source α) σ α)
    (history : History σ α) :
    Ensures (d.run Source.build history).1 fun a =>
      a.WellFormed ∧ d.KeepsReceiver Source.build history a := by
  have hrun := d.ensures_run (P := LawfulBacking.Square) (fun _ h => h)
    (fun _ _ h hab => hab.square h) Source.ensures_build history
  exact hrun.mono fun a h => ⟨Square.wellFormed h.1, h.2⟩

end SparseMatrix

namespace DenseMatrix

variable [Scalar α]

/-- Values and marks for all pairs of nodes, and zeros of either sign without a mark. -/
structure WellFormed (a : DenseMatrix α) : Prop where
  shaped_values : a.values.Shaped (numNodes a) (numNodes a)
  shaped_mask : a.mask.Shaped (numNodes a) (numNodes a)
  unmarked : ∀ u v, a.mask.get? u v = some false → ∃ x, a.values.get? u v = some x ∧ (x == 0) = true

def ZeroUnmarked (a : DenseMatrix α) : Prop :=
  ∀ line ∈ a.cells.lines, ∀ cell ∈ line, cell.marked = false → (cell.value == 0) = true

theorem wellFormed_of_zeroUnmarked {a : DenseMatrix α} (h : a.Square) (hz : a.ZeroUnmarked) :
    a.WellFormed where
  shaped_values := ⟨Grid.rows_map _ _, h.symm⟩
  shaped_mask := ⟨Grid.rows_map _ _, h.symm⟩
  unmarked u v hm := by
    rw [mask, Grid.get?_map, Option.map_eq_some_iff] at hm
    obtain ⟨cell, hcell, hmark⟩ := hm
    obtain ⟨line, hline, hmem⟩ := Option.bind_eq_some_iff.1 hcell
    refine ⟨cell.value, by rw [values, Grid.get?_map, hcell, Option.map_some], ?_⟩
    exact hz line (List.mem_of_getElem? hline) cell (List.mem_of_getElem? hmem) hmark

inductive Source (α : Type) where
  | edges (nodes : ℕ) (es : List (Edge α))
  | adjacency (table : Grid α)
  | parts (values : Grid α) (mask : Grid Bool)

def Source.build : Source α → Outcome α (DenseMatrix α)
  | .edges n es => EdgeMatrix.ofEdges n es
  | .adjacency table => ofAdjacency table
  | .parts values mask => ofParts values mask

variable (hzero : ((0 : α) == 0) = true)
include hzero

theorem Cleared.zeroUnmarked {a : DenseMatrix α} (h : a.Cleared) : a.ZeroUnmarked :=
  fun line hline cell hcell hm => by rw [h line hline cell hcell hm]; exact hzero

omit hzero in
theorem zeroUnmarked_ofAdjacency (table : Grid α) :
    Ensures (ofAdjacency table) ZeroUnmarked := by
  intro a h
  unfold ofAdjacency at h
  split_ifs at h
  split at h
  · cases h
  · cases h
    intro line hline cell hcell hm
    obtain ⟨xs, -, rfl⟩ := List.mem_map.1 hline
    obtain ⟨x, -, rfl⟩ := List.mem_map.1 hcell
    simpa [bne] using hm

theorem zeroUnmarked_ofParts (values : Grid α) (mask : Grid Bool) :
    Ensures (ofParts values mask) ZeroUnmarked := by
  unfold ofParts
  split_ifs
  · exact fun _ h => nomatch h
  · exact fun _ h => nomatch h
  · refine (ensures_orFault fun cells hcells => ?_).bind (P := fun cells : Grid (Cell α) =>
      (⟨cells⟩ : DenseMatrix α).ZeroUnmarked) fun cells h => ensures_pure h
    intro line hline cell hcell hm
    obtain ⟨x, marked, rfl⟩ := Grid.exists_of_mem_combine? hcells hline hcell
    cases marked
    · exact hzero
    · cases hm

theorem Source.ensures_build (s : Source α) :
    Ensures s.build fun a => LawfulBacking.Square a ∧ a.ZeroUnmarked := by
  cases s with
  | edges n es =>
    exact (ensures_ofEdges n es).mono fun a h => ⟨h.1, Cleared.zeroUnmarked hzero h.2⟩
  | adjacency table =>
    exact fun a h => ⟨square_ofAdjacency table a h, zeroUnmarked_ofAdjacency table a h⟩
  | parts values mask =>
    exact fun a h => ⟨square_ofParts values mask a h, zeroUnmarked_ofParts hzero values mask a h⟩

theorem zeroUnmarked_revalued {a b : DenseMatrix α} (h : a.ZeroUnmarked) (hab : Revalued a b) :
    b.ZeroUnmarked := by
  cases hab with
  | refill _ => exact unmarked_refillWith (P := fun x => (x == 0) = true) _ fun _ _ _ _ _ => hzero
  | overwrite _ => exact unmarked_refillWith (P := fun x => (x == 0) = true) _ h

theorem ensures_wellFormed {σ : Type} (d : Derivation (Source α) σ α) (history : History σ α) :
    Ensures (d.run Source.build history).1 fun a =>
      a.WellFormed ∧ d.KeepsReceiver Source.build history a := by
  have hrun := d.ensures_run (P := fun a => LawfulBacking.Square a ∧ a.ZeroUnmarked)
    (fun _ h => h.1) (fun _ _ h hab => ⟨hab.square h.1, zeroUnmarked_revalued hzero h.2 hab⟩)
    (Source.ensures_build hzero) history
  exact hrun.mono fun a h => ⟨wellFormed_of_zeroUnmarked h.1.1 h.1.2, h.2⟩

end DenseMatrix

theorem Single.zero_beq_zero : ((0 : Float32) == 0) = true := by decide +kernel

/-- Single precision matrices that come about by any operations, with functions that may keep a
state, are well formed, and each operation leaves the edges of its receiver as they are. -/
theorem wellFormed_of_derived {σ : Type} (history : History σ Float32) :
    (∀ d : Derivation (SparseMatrix.Source Float32) σ Float32,
      Ensures (d.run SparseMatrix.Source.build history).1 fun a =>
        a.WellFormed ∧ d.KeepsReceiver SparseMatrix.Source.build history a) ∧
    ∀ d : Derivation (DenseMatrix.Source Float32) σ Float32,
      Ensures (d.run DenseMatrix.Source.build history).1 fun a =>
        a.WellFormed ∧ d.KeepsReceiver DenseMatrix.Source.build history a := by
  exact ⟨fun d => SparseMatrix.ensures_wellFormed d history,
    fun d => DenseMatrix.ensures_wellFormed Single.zero_beq_zero d history⟩

end NeuralFlow
