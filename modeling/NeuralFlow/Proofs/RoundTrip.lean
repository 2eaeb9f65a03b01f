import Mathlib
import NeuralFlow.Proofs.Canonical
import NeuralFlow.Proofs.SamePattern
import NeuralFlow.Proofs.Single

/-! A matrix and its list of edges stand for each other. The list has every edge once, in row order;
building from it gives the matrix back, directly or by way of the other backing. The other way round, a
list that is built from comes back sorted, with the last entry of each position. -/

namespace NeuralFlow

open EdgeMatrix LawfulBacking Edge

/-! Lists of edges. -/

namespace SparseMatrix

variable {α : Type} {es : List (Edge α)}

/-- The entries that no later entry at the same position takes the place of. -/
def lastEntries : List (Edge α) → List (Edge α)
  | [] => []
  | e :: rest =>
    if rest.any (·.ends == e.ends) then lastEntries rest else e :: lastEntries rest

theorem lastEntries_sublist (es : List (Edge α)) : (lastEntries es).Sublist es := by
  induction es with
  | nil => exact .slnil
  | cons e rest ih =>
    unfold lastEntries
    split_ifs
    · exact ih.cons e
    · exact ih.cons_cons e

theorem filter_ends_eq_nil_iff {p : ℕ × ℕ} :
    es.filter (·.ends == p) = [] ↔ ¬ es.any (·.ends == p) = true := by
  simp

theorem nodup_lastEntries (es : List (Edge α)) : ((lastEntries es).map ends).Nodup := by
  induction es with
  | nil => exact List.nodup_nil
  | cons e rest ih =>
    unfold lastEntries
    split_ifs with hlater
    · exact ih
    · rw [List.map_cons, List.nodup_cons]
      refine ⟨fun hmem => hlater ?_, ih⟩
      obtain ⟨d, hd, hends⟩ := List.mem_map.1 hmem
      exact List.any_eq_true.2 ⟨d, (lastEntries_sublist rest).subset hd, beq_iff_eq.2 hends⟩

theorem mem_lastEntries {d : Edge α} :
    d ∈ lastEntries es ↔ (es.filter (·.ends == d.ends)).getLast? = some d := by
  induction es with
  | nil => simp [lastEntries]
  | cons e rest ih =>
    unfold lastEntries
    by_cases hends : e.ends = d.ends
    · rw [List.filter_cons_of_pos (by simpa using hends), hends]
      split_ifs with hlater
      · have hne : rest.filter (·.ends == d.ends) ≠ [] := fun h =>
          filter_ends_eq_nil_iff.1 h hlater
        rw [ih, List.getLast?_cons_of_ne_nil hne]
      · rw [List.mem_cons, ih, filter_ends_eq_nil_iff.2 hlater]
        simp [eq_comm]
    · have hne : d ≠ e := fun h => hends (congrArg ends h.symm)
      rw [List.filter_cons_of_neg (by simpa using hends)]
      split_ifs
      · exact ih
      · rw [List.mem_cons, or_iff_right hne, ih]

/-- Sorting entries at different positions leaves no two in the wrong order. -/
theorem rowOrdered_sortEntries (h : (es.map ends).Nodup) : RowOrdered (sortEntries es) := by
  have hperm : (sortEntries es).Perm es := List.mergeSort_perm _ _
  have hdiffer : (sortEntries es).Pairwise fun d e => d.ends ≠ e.ends :=
    List.pairwise_map.1 ((hperm.map ends).nodup_iff.2 h)
  exact (hdiffer.and (sorted_sortEntries es)).imp fun hde =>
    (before_or_before hde.1).resolve_right hde.2

/-- Entries are taken into row order by keeping the last one of each position and sorting. -/
theorem inRowOrder_eq_sortEntries (es : List (Edge α)) :
    inRowOrder es = sortEntries (lastEntries es) := by
  refine (rowOrdered_inRowOrder es).eq_of_mem_iff (rowOrdered_sortEntries (nodup_lastEntries es)) ?_
  intro d
  rw [mem_inRowOrder, mem_sortEntries, mem_lastEntries]

theorem inRowOrder_of_rowOrdered (h : RowOrdered es) : inRowOrder es = es :=
  (rowOrdered_inRowOrder es).eq_of_mem_iff h fun _ => (inRowOrder_perm h.ends_nodup).mem_iff

end SparseMatrix

section Rebuilding

variable {M N : Type → Type} [EdgeMatrix M] [LawfulBacking M] [EdgeMatrix N] [LawfulBacking N]
  {α : Type} [Scalar α]

/-- The edges of a matrix are listed in row order, each of them once, with the value that is found at
their ends. -/
structure ListsEdges (a : M α) : Prop where
  ordered : RowOrdered (edges a)
  inside : ∀ e ∈ edges a, e.src < numNodes a ∧ e.dst < numNodes a
  once : ∀ u < numNodes a, ∀ v < numNodes a,
    (pattern a).count (u, v) = if hasEdge a u v then 1 else 0
  values : ∀ e ∈ edges a, get? a e.src e.dst = some e.value

theorem listsEdges {a : M α} (h : Square a) : ListsEdges a where
  ordered := rowOrdered h
  inside := ends_lt h
  once u hu v hv := by
    rw [hasEdge, hasEdge?_eq h hu hv, Option.getD_some]
    have hnodup : (pattern a).Nodup := (rowOrdered h).ends_nodup
    simp [hnodup.count]
  values := get?_edge h

def rebuild (N : Type → Type) [EdgeMatrix N] (a : M α) : Outcome α (N α) :=
  ofEdges (numNodes a) (edges a)

/-- Finite edges of a matrix are the edges of a matrix of any backing. -/
theorem rebuild_yields (N : Type → Type) [EdgeMatrix N] [LawfulBacking N] {a : M α} (h : Square a)
    (hfinite : ∀ e ∈ edges a, Scalar.isFinite e.value = true) :
    Yields (rebuild N a) fun b =>
      Square b ∧ Cleared b ∧ numNodes b = numNodes a ∧ edges b = edges a := by
  have hfit : ∀ e ∈ edges a, e.Fits (numNodes a) := fun e he =>
    ⟨(ends_lt h e he).1, (ends_lt h e he).2, hfinite e he⟩
  obtain ⟨b, hb, hsquare, hcleared, hnodes, hedges⟩ := ofEdges_ok (M := N) hfit
  rw [SparseMatrix.inRowOrder_of_rowOrdered (rowOrdered h)] at hedges
  exact ⟨b, hb, hsquare, hcleared, hnodes, hedges⟩

/-- With zeros off the pattern nothing is lost. -/
theorem rebuild_eq_self [CanonicalBacking M] {a : M α} (h : Square a) (hc : Cleared a)
    (hfinite : ∀ e ∈ edges a, Scalar.isFinite e.value = true) : rebuild M a = .ok a := by
  obtain ⟨b, hb, hsquare, hcleared, hnodes, hedges⟩ := rebuild_yields M h hfinite
  rw [hb, CanonicalBacking.eq_of_alike ⟨⟨hsquare, h⟩, ⟨hcleared, hc⟩, hnodes, hedges⟩]

omit [LawfulBacking M] [LawfulBacking N] in
/-- What is rebuilt depends on nodes and edges alone. -/
theorem rebuild_congr {a : M α} {b : N α} (hn : numNodes b = numNodes a) (he : edges b = edges a)
    {P : Type → Type} [EdgeMatrix P] : (rebuild P b : Outcome α (P α)) = rebuild P a := by
  rw [rebuild, rebuild, hn, he]

theorem ensures_edges_ofEdges (n : ℕ) (es : List (Edge α)) :
    Ensures (ofEdges n es : Outcome α (M α)) fun a =>
      numNodes a = n ∧ edges a = SparseMatrix.sortEntries (SparseMatrix.lastEntries es) := by
  intro a ha
  by_cases hfit : ∀ e ∈ es, e.Fits n
  · obtain ⟨b, hb, -, -, hnodes, hedges⟩ := ofEdges_ok (M := M) hfit
    cases hb.symm.trans ha
    exact ⟨hnodes, hedges.trans (SparseMatrix.inRowOrder_eq_sortEntries es)⟩
  · obtain ⟨err, herr⟩ := ofEdges_error (M := M) hfit
    cases herr.symm.trans ha

end Rebuilding

/-! Matrices of single precision numbers. -/

/-- What a square sparse matrix starts from. Loose entries need not be finite. -/
inductive SparseMatrix.Origin (α : Type) where
  | source (s : Source α)
  | entries (nodes : ℕ) (es : List (Edge α))

def SparseMatrix.Origin.build {α : Type} [Scalar α] : Origin α → Outcome α (SparseMatrix α)
  | .source s => s.build
  | .entries n es => ofEntries n n es

theorem SparseMatrix.Origin.ensures_build {α : Type} [Scalar α] (o : Origin α) :
    Ensures o.build LawfulBacking.Square := by
  cases o with
  | source s => exact s.ensures_build
  | entries n es =>
    intro a ha
    have hin := ofEntries_ok_iff.1 ⟨a, ha⟩
    cases (ofEntries_ok hin).symm.trans ha
    exact square_compress (rowOrdered_inRowOrder es) fun e he => hin e (mem_of_mem_inRowOrder he)

namespace DenseMatrix

/-- The same marks and, for every pair of nodes, equal numbers. A zero equals a negative one. -/
structure EqualTo {α : Type} [Scalar α] (a b : DenseMatrix α) : Prop where
  marks : a.mask = b.mask
  values : ∀ u < numNodes a, ∀ v < numNodes a,
    ∃ x y, get? a u v = some x ∧ get? b u v = some y ∧ (x == y) = true

theorem equalTo_of_edges {a b : DenseMatrix Float32} (ha : a.WellFormed) (sa : Square a)
    (hfinite : ∀ e ∈ edges a, e.value.isFinite = true) (sb : Square b) (hb : Cleared b)
    (hn : numNodes b = numNodes a) (he : EdgeMatrix.edges b = EdgeMatrix.edges a) : b.EqualTo a where
  marks := (mask_eq_iff sb sa).2 ⟨hn, congrArg (List.map ends) he⟩
  values u hu v hv := by
    have hu' := hn ▸ hu
    have hv' := hn ▸ hv
    by_cases huv : (u, v) ∈ pattern a
    · obtain ⟨x, hx⟩ := exists_edge huv
      have hnumber := Single.isNumber_of_isFinite (hfinite _ hx)
      exact ⟨x, x, get?_edge sb _ (he ▸ hx), get?_edge sa _ hx,
        Single.beq_iff.2 ⟨⟨hnumber, hnumber⟩, rfl⟩⟩
    · have hblank : (u, v) ∉ pattern b := by rwa [pattern, he]
      have hmark : a.mask.get? u v = some false := by
        rw [mask, Grid.get?_map, DenseMatrix.hasEdge?_eq sa hu' hv', decide_eq_false huv]
      obtain ⟨x, hx, hzero⟩ := ha.unmarked u v hmark
      rw [values, Grid.get?_map] at hx
      obtain ⟨⟨hxn, hzn⟩, hval⟩ := Single.beq_iff.1 hzero
      exact ⟨0, x, get?_blank sb hb hu hv hblank, hx, Single.beq_iff.2 ⟨⟨hzn, hxn⟩, hval.symm⟩⟩

end DenseMatrix

/-- Matrices that come about by any operations list their edges. If these are finite, a matrix is built
from its list, and back from that of the matrix that the other backing builds; a dense matrix comes
back with equal numbers. Of any list that is built from, the last entry of each position is listed. -/
theorem edges_round_trip {σ : Type} (history : History σ Float32) :
    (∀ d : Derivation (SparseMatrix.Origin Float32) σ Float32,
      Ensures (d.run SparseMatrix.Origin.build history).1 fun a =>
        ListsEdges a ∧ ((∀ e ∈ edges a, e.value.isFinite = true) →
          rebuild SparseMatrix a = .ok a ∧
          ∃ b, rebuild DenseMatrix a = .ok b ∧ rebuild SparseMatrix b = .ok a)) ∧
    (∀ d : Derivation (DenseMatrix.Source Float32) σ Float32,
      Ensures (d.run DenseMatrix.Source.build history).1 fun a =>
        ListsEdges a ∧ ((∀ e ∈ edges a, e.value.isFinite = true) →
          ∃ b, rebuild DenseMatrix a = .ok b ∧ b.EqualTo a ∧
          ∃ c, rebuild SparseMatrix a = .ok c ∧ rebuild DenseMatrix c = .ok b)) ∧
    ∀ (n : ℕ) (es : List (Edge Float32)),
      (Ensures (ofEdges n es : Outcome Float32 (SparseMatrix Float32)) fun a =>
        numNodes a = n ∧ edges a = SparseMatrix.sortEntries (SparseMatrix.lastEntries es)) ∧
      Ensures (ofEdges n es : Outcome Float32 (DenseMatrix Float32)) fun a =>
        numNodes a = n ∧ edges a = SparseMatrix.sortEntries (SparseMatrix.lastEntries es) := by
  refine ⟨fun d a ha => ?_, fun d a ha => ?_, fun n es => ?_⟩
  · have sa := d.ensures_square SparseMatrix.Origin.ensures_build history a ha
    refine ⟨listsEdges sa, fun hfinite => ?_⟩
    have hself := rebuild_eq_self sa trivial hfinite
    obtain ⟨b, hb, -, -, hn, he⟩ := rebuild_yields DenseMatrix sa hfinite
    exact ⟨hself, b, hb, (rebuild_congr hn he).trans hself⟩
  · have hrun := DenseMatrix.ensures_wellFormed Single.zero_beq_zero d history a ha
    have sa := d.ensures_square DenseMatrix.Source.ensures_square history a ha
    refine ⟨listsEdges sa, fun hfinite => ?_⟩
    obtain ⟨b, hb, sb, hc, hn, he⟩ := rebuild_yields DenseMatrix sa hfinite
    obtain ⟨c, hcc, -, -, hn', he'⟩ := rebuild_yields SparseMatrix sa hfinite
    exact ⟨b, hb, DenseMatrix.equalTo_of_edges hrun.1 sa hfinite sb hc hn he, c, hcc,
      (rebuild_congr hn' he').trans hb⟩
  · exact ⟨ensures_edges_ofEdges n es, ensures_edges_ofEdges n es⟩

def signedZeros : DenseMatrix Float32 where
  cells :=
    { cols := 2
      lines := [[⟨false, -0⟩, ⟨true, 0⟩], [⟨false, 0⟩, ⟨false, -0⟩]]
      width_eq := by simp }

def zeroedEdge : Derivation (DenseMatrix.Source Float32) Unit Float32 :=
  .apply (.mapRows fun _ _ values => pure (values.map fun _ => 0))
    (.source (.adjacency { cols := 2, lines := [[-0, 5], [0, -0]], width_eq := by simp }))

/-- An edge of value zero is not lost, and what comes back has plain zeros off the pattern. -/
theorem edges_round_trip_signedZeros :
    (zeroedEdge.run DenseMatrix.Source.build ((), [])).1 = .ok signedZeros ∧
      edges signedZeros = [⟨0, 1, 0⟩] ∧
      ∃ b, rebuild DenseMatrix signedZeros = .ok b ∧ b.EqualTo signedZeros ∧ b ≠ signedZeros ∧
        ∃ c, rebuild SparseMatrix signedZeros = .ok c ∧ rebuild DenseMatrix c = .ok b := by
  have hrun : (zeroedEdge.run DenseMatrix.Source.build ((), [])).1 = .ok signedZeros := by rfl
  have hedges : edges signedZeros = [⟨0, 1, 0⟩] := rfl
  have hfinite : ∀ e ∈ edges signedZeros, e.value.isFinite = true := by
    rw [hedges]
    decide +kernel
  obtain ⟨b, hb, hequal, c, hc, hback⟩ :=
    ((edges_round_trip ((), [])).2.1 zeroedEdge signedZeros hrun).2 hfinite
  refine ⟨hrun, hedges, b, hb, hequal, ?_, c, hc, hback⟩
  rintro rfl
  have hcleared : signedZeros.Cleared := (ensures_ofEdges _ _ _ hb).2
  have hplain : (-0 : Float32) = 0 := hcleared _ (List.mem_cons_self ..) _ (List.mem_cons_self ..) rfl
  exact absurd hplain (by decide +kernel)

end NeuralFlow
