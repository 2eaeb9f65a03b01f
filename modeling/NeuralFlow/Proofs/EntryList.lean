import Mathlib
import NeuralFlow.Proofs.Compression

/-! Matrices from loose entries, which come in any order and name positions any number of times. They
are built from entries that lie inside and from no others; what such a matrix stores is well formed
and holds, at each position that is named, the value given for it last. -/

namespace NeuralFlow.SparseMatrix

open Edge

variable {α : Type}

/-- Row pointers from zero up to the number of entries, and in every row rising columns that lie
inside. -/
structure Compressed (a : SparseMatrix α) : Prop where
  length_rowPtr : a.rowPtr.length = a.rows + 1
  first : a.rowPtr[0]? = some 0
  last : a.rowPtr[a.rows]? = some a.values.length
  rising : a.rowPtr.Pairwise (· ≤ ·)
  length_colIndices : a.colIndices.length = a.values.length
  columns : ∀ r < a.rows, ∃ columns, a.slots? r a.colIndices = some columns ∧
    columns.Pairwise (· < ·) ∧ ∀ c ∈ columns, c < a.cols

def lastValue? (entries : List (Edge α)) (r c : ℕ) : Option α :=
  (entries.filter (·.ends == (r, c))).getLast?.map Edge.value

variable {rows cols : ℕ} {es fs : List (Edge α)}

theorem compressed_compress (h : RowOrdered es) (hin : ∀ e ∈ es, e.src < rows ∧ e.dst < cols) :
    (compress rows cols es).Compressed where
  length_rowPtr := by simp [compress]
  first := by simp [rowPtr_compress (Nat.zero_le rows)]
  last := by
    have hall : es.countP (·.src < rows) = es.length :=
      List.countP_eq_length.2 fun e he => by simpa using (hin e he).1
    exact (rowPtr_compress le_rfl).trans (by rw [hall]; simp [compress])
  rising := by
    refine List.pairwise_map.2 (List.pairwise_lt_range.imp fun {r s} hrs => ?_)
    refine List.countP_mono_left fun e _ he => ?_
    simp only [decide_eq_true_eq] at he ⊢
    omega
  length_colIndices := by simp [compress]
  columns r hr := by
    refine ⟨_, slots?_compress h hr Edge.dst, h.pairwise_dst r, fun c hc => ?_⟩
    obtain ⟨e, he, rfl⟩ := List.mem_map.1 hc
    exact (hin e (List.mem_filter.1 he).1).2

/-- In rows of edges one after another those of the lower rows come first. -/
theorem countP_flatMap_rows {row : ℕ → List (Edge α)} (hrow : ∀ u, ∀ e ∈ row u, e.src = u) {r n : ℕ}
    (hr : r ≤ n) :
    ((List.range n).flatMap row).countP (·.src < r) = ((List.range r).flatMap row).length := by
  induction n, hr using Nat.le_induction with
  | base =>
    refine List.countP_eq_length.2 fun e he => ?_
    obtain ⟨u, hu, he⟩ := List.mem_flatMap.1 he
    simpa [hrow u e he] using hu
  | succ n hn ih =>
    have hnone : (row n).countP (·.src < r) = 0 :=
      List.countP_eq_zero.2 fun e he => by simpa [hrow n e he] using hn
    rw [List.range_succ, List.flatMap_append, List.countP_append, ih, List.flatMap_singleton, hnone,
      Nat.add_zero]

namespace Compressed

variable {a : SparseMatrix α} (h : a.Compressed)
include h

theorem stop_le {r stop : ℕ} (hr : r ≤ a.rows) (hstop : a.rowPtr[r]? = some stop) :
    stop ≤ a.values.length := by
  obtain ⟨hlt, rfl⟩ := List.getElem?_eq_some_iff.1 hstop
  obtain ⟨hlast, hlen⟩ := List.getElem?_eq_some_iff.1 h.last
  rcases hr.eq_or_lt with rfl | hr
  · exact hlen.le
  · exact (List.pairwise_iff_getElem.1 h.rising r a.rows hlt hlast hr).trans hlen.le

/-- The slots of the first rows are the first slots. -/
theorem flatMap_slots {β : Type} (xs : List β) {r : ℕ} (hr : r ≤ a.rows) :
    ∃ stop, a.rowPtr[r]? = some stop ∧
      ((List.range r).flatMap fun u => (a.slots? u xs).getD []) = xs.take stop := by
  induction r with
  | zero => exact ⟨0, h.first, rfl⟩
  | succ r ih =>
    obtain ⟨start, hstart, hslots⟩ := ih (by omega)
    obtain ⟨hlt, hfrom⟩ := List.getElem?_eq_some_iff.1 hstart
    have hlt' : r + 1 < a.rowPtr.length := by rw [h.length_rowPtr]; omega
    have hstop := List.getElem?_eq_getElem hlt'
    have hle : start ≤ a.rowPtr[r + 1] :=
      hfrom ▸ List.pairwise_iff_getElem.1 h.rising r (r + 1) hlt hlt' (Nat.lt_succ_self r)
    have hrow : a.slots? r xs = some ((xs.drop start).take (a.rowPtr[r + 1] - start)) := by
      rw [slots?, hstart, hstop]
      rfl
    refine ⟨_, hstop, ?_⟩
    rw [List.range_succ, List.flatMap_append, hslots, List.flatMap_singleton, hrow, Option.getD_some,
      ← List.take_add, Nat.add_sub_cancel' hle]

/-- The columns that are stored with the entries of a row rise and lie inside. -/
theorem rowEntries {r : ℕ} (hr : r < a.rows) :
    ∃ entries, a.rowEntries? r = some entries ∧ (entries.map Prod.fst).Pairwise (· < ·) ∧
      ∀ c ∈ entries.map Prod.fst, c < a.cols := by
  obtain ⟨columns, hcolumns, hrise, hinside⟩ := h.columns r hr
  rw [← List.map_fst_zip h.length_colIndices.le, slots?_map, Option.map_eq_some_iff] at hcolumns
  obtain ⟨entries, hentries, rfl⟩ := hcolumns
  exact ⟨entries, hentries, hrise, hinside⟩

theorem rowOrdered_edges : RowOrdered (edges a) := by
  refine List.pairwise_flatMap.2 ⟨fun u hu => ?_, List.pairwise_lt_range.imp fun {u w} huw d hd e he => ?_⟩
  · obtain ⟨entries, hentries, hrise, -⟩ := h.rowEntries (List.mem_range.1 hu)
    rw [hentries, Option.getD_some, List.pairwise_map]
    exact (List.pairwise_map.1 hrise).imp fun hlt => Or.inr ⟨rfl, hlt⟩
  · obtain ⟨_, -, rfl⟩ := List.mem_map.1 hd
    obtain ⟨_, -, rfl⟩ := List.mem_map.1 he
    exact Or.inl huw

theorem edges_inside {e : Edge α} (he : e ∈ edges a) : e.src < a.rows ∧ e.dst < a.cols := by
  obtain ⟨u, hu, he⟩ := List.mem_flatMap.1 he
  have hu := List.mem_range.1 hu
  obtain ⟨entries, hentries, -, hinside⟩ := h.rowEntries hu
  rw [hentries, Option.getD_some] at he
  obtain ⟨p, hp, rfl⟩ := List.mem_map.1 he
  exact ⟨hu, hinside p.1 (List.mem_map_of_mem hp)⟩

/-- Row after row the edges go through all slots. -/
theorem map_edges {β : Type} {f : Edge α → β} {g : ℕ × α → β} (hfg : ∀ u p, f ⟨u, p.1, p.2⟩ = g p) :
    (edges a).map f = (a.colIndices.zip a.values).map g := by
  obtain ⟨stop, hstop, hslots⟩ := h.flatMap_slots (a.colIndices.zip a.values) le_rfl
  obtain rfl : a.values.length = stop := Option.some.inj (h.last.symm.trans hstop)
  rw [List.take_of_length_le (by simp)] at hslots
  rw [← hslots, edges, List.map_flatMap, List.map_flatMap]
  refine List.flatMap_congr fun u _ => ?_
  rw [List.map_map]
  exact List.map_congr_left fun p _ => hfg u p

theorem rowPtr_eq :
    a.rowPtr = (List.range (a.rows + 1)).map fun r => (edges a).countP (·.src < r) := by
  refine List.ext_getElem (by simp [h.length_rowPtr]) fun r hr hr' => ?_
  have hle : r ≤ a.rows := by simpa [h.length_rowPtr, Nat.lt_succ_iff] using hr
  obtain ⟨stop, hstop, hslots⟩ := h.flatMap_slots (a.colIndices.zip a.values) hle
  have hlen := congrArg List.length hslots
  rw [List.length_flatMap, List.length_take, List.length_zip, h.length_colIndices, Nat.min_self,
    Nat.min_eq_left (h.stop_le hle hstop)] at hlen
  obtain ⟨hlt, rfl⟩ := List.getElem?_eq_some_iff.1 hstop
  rw [List.getElem_map, List.getElem_range, edges, countP_flatMap_rows _ hle, List.length_flatMap]
  · simpa [rowEntries?] using hlen.symm
  · intro u e he
    obtain ⟨_, -, rfl⟩ := List.mem_map.1 he
    rfl

end Compressed

/-- What is stored well formed is the compressed form of edges in row order. -/
theorem compressed_iff {a : SparseMatrix α} :
    a.Compressed ↔ ∃ es, RowOrdered es ∧ (∀ e ∈ es, e.src < a.rows ∧ e.dst < a.cols) ∧
      a = compress a.rows a.cols es := by
  constructor
  · intro h
    have hdst : (edges a).map Edge.dst = a.colIndices :=
      (h.map_edges fun _ _ => rfl).trans (List.map_fst_zip h.length_colIndices.le)
    have hvalue : (edges a).map Edge.value = a.values :=
      (h.map_edges fun _ _ => rfl).trans (List.map_snd_zip h.length_colIndices.ge)
    refine ⟨edges a, h.rowOrdered_edges, fun e he => h.edges_inside he, ?_⟩
    rw [compress, ← h.rowPtr_eq, hdst, hvalue]
  · rintro ⟨es, hes, hin, ha⟩
    rw [ha]
    exact compressed_compress hes hin

/-- Looking a position up finds the value given for it last. -/
theorem position?_inRowOrder (es : List (Edge α)) {r : ℕ} (hr : r < rows) (c : ℕ) :
    ∃ slot, (compress rows cols (inRowOrder es)).position? r c = some slot ∧
      (slot.isSome ↔ (r, c) ∈ es.map ends) ∧
      slot.bind ((compress rows cols (inRowOrder es)).values[·]?) = lastValue? es r c := by
  have hordered := rowOrdered_inRowOrder es
  by_cases hgiven : (r, c) ∈ es.map ends
  · obtain ⟨e, he, hends⟩ := List.mem_map.1 (mem_ends_inRowOrder.2 hgiven)
    cases hends
    obtain ⟨k, hk, hslot⟩ := position?_compress_edge (m := cols) hordered he hr
    refine ⟨some k, hk, by simpa using hgiven, ?_⟩
    have hlast : (es.filter (·.ends == (e.src, e.dst))).getLast? = some e := mem_inRowOrder.1 he
    rw [lastValue?, hlast]
    simp [compress, hslot]
  · have hblank : (r, c) ∉ (inRowOrder es).map ends := mt mem_ends_inRowOrder.1 hgiven
    have hnone : es.filter (·.ends == (r, c)) = [] :=
      List.filter_eq_nil_iff.2 fun e he hends =>
        hgiven (List.mem_map.2 ⟨e, he, beq_iff_eq.1 hends⟩)
    refine ⟨none, position?_compress_blank hordered hr hblank, by simpa using hgiven, ?_⟩
    rw [lastValue?, hnone]
    rfl

/-- Entries in another order are refused alike and stored alike, as long as those of one position
keep their order. -/
theorem ofEntries_reordered (h : Reordered fs es) :
    ofEntries rows cols fs = ofEntries rows cols es := by
  have hmem : ∀ {e}, e ∈ fs ↔ e ∈ es := h.perm.mem_iff
  by_cases hin : ∀ e ∈ es, e.src < rows ∧ e.dst < cols
  · rw [ofEntries_ok hin, ofEntries_ok fun e he => hin e (hmem.1 he), inRowOrder_congr h]
  · obtain ⟨e, he, hnot⟩ : ∃ e ∈ es, ¬ (e.src < rows ∧ e.dst < cols) := by simpa using hin
    obtain ⟨d, hd, hdnot, hdfirst, hdes⟩ := ofEntries_error ⟨e, he, hnot⟩
    obtain ⟨c, hc, hcnot, hcfirst, hcfs⟩ := ofEntries_error ⟨e, hmem.2 he, hnot⟩
    -- both are first among the positions outside, so neither comes before the other
    have hends : c.ends = d.ends := by
      by_contra hne
      rcases before_or_before hne with hcd | hdc
      · exact hcnot (hdfirst c (hmem.1 hc) hcd)
      · exact hdnot (hcfirst d (hmem.2 hd) hdc)
    obtain ⟨hsrc, hdst⟩ := ends_eq_iff.1 hends
    rw [hcfs, hdes, hsrc, hdst]

/-- A matrix comes of exactly those entries that all lie inside. It is well formed, holds the
positions that are named with the values given for them last, and does not depend on the order in
which different positions are named. -/
theorem ofEntries_stores_last (rows cols : ℕ) (entries : List (Edge α)) :
    ((∃ a, ofEntries rows cols entries = .ok a) ↔ ∀ e ∈ entries, e.src < rows ∧ e.dst < cols) ∧
    (∀ a, ofEntries rows cols entries = .ok a →
      a.rows = rows ∧ a.cols = cols ∧ a.Compressed ∧
      ∀ r < rows, ∀ c, ∃ slot, a.position? r c = some slot ∧
        (slot.isSome ↔ (r, c) ∈ entries.map ends) ∧
        slot.bind (a.values[·]?) = lastValue? entries r c) ∧
    ∀ reordered, Reordered reordered entries →
      ofEntries rows cols reordered = ofEntries rows cols entries := by
  refine ⟨ofEntries_ok_iff, fun a ha => ?_, fun _ h => ofEntries_reordered h⟩
  have hin := ofEntries_ok_iff.1 ⟨a, ha⟩
  rw [ofEntries_ok hin] at ha
  cases ha
  exact ⟨rfl, rfl, compressed_compress (rowOrdered_inRowOrder entries) fun e he =>
    hin e (mem_of_mem_inRowOrder he), fun r hr c => position?_inRowOrder entries hr c⟩

/-- Of two values for one position the later one is found, whichever other entry stands between. -/
theorem ofEntries_stores_last_again :
    ∃ a : SparseMatrix ℕ, ofEntries 2 2 [⟨1, 0, 1⟩, ⟨0, 1, 2⟩, ⟨1, 0, 5⟩] = .ok a ∧ a.Compressed ∧
      ofEntries 2 2 [⟨1, 0, 1⟩, ⟨1, 0, 5⟩, ⟨0, 1, 2⟩] = .ok a ∧
      ∃ k, a.position? 1 0 = some (some k) ∧ a.values[k]? = some 5 := by
  obtain ⟨hok, hstored, hreordered⟩ :=
    ofEntries_stores_last 2 2 ([⟨1, 0, 1⟩, ⟨0, 1, 2⟩, ⟨1, 0, 5⟩] : List (Edge ℕ))
  obtain ⟨a, ha⟩ := hok.2 (by decide)
  obtain ⟨-, -, hcompressed, hslots⟩ := hstored a ha
  obtain ⟨slot, hslot, hsome, hvalue⟩ := hslots 1 (by decide) 0
  obtain ⟨k, rfl⟩ := Option.isSome_iff_exists.1 (hsome.2 (by decide))
  refine ⟨a, ha, hcompressed, (hreordered _ fun p => ?_).trans ha, k, hslot, hvalue⟩
  -- only the entry at `(0, 1)` has moved
  by_cases hp : p = (0, 1)
  · subst hp
    rfl
  · have hmoved : ((0, 1) == p) = false := beq_eq_false_iff_ne.2 (Ne.symm hp)
    simp [ends, List.filter_cons, hmoved]

end NeuralFlow.SparseMatrix
