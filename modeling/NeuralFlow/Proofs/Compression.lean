import Mathlib
import NeuralFlow.Proofs.RowOrder

/-! Compressed rows from loose entries. One pass over the sorted entries stores the list that
`inRowOrder` keeps, so the matrix it ends in is that list compressed; halving finds a column because
the columns of a row rise. -/

namespace NeuralFlow

open Edge

variable {α : Type}

namespace SparseMatrix

def compress (rows cols : ℕ) (placed : List (Edge α)) : SparseMatrix α where
  rows := rows
  cols := cols
  rowPtr := (List.range (rows + 1)).map fun r => placed.countP (·.src < r)
  colIndices := placed.map Edge.dst
  values := placed.map Edge.value

/-! Looking up. -/

/-- In a rising list each number tells on which side of it another one can be. -/
theorem findIdx?_rising {low upper : List ℕ} {y : ℕ} (h : (low ++ y :: upper).Pairwise (· < ·))
    (x : ℕ) : (low ++ y :: upper).findIdx? (· == x) =
      if x = y then some low.length
      else if x < y then low.findIdx? (· == x)
      else (upper.findIdx? (· == x)).map (low.length + 1 + ·) := by
  obtain ⟨-, hupper, hlow⟩ := List.pairwise_append.1 h
  have hbehind := (List.pairwise_cons.1 hupper).1
  rw [List.findIdx?_append, List.findIdx?_cons]
  rcases lt_trichotomy x y with hxy | rfl | hxy
  · have hnone : upper.findIdx? (· == x) = none :=
      List.findIdx?_eq_none_iff.2 fun z hz => by simpa using (hxy.trans (hbehind z hz)).ne'
    simp [hxy, hxy.ne, hxy.ne', hnone]
  · have hnone : low.findIdx? (· == x) = none :=
      List.findIdx?_eq_none_iff.2 fun z hz => by simpa using (hlow z hz x List.mem_cons_self).ne
    simp [hnone]
  · have hnone : low.findIdx? (· == x) = none :=
      List.findIdx?_eq_none_iff.2 fun z hz => by
        simpa using ((hlow z hz y List.mem_cons_self).trans hxy).ne
    simp [hxy.ne, hxy.ne', hxy.not_gt, hnone, Function.comp_def, add_comm, add_left_comm]

/-- In a rising list halving finds what going through it finds. -/
theorem binarySearch?_eq {xs : List ℕ} (h : xs.Pairwise (· < ·)) (x : ℕ) :
    binarySearch? xs x = xs.findIdx? (· == x) := by
  induction hn : xs.length using Nat.strong_induction_on generalizing xs with
  | h n ih =>
    subst hn
    unfold binarySearch?
    split
    next hdrop =>
      have hlen : xs.length = 0 := by
        have := List.drop_eq_nil_iff.1 hdrop
        omega
      rw [List.length_eq_zero_iff.1 hlen]
      rfl
    next y upper hdrop =>
      have hsplit : xs.take (xs.length / 2) ++ y :: upper = xs := by
        rw [← hdrop, List.take_append_drop]
      have hlow : (xs.take (xs.length / 2)).length = xs.length / 2 := by
        rw [List.length_take]; omega
      have hupper := congrArg List.length hsplit
      rw [List.length_append, hlow, List.length_cons] at hupper
      -- only one copy of the list may be split: its length stands in the bounds of the halves
      have hrise := h
      rw [← hsplit] at hrise
      obtain ⟨hrlow, hrupper, -⟩ := List.pairwise_append.1 hrise
      conv_rhs => rw [← hsplit]
      rw [findIdx?_rising hrise, hlow, ih _ (by rw [hlow]; omega) hrlow rfl,
        ih _ (by omega) (List.pairwise_cons.1 hrupper).2 rfl]

theorem slots?_map {β γ : Type} (a : SparseMatrix α) (r : ℕ) (xs : List β) (f : β → γ) :
    a.slots? r (xs.map f) = (a.slots? r xs).map (List.map f) := by
  unfold slots?
  cases a.rowPtr[r]? with
  | none => rfl
  | some start =>
    cases a.rowPtr[r + 1]? with
    | none => rfl
    | some stop => simp [List.map_take, List.map_drop]

section Compress

variable {n m : ℕ} {es : List (Edge α)} (h : RowOrdered es)

theorem rowPtr_compress {r : ℕ} (hr : r ≤ n) :
    (compress n m es).rowPtr[r]? = some (es.countP (·.src < r)) := by
  simp [compress, show r < n + 1 by omega]

include h in
theorem slots?_compress {β : Type} {r : ℕ} (hr : r < n) (f : Edge α → β) :
    (compress n m es).slots? r (es.map f) = some ((es.filter (·.src == r)).map f) := by
  rw [slots?, rowPtr_compress hr.le, rowPtr_compress (Nat.succ_le_of_lt hr)]
  change some _ = some _
  rw [← List.map_drop, ← List.map_take, h.slots_eq_row]

include h in
theorem rowEntries?_compress {r : ℕ} (hr : r < n) :
    (compress n m es).rowEntries? r =
      some ((es.filter (·.src == r)).map fun e => (e.dst, e.value)) := by
  rw [← slots?_compress (m := m) h hr, rowEntries?]
  congr 1
  simp [compress, List.zip_map']

include h in
theorem position?_compress {r : ℕ} (hr : r < n) (c : ℕ) :
    (compress n m es).position? r c =
      some ((((es.filter (·.src == r)).map Edge.dst).findIdx? (· == c)).map
        (es.countP (·.src < r) + ·)) := by
  have hslots := slots?_compress (m := m) h hr Edge.dst
  rw [position?, show (compress n m es).colIndices = es.map Edge.dst from rfl, hslots,
    rowPtr_compress hr.le, ← binarySearch?_eq (h.pairwise_dst r)]
  rfl

include h in
/-- The slot of an edge holds it. -/
theorem position?_compress_edge {e : Edge α} (he : e ∈ es) (hsrc : e.src < n) :
    ∃ k, (compress n m es).position? e.src e.dst = some (some k) ∧ es[k]? = some e := by
  have hrow : e ∈ es.filter (·.src == e.src) := by simpa using he
  obtain ⟨k, hk⟩ : ∃ k, ((es.filter (·.src == e.src)).map Edge.dst).findIdx? (· == e.dst) = some k := by
    rw [← Option.isSome_iff_exists, List.findIdx?_isSome, List.any_eq_true]
    exact ⟨e.dst, List.mem_map_of_mem hrow, beq_self_eq_true _⟩
  obtain ⟨hlt, hdst, -⟩ := List.findIdx?_eq_some_iff_getElem.1 hk
  rw [List.length_map] at hlt
  rw [List.getElem_map, beq_iff_eq] at hdst
  have hmem := List.getElem_mem hlt
  have hke : (es.filter (·.src == e.src))[k] = e := by
    refine (h.filter _).ends_injective hmem hrow (ends_eq_iff.2 ⟨?_, hdst⟩)
    simpa using (List.mem_filter.1 hmem).2
  refine ⟨_, by rw [position?_compress h hsrc, hk, Option.map_some], ?_⟩
  rw [h.getElem?_row hlt, List.getElem?_eq_getElem hlt, hke]

include h in
theorem position?_compress_blank {r c : ℕ} (hr : r < n) (hblank : (r, c) ∉ es.map ends) :
    (compress n m es).position? r c = some none := by
  have hnone : ((es.filter (·.src == r)).map Edge.dst).findIdx? (· == c) = none := by
    refine List.findIdx?_eq_none_iff.2 fun d hd => ?_
    obtain ⟨e, he, rfl⟩ := List.mem_map.1 hd
    obtain ⟨hmem, hsrc⟩ := List.mem_filter.1 he
    rw [beq_eq_false_iff_ne]
    rintro rfl
    exact hblank (List.mem_map.2 ⟨e, hmem, Prod.ext (beq_iff_eq.1 hsrc) rfl⟩)
  rw [position?_compress h hr, hnone, Option.map_none]

end Compress

/-! The pass over the sorted entries. -/

theorem countP_src_succ (es : List (Edge α)) (r : ℕ) :
    es.countP (·.src < r) + es.countP (·.src + 1 == r + 1) = es.countP (·.src < r + 1) := by
  induction es with
  | nil => rfl
  | cons e es ih =>
    simp only [List.countP_cons, decide_eq_true_eq, beq_iff_eq] at ih ⊢
    split_ifs <;> omega

theorem runningTotals_map {f g : ℕ → ℕ} (hstep : ∀ i, f i + g (i + 1) = f (i + 1))
    (size total first : ℕ) (hfirst : total + g first = f first) :
    runningTotals total ((List.range' first size).map g) = (List.range' first size).map f := by
  induction size generalizing total first with
  | zero => rfl
  | succ size ih =>
    rw [List.range'_succ, List.map_cons, List.map_cons, runningTotals, hfirst,
      ih _ _ (hstep first)]

namespace Stored

def of (rows : ℕ) (placed : List (Edge α)) : Stored α where
  counts := (List.range (rows + 1)).map fun r => placed.countP (·.src + 1 == r)
  columns := (placed.map Edge.dst).reverse
  values := (placed.map Edge.value).reverse
  last := placed.getLast?.map ends

theorem of_nil (rows : ℕ) :
    of rows ([] : List (Edge α)) = ⟨List.replicate (rows + 1) 0, [], [], none⟩ := by
  simp [of]

/-- Up to each row the counts add up to its pointer. -/
theorem runningTotals_counts (rows cols : ℕ) (placed : List (Edge α)) :
    runningTotals 0 (of rows placed).counts = (compress rows cols placed).rowPtr := by
  have hsum := runningTotals_map (f := fun r => placed.countP (·.src < r))
    (g := fun r => placed.countP (·.src + 1 == r)) (countP_src_succ placed) (rows + 1)
    0 0 (by simp)
  rwa [← List.range_eq_range'] at hsum

variable {rows cols : ℕ} {placed : List (Edge α)} {d e : Edge α}

theorem push_new (hin : e.src < rows ∧ e.dst < cols) (hnew : ∀ d ∈ placed, Before d e) :
    push rows cols (of rows placed) e = .ok (of rows (placed ++ [e])) := by
  have hlast : (of rows placed).last ≠ some (e.src, e.dst) := fun h => by
    obtain ⟨d, hd, hends⟩ := Option.map_eq_some_iff.1 h
    exact (hnew d (List.mem_of_getLast? hd)).ends_ne hends
  have hcounts : (of rows placed).counts.modify (e.src + 1) (· + 1) =
      (of rows (placed ++ [e])).counts := by
    refine List.ext_getElem (by simp [of]) fun r hr hr' => ?_
    simp only [of, List.getElem_modify, List.getElem_map, List.getElem_range, List.countP_append,
      List.countP_singleton, beq_iff_eq]
    split_ifs <;> rfl
  rw [push, if_neg (by simpa using hin), if_neg (by simpa using hlast), hcounts]
  simp [of, ends]

theorem push_again (hin : e.src < rows ∧ e.dst < cols) (hends : d.ends = e.ends) :
    push rows cols (of rows (placed ++ [d])) e = .ok (of rows (placed ++ [e])) := by
  obtain ⟨hsrc, hdst⟩ := ends_eq_iff.1 hends
  have hlast : ((of rows (placed ++ [d])).last == some (e.src, e.dst)) = true := by
    simp [of, ends, hsrc, hdst]
  rw [push, if_neg (by simpa using hin), if_pos hlast]
  simp [of, hends, hsrc, hdst]

end Stored

theorem insertEntry_new {placed : List (Edge α)} {e : Edge α} (hnew : ∀ d ∈ placed, Before d e) :
    insertEntry e placed = placed ++ [e] := by
  induction placed with
  | nil => rfl
  | cons d placed ih =>
    have hde := hnew d List.mem_cons_self
    have hed : ¬ precedes e d = true := fun h => (hde.trans (before_iff.2 h)).irrefl
    rw [insertEntry, if_neg hed, if_pos (before_iff.1 hde),
      ih fun c hc => hnew c (List.mem_cons_of_mem _ hc), List.cons_append]

theorem insertEntry_again {placed : List (Edge α)} {d e : Edge α} (h : RowOrdered (placed ++ [d]))
    (hends : d.ends = e.ends) : insertEntry e (placed ++ [d]) = placed ++ [e] := by
  obtain ⟨hplaced, -, hbefore⟩ := List.pairwise_append.1 h
  have hnew : ∀ c ∈ placed, Before c e := fun c hc =>
    (before_congr rfl hends).1 (hbefore c hc d (List.mem_singleton_self d))
  have hkept : RowOrdered (placed ++ [e]) := insertEntry_new hnew ▸ rowOrdered_insertEntry hplaced e
  refine (rowOrdered_insertEntry h e).eq_of_mem_iff hkept fun c => ?_
  rw [mem_insertEntry h, List.mem_append, List.mem_append, List.mem_singleton, List.mem_singleton]
  constructor
  · rintro (rfl | ⟨hc | rfl, hne⟩)
    · exact Or.inr rfl
    · exact Or.inl hc
    · exact absurd hends hne
  · rintro (hc | rfl)
    · exact Or.inr ⟨Or.inl hc, (hnew c hc).ends_ne⟩
    · exact Or.inl rfl

/-- Each step of the pass takes its entry into row order. -/
theorem push_of {rows cols : ℕ} {placed : List (Edge α)} {e : Edge α} (h : RowOrdered placed)
    (hlast : ∀ d ∈ placed, ¬ Before e d) (hin : e.src < rows ∧ e.dst < cols) :
    Stored.push rows cols (Stored.of rows placed) e =
      .ok (Stored.of rows (insertEntry e placed)) := by
  rcases placed.eq_nil_or_concat' with rfl | ⟨placed, d, rfl⟩
  · exact Stored.push_new hin (by simp)
  · by_cases hends : d.ends = e.ends
    · rw [Stored.push_again hin hends, insertEntry_again h hends]
    · have hde : Before d e := (before_or_before hends).resolve_right (hlast d (by simp))
      have hnew : ∀ c ∈ placed ++ [d], Before c e := fun c hc => by
        rcases List.mem_append.1 hc with hc | hc
        · exact ((List.pairwise_append.1 h).2.2 c hc d (List.mem_singleton_self d)).trans hde
        · rwa [List.mem_singleton.1 hc]
      rw [Stored.push_new hin hnew, insertEntry_new hnew]

/-- A pass over sorted entries that lie inside stores the last one of each position. -/
theorem foldlM_push {rows cols : ℕ} {sorted : List (Edge α)}
    (hsorted : sorted.Pairwise fun d e => ¬ Before e d)
    (hin : ∀ e ∈ sorted, e.src < rows ∧ e.dst < cols) :
    sorted.foldlM (Stored.push rows cols) (Stored.of rows []) =
      .ok (Stored.of rows (inRowOrder sorted)) := by
  -- what is stored for the entries before the last one is the state that the last step starts from
  induction sorted using List.reverseRecOn with
  | nil => rfl
  | append_singleton sorted e ih =>
    obtain ⟨hinit, -, hlast⟩ := List.pairwise_append.1 hsorted
    have hstep : Stored.push rows cols (Stored.of rows (inRowOrder sorted)) e =
        .ok (Stored.of rows (insertEntry e (inRowOrder sorted))) :=
      push_of (rowOrdered_inRowOrder sorted)
        (fun d hd => hlast d (mem_of_mem_inRowOrder hd) e (List.mem_singleton_self e))
        (hin e (by simp))
    rw [List.foldlM_append, ih hinit fun d hd => hin d (List.mem_append_left _ hd),
      inRowOrder_append_singleton, ← hstep]
    change [e].foldlM (Stored.push rows cols) _ = _
    rw [List.foldlM_cons]
    exact bind_pure _

/-- The pass ends at the first entry that lies outside. -/
theorem foldlM_push_error {rows cols : ℕ} {init rest : List (Edge α)} {e : Edge α}
    (hsorted : init.Pairwise fun d e => ¬ Before e d)
    (hin : ∀ d ∈ init, d.src < rows ∧ d.dst < cols) (hout : ¬ (e.src < rows ∧ e.dst < cols)) :
    (init ++ e :: rest).foldlM (Stored.push rows cols) (Stored.of rows []) =
      .error (.entryOutOfBounds e.src e.dst rows cols) := by
  have hpush : Stored.push rows cols (Stored.of rows (inRowOrder init)) e =
      .error (.entryOutOfBounds e.src e.dst rows cols) :=
    if_pos (by simpa [imp_iff_not_or] using hout)
  rw [List.foldlM_append, foldlM_push hsorted hin]
  change (e :: rest).foldlM (Stored.push rows cols) _ = _
  rw [List.foldlM_cons, hpush]
  rfl

/-! Sorting. -/

theorem not_precedes_trans (d e f : Edge α) (hde : (!precedes e d) = true)
    (hef : (!precedes f e) = true) : (!precedes f d) = true := by
  simp only [precedes, Bool.not_eq_true', Bool.or_eq_false_iff, Bool.and_eq_false_iff,
    decide_eq_false_iff_not, beq_eq_false_iff_ne] at hde hef ⊢
  omega

theorem not_precedes_total (d e : Edge α) : ((!precedes e d) || !precedes d e) = true := by
  simp only [precedes, Bool.or_eq_true, Bool.not_eq_true', Bool.or_eq_false_iff,
    Bool.and_eq_false_iff, decide_eq_false_iff_not, beq_eq_false_iff_ne]
  omega

theorem sorted_sortEntries (es : List (Edge α)) :
    (sortEntries es).Pairwise fun d e => ¬ Before e d :=
  (List.pairwise_mergeSort not_precedes_trans not_precedes_total es).imp fun {d e} h hed => by
    rw [before_iff] at hed
    simp [hed] at h

/-- Sorting keeps the entries of each position in their order. -/
theorem reordered_sortEntries (es : List (Edge α)) : Reordered (sortEntries es) es := by
  intro p
  have hequal : (es.filter (·.ends == p)).Pairwise fun d e => (!precedes e d) = true := by
    refine List.pairwise_of_forall_mem_list fun d hd e he => ?_
    have hends : e.ends = d.ends := by
      rw [List.mem_filter, beq_iff_eq] at hd he
      rw [hd.2, he.2]
    have hed : ¬ Before e d := fun h => h.ends_ne hends
    rw [before_iff] at hed
    simpa using hed
  -- they are a sorted sublist, which a stable sort keeps; as many stand at the position afterwards
  have hsub := (List.sublist_mergeSort not_precedes_trans not_precedes_total hequal
    List.filter_sublist).filter (·.ends == p)
  rw [List.filter_filter] at hsub
  simp only [Bool.and_self] at hsub
  exact (hsub.eq_of_length ((List.mergeSort_perm _ _).filter _).length_eq.symm).symm

theorem mem_sortEntries {es : List (Edge α)} {e : Edge α} : e ∈ sortEntries es ↔ e ∈ es :=
  List.mem_mergeSort

variable {rows cols : ℕ} {es : List (Edge α)}

/-- Entries that lie inside are stored in row order, the last one of each position. -/
theorem ofEntries_ok (hin : ∀ e ∈ es, e.src < rows ∧ e.dst < cols) :
    ofEntries rows cols es = .ok (compress rows cols (inRowOrder es)) := by
  have hpass := foldlM_push (sorted_sortEntries es) fun e he => hin e (mem_sortEntries.1 he)
  rw [inRowOrder_congr (reordered_sortEntries es)] at hpass
  rw [ofEntries, ← Stored.of_nil, hpass]
  change Except.ok _ = _
  rw [Stored.runningTotals_counts rows cols]
  simp [Stored.of, compress]

/-- The first position in row order that lies outside is refused. -/
theorem ofEntries_error (hout : ∃ e ∈ es, ¬ (e.src < rows ∧ e.dst < cols)) :
    ∃ e ∈ es, ¬ (e.src < rows ∧ e.dst < cols) ∧
      (∀ d ∈ es, Before d e → d.src < rows ∧ d.dst < cols) ∧
      ofEntries rows cols es = .error (.entryOutOfBounds e.src e.dst rows cols) := by
  have hfound : ((sortEntries es).find? fun e => rows ≤ e.src || cols ≤ e.dst).isSome := by
    obtain ⟨e, he, hnot⟩ := hout
    rw [List.find?_isSome]
    exact ⟨e, mem_sortEntries.2 he, by simpa [imp_iff_not_or] using hnot⟩
  obtain ⟨e, he⟩ := Option.isSome_iff_exists.1 hfound
  obtain ⟨hfirst, init, rest, hsplit, hinit⟩ := List.find?_eq_some_iff_append.1 he
  have hnot : ¬ (e.src < rows ∧ e.dst < cols) := by simpa [imp_iff_not_or] using hfirst
  have hin : ∀ d ∈ init, d.src < rows ∧ d.dst < cols := fun d hd => by simpa using hinit d hd
  have hsorted := sorted_sortEntries es
  rw [hsplit] at hsorted
  obtain ⟨hsinit, hsrest, -⟩ := List.pairwise_append.1 hsorted
  refine ⟨e, mem_sortEntries.1 (by simp [hsplit]), hnot, fun d hd hde => ?_, ?_⟩
  · have hmem := mem_sortEntries.2 hd
    rw [hsplit, List.mem_append, List.mem_cons] at hmem
    rcases hmem with hd | rfl | hd
    · exact hin d hd
    · exact absurd hde (Before.irrefl d)
    · exact absurd hde ((List.pairwise_cons.1 hsrest).1 d hd)
  · rw [ofEntries, hsplit, ← Stored.of_nil, foldlM_push_error hsinit hin hnot]
    rfl

theorem ofEntries_ok_iff :
    (∃ a, ofEntries rows cols es = .ok a) ↔ ∀ e ∈ es, e.src < rows ∧ e.dst < cols := by
  refine ⟨fun ⟨a, ha⟩ => ?_, fun hin => ⟨_, ofEntries_ok hin⟩⟩
  by_contra hnot
  obtain ⟨e, he, hout⟩ : ∃ e ∈ es, ¬ (e.src < rows ∧ e.dst < cols) := by simpa using hnot
  obtain ⟨d, -, -, -, herr⟩ := ofEntries_error ⟨e, he, hout⟩
  cases ha.symm.trans herr

end SparseMatrix

end NeuralFlow
