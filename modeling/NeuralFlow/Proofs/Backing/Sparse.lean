import Mathlib
import NeuralFlow.Proofs.Backing
import NeuralFlow.Proofs.Compression

/-! Sparse matrices keep the laws of a backing. A square one is the compressed form of its edges, so
every law is read off `compress` for a list in row order; new values compress the same positions. -/

namespace NeuralFlow.SparseMatrix

open Edge EdgeMatrix

variable {α : Type}

/-- The compressed form of edges in row order that lie inside. -/
def Square (a : SparseMatrix α) : Prop :=
  ∃ es : List (Edge α), RowOrdered es ∧ (∀ e ∈ es, e.src < a.rows ∧ e.dst < a.rows) ∧
    a = compress a.rows a.rows es

theorem square_compress {n : ℕ} {es : List (Edge α)} (h : RowOrdered es)
    (hn : ∀ e ∈ es, e.src < n ∧ e.dst < n) : Square (compress n n es) :=
  ⟨es, h, hn, rfl⟩

section Compress

variable {n : ℕ} {es : List (Edge α)} (h : RowOrdered es)

include h in
theorem edges_compress (hn : ∀ e ∈ es, e.src < n) : edges (compress n n es) = es := by
  conv_rhs => rw [← h.flatMap_rows hn]
  change (List.range n).flatMap _ = _
  refine List.flatMap_congr fun u hu => ?_
  rw [rowEntries?_compress h (List.mem_range.1 hu), Option.getD_some, List.map_map]
  conv_rhs => rw [← List.map_id (es.filter (·.src == u))]
  refine List.map_congr_left fun e he => ?_
  obtain ⟨-, rfl⟩ := by simpa using he
  rfl

include h in
theorem hasEdge?_compress (hn : ∀ e ∈ es, e.src < n) {u : ℕ} (hu : u < n) (v : ℕ) :
    ((compress n n es).position? u v).map Option.isSome =
      some (decide ((u, v) ∈ pattern (compress n n es))) := by
  have hpat : pattern (compress n n es) = es.map ends := congrArg _ (edges_compress h hn)
  rw [hpat]
  by_cases hedge : (u, v) ∈ es.map ends
  · obtain ⟨e, he, hends⟩ := List.mem_map.1 hedge
    cases hends
    obtain ⟨k, hk, -⟩ := position?_compress_edge (m := n) h he hu
    rw [hk, decide_eq_true hedge]
    rfl
  · rw [position?_compress_blank h hu hedge, decide_eq_false hedge]
    rfl

include h in
/-- The value in the slot of an edge is its value. -/
theorem get?_compress_edge [Scalar α] (hn : ∀ e ∈ es, e.src < n) {e : Edge α} (he : e ∈ es) :
    (compress n n es).get? e.src e.dst = some e.value := by
  obtain ⟨k, hk, hslot⟩ := position?_compress_edge (m := n) h he (hn e he)
  rw [get?, hk]
  simp [compress, hslot]

include h in
theorem get?_compress_blank [Scalar α] (hn : ∀ e ∈ es, e.src < n) {u v : ℕ} (hu : u < n)
    (hp : (u, v) ∉ pattern (compress n n es)) : (compress n n es).get? u v = some 0 := by
  have hpat : pattern (compress n n es) = es.map ends := congrArg _ (edges_compress h hn)
  rw [get?, position?_compress_blank h hu (hpat ▸ hp)]
  rfl

theorem refill_compress (new : List α) :
    (compress n n es).refill new =
      compress n n (setValues es (fitTo (es.map Edge.value) new)) := by
  have hlen : (fitTo (es.map Edge.value) new).length = es.length := by
    rw [length_fitTo, List.length_map]
  have hends := ends_setValues hlen
  have hcount : ∀ r, (setValues es (fitTo (es.map Edge.value) new)).countP (·.src < r) =
      es.countP (·.src < r) := by
    intro r
    have := congrArg (List.countP fun p : ℕ × ℕ => p.1 < r) hends
    rwa [List.countP_map, List.countP_map] at this
  have hdst : (setValues es (fitTo (es.map Edge.value) new)).map Edge.dst = es.map Edge.dst := by
    have := congrArg (List.map Prod.snd) hends
    rwa [List.map_map, List.map_map] at this
  simp only [refill, compress, hcount, hdst, values_setValues hlen]

include h in
/-- The pattern is read off the pointers and columns. -/
theorem pattern_compress (hn : ∀ e ∈ es, e.src < n) :
    pattern (compress n n es) = (List.range n).flatMap fun u =>
      (((compress n n es).slots? u (compress n n es).colIndices).getD []).map fun v => (u, v) := by
  have hpat : pattern (compress n n es) = es.map ends := congrArg _ (edges_compress h hn)
  rw [hpat]
  conv_lhs => rw [← h.flatMap_rows hn]
  rw [List.map_flatMap]
  refine List.flatMap_congr fun u hu => ?_
  have hslots := slots?_compress (m := n) h (List.mem_range.1 hu) Edge.dst
  rw [show (compress n n es).colIndices = es.map Edge.dst from rfl, hslots, Option.getD_some,
    List.map_map]
  refine List.map_congr_left fun e he => ?_
  obtain ⟨-, rfl⟩ := by simpa using he
  rfl

end Compress

theorem sameLayout_iff {a b : SparseMatrix α} (ha : a.Square) (hb : b.Square) :
    (a.rowPtr == b.rowPtr && a.colIndices == b.colIndices) = true ↔
      a.rows = b.rows ∧ pattern a = pattern b := by
  obtain ⟨es, he, hen, hae⟩ := ha
  obtain ⟨fs, hf, hfn, hbf⟩ := hb
  rw [Bool.and_eq_true, beq_iff_eq, beq_iff_eq]
  constructor
  · rintro ⟨hptr, hcol⟩
    have hrows : a.rows = b.rows := by
      have hlen := congrArg List.length hptr
      rw [hae, hbf] at hlen
      simpa [compress] using hlen
    have hpa := pattern_compress he fun e h => (hen e h).1
    have hpb := pattern_compress hf fun e h => (hfn e h).1
    rw [← hae] at hpa
    rw [← hbf] at hpb
    refine ⟨hrows, ?_⟩
    rw [hpa, hpb, hrows, hcol]
    simp only [slots?, hptr]
  · rintro ⟨hrows, hpat⟩
    -- the row pointers count the edges before each row, so the ends alone fix them
    have hpa : pattern a = es.map ends := by
      rw [hae]; exact congrArg _ (edges_compress he fun e h => (hen e h).1)
    have hpb : pattern b = fs.map ends := by
      rw [hbf]; exact congrArg _ (edges_compress hf fun e h => (hfn e h).1)
    have hends : es.map ends = fs.map ends := hpa ▸ hpb ▸ hpat
    have hcount : ∀ r, es.countP (·.src < r) = fs.countP (·.src < r) := fun r => by
      have := congrArg (List.countP fun p : ℕ × ℕ => p.1 < r) hends
      rwa [List.countP_map, List.countP_map] at this
    have hdst : es.map Edge.dst = fs.map Edge.dst := by
      have := congrArg (List.map Prod.snd) hends
      rwa [List.map_map, List.map_map] at this
    rw [hae, hbf]
    simp [compress, hrows, hcount, hdst]

/-! New values keep the positions. -/

theorem square_refill {a : SparseMatrix α} (new : List α) (h : a.Square) : (a.refill new).Square := by
  obtain ⟨es, hes, hn, ha⟩ := h
  have hlen : (fitTo (es.map Edge.value) new).length = es.length := by
    rw [length_fitTo, List.length_map]
  have hends := ends_setValues hlen
  refine ⟨_, hes.of_ends_eq hends, fun e he => ?_, ?_⟩
  · obtain ⟨d, hd, hde⟩ := List.mem_map.1 (hends ▸ List.mem_map_of_mem he : e.ends ∈ es.map ends)
    rw [ends_eq_iff] at hde
    exact hde.1 ▸ hde.2 ▸ hn d hd
  · conv_lhs => rw [ha]
    exact refill_compress new

theorem edges_refill {a : SparseMatrix α} {new : List α} (h : a.Square)
    (hnew : new.length = (edges a).length) : edges (a.refill new) = setValues (edges a) new := by
  obtain ⟨es, hes, hn, ha⟩ := h
  have hedges : edges a = es := by
    rw [ha]; exact edges_compress hes fun e h => (hn e h).1
  rw [hedges] at hnew ⊢
  have hends := ends_setValues hnew
  have hlt : ∀ e ∈ setValues es new, e.src < a.rows := fun e he => by
    obtain ⟨d, hd, hde⟩ := List.mem_map.1 (hends ▸ List.mem_map_of_mem he : e.ends ∈ es.map ends)
    exact (ends_eq_iff.1 hde).1 ▸ (hn d hd).1
  conv_lhs => rw [ha]
  rw [refill_compress, fitTo_of_length_eq (by rw [hnew, List.length_map]),
    edges_compress (hes.of_ends_eq hends) hlt]

section Numbers

variable [Scalar α]

theorem ofEdges_ok {n : ℕ} {es : List (Edge α)} (h : ∀ e ∈ es, e.Fits n) :
    (ofEdges n es : Outcome α (SparseMatrix α)) = .ok (compress n n (inRowOrder es)) := by
  have hfinite : es.find? (fun e => !Scalar.isFinite e.value) = none := by
    rw [List.find?_eq_none]
    intro e he
    simp [(h e he).2.2]
  simp only [ofEdges, hfinite]
  exact ofEntries_ok fun e he => ⟨(h e he).1, (h e he).2.1⟩

theorem ofEdges_error {n : ℕ} {es : List (Edge α)} (h : ¬ ∀ e ∈ es, e.Fits n) :
    ∃ err, (ofEdges n es : Outcome α (SparseMatrix α)) = .error err := by
  unfold ofEdges
  split
  · exact ⟨_, rfl⟩
  · rename_i hfinite
    rw [List.find?_eq_none] at hfinite
    obtain ⟨e, he, hfit⟩ : ∃ e ∈ es, ¬ e.Fits n := by simpa using h
    have hout : ¬ (e.src < n ∧ e.dst < n) := fun hin =>
      hfit ⟨hin.1, hin.2, by simpa using hfinite e he⟩
    obtain ⟨d, -, -, -, herr⟩ := ofEntries_error ⟨e, he, hout⟩
    exact ⟨_, herr⟩

def addScaled (x : Grid α) (sums : List α) (entry : ℕ × α) : List α :=
  List.zipWith (fun sum y => sum + entry.2 * y) sums (x.lines.getD entry.1 [])

theorem timesRow_eq {x : Grid α} {entries : List (ℕ × α)} (h : ∀ p ∈ entries, p.1 < x.rows) :
    timesRow x entries = .ok (entries.foldl (addScaled x) (List.replicate x.cols 0)) := by
  unfold timesRow
  generalize List.replicate x.cols (0 : α) = sums
  induction entries generalizing sums with
  | nil => rfl
  | cons p entries ih =>
    have hp : x.lines[p.1]? = some (x.lines.getD p.1 []) := by
      have : p.1 < x.lines.length := h p List.mem_cons_self
      simp [this]
    rw [List.foldlM_cons]
    obtain ⟨c, w⟩ := p
    simp only [hp]
    exact ih (fun q hq => h q (List.mem_cons_of_mem _ hq)) _

theorem length_foldl_addScaled {x : Grid α} {entries : List (ℕ × α)} (sums : List α)
    (h : ∀ p ∈ entries, p.1 < x.rows) (hs : sums.length = x.cols) :
    (entries.foldl (addScaled x) sums).length = x.cols := by
  induction entries generalizing sums with
  | nil => exact hs
  | cons p entries ih =>
    have hp : p.1 < x.lines.length := h p List.mem_cons_self
    refine ih _ (fun q hq => h q (List.mem_cons_of_mem _ hq)) ?_
    have hw := x.width_eq _ (List.getElem_mem hp)
    simp [addScaled, hs, hp, hw]

/-- The product is made of the products of the rows. -/
theorem times_compress {n : ℕ} {es : List (Edge α)} (h : RowOrdered es)
    (hn : ∀ e ∈ es, e.src < n ∧ e.dst < n) {x : Grid α} (hx : x.rows = n) :
    ∃ y, (compress n n es).times x = .ok y ∧ y.cols = x.cols ∧
      y.lines = (List.range n).map fun r =>
        ((es.filter (·.src == r)).map fun e => (e.dst, e.value)).foldl (addScaled x)
          (List.replicate x.cols 0) := by
  have hin : ∀ r, ∀ p ∈ (es.filter (·.src == r)).map fun e => (e.dst, e.value), p.1 < x.rows := by
    intro r p hp
    obtain ⟨e, he, rfl⟩ := List.mem_map.1 hp
    exact hx ▸ (hn e (List.mem_of_mem_filter he)).2
  have hlines : (List.range n).mapM
      (fun r => timesRow x (((compress n n es).rowEntries? r).getD [])) =
        .ok ((List.range n).map fun r =>
          ((es.filter (·.src == r)).map fun e => (e.dst, e.value)).foldl (addScaled x)
            (List.replicate x.cols 0)) := by
    refine mapM_ok fun r hr => ?_
    rw [rowEntries?_compress h (List.mem_range.1 hr), Option.getD_some, timesRow_eq (hin r)]
  have hwidth : ∀ l ∈ (List.range n).map fun r =>
      ((es.filter (·.src == r)).map fun e => (e.dst, e.value)).foldl (addScaled x)
        (List.replicate x.cols 0), l.length = x.cols := by
    intro l hl
    obtain ⟨r, -, rfl⟩ := List.mem_map.1 hl
    exact length_foldl_addScaled _ (hin r) (by simp)
  refine ⟨⟨x.cols, _, hwidth⟩, ?_, rfl, rfl⟩
  rw [times]
  change ((List.range n).mapM _ >>= _) = _
  rw [hlines]
  change orFault _ (Grid.ofLines? _ _) = _
  rw [Grid.ofLines?, dif_pos hwidth]
  rfl

end Numbers

theorem hasEdge?_eq {a : SparseMatrix α} (h : a.Square) {u v : ℕ} (hu : u < a.rows) :
    hasEdge? a u v = some (decide ((u, v) ∈ pattern a)) := by
  obtain ⟨es, hes, hn, ha⟩ := h
  have hhas := hasEdge?_compress hes (fun e h => (hn e h).1) hu v
  rwa [← ha] at hhas

instance : LawfulBacking SparseMatrix where
  Square := Square
  Cleared _ := True
  rowOrdered {_ a} h := by
    obtain ⟨es, he, hn, ha⟩ := h
    have hedges : EdgeMatrix.edges a = es := by rw [ha]; exact edges_compress he fun e h => (hn e h).1
    exact hedges.symm ▸ he
  ends_lt {_ a} h e he := by
    obtain ⟨es, hes, hn, ha⟩ := h
    refine hn e ?_
    rwa [← edges_compress hes fun e h => (hn e h).1, ← ha]
  numEdges_eq {_ a} h := by
    obtain ⟨es, hes, hn, ha⟩ := h
    rw [ha]
    change (es.map Edge.value).length = (edges _).length
    rw [edges_compress hes fun e h => (hn e h).1, List.length_map]
  hasEdge?_eq h hu _ := hasEdge?_eq h hu
  get?_edge {_ _ a} h e he := by
    obtain ⟨es, hes, hn, ha⟩ := h
    have hmem : e ∈ es := by rwa [← edges_compress hes fun e h => (hn e h).1, ← ha]
    have hget := get?_compress_edge hes (fun e h => (hn e h).1) hmem
    rwa [← ha] at hget
  get?_blank {_ _ a u v} h _ hu _ hp := by
    obtain ⟨es, hes, hn, ha⟩ := h
    rw [ha] at hp
    have hget := get?_compress_blank hes (fun e h => (hn e h).1) hu hp
    rwa [← ha] at hget
  sameLayout_iff ha hb := sameLayout_iff ha hb
  square_refill {_ _ a} new h := square_refill new h
  cleared_refill _ _ := trivial
  numNodes_refill _ _ := rfl
  edges_refill h hn := edges_refill h hn
  square_overwrite new h := square_refill new h
  cleared_overwrite _ _ := trivial
  numNodes_overwrite _ _ := rfl
  edges_overwrite h hn := edges_refill h hn
  length_rowSums {_ _ a} _ := by
    change ((List.range a.rows).map _).length = a.rows
    simp
  length_colSums {_ _ a} h := by
    obtain ⟨es, -, -, ha⟩ := h
    change ((List.range a.cols).map _).length = a.rows
    rw [ha]
    simp [compress]
  times_shape {_ _ a x} h hx := by
    obtain ⟨es, hes, hn, ha⟩ := h
    obtain ⟨y, hy, hcols, hlines⟩ := times_compress hes hn hx
    rw [← ha] at hy
    refine ⟨y, hy, ?_, hcols⟩
    change y.lines.length = a.rows
    simp [hlines]
  ofEdges_ok {_ _ n es} h := by
    have hlt : ∀ e ∈ inRowOrder es, e.src < n ∧ e.dst < n := fun e he =>
      ⟨(h e (mem_of_mem_inRowOrder he)).1, (h e (mem_of_mem_inRowOrder he)).2.1⟩
    exact ⟨_, ofEdges_ok h, square_compress (rowOrdered_inRowOrder es) hlt, trivial, rfl,
      edges_compress (rowOrdered_inRowOrder es) fun e he => (hlt e he).1⟩
  ofEdges_error h := ofEdges_error h

/-- The sums over the columns take the entries in row order. -/
theorem colSums_eq_columnSum [Scalar α] {n : ℕ} {es : List (Edge α)} (h : RowOrdered es)
    (hn : ∀ e ∈ es, e.src < n) :
    (compress n n es).colSums = (List.range n).map (columnSum (compress n n es)) := by
  refine List.map_congr_left fun v _ => ?_
  have hedges : EdgeMatrix.edges (compress n n es) = es := edges_compress h hn
  have hcol : ∀ fs : List (Edge α), (((fs.map Edge.dst).zip (fs.map Edge.value)).filterMap
      fun p => if p.1 = v then some p.2 else none) = (fs.filter (·.dst == v)).map Edge.value := by
    intro fs
    induction fs with
    | nil => rfl
    | cons e fs ih => by_cases he : e.dst = v <;> simp [he, ih]
  rw [columnSum, hedges, ← hcol]
  rfl

section Exact

variable {K : Type} [ExactScalar K]

theorem rowSums_compress {n : ℕ} {es : List (Edge K)} (h : RowOrdered es)
    (hn : ∀ e ∈ es, e.src < n) :
    (compress n n es).rowSums = (List.range n).map (outflow (compress n n es)) := by
  refine List.map_congr_left fun u hu => ?_
  have hslots := slots?_compress (n := n) (m := n) h (List.mem_range.1 hu) Edge.value
  have hrow : row (compress n n es) u = es.filter (·.src == u) :=
    congrArg (List.filter _) (edges_compress h hn)
  rw [show (compress n n es).values = es.map Edge.value from rfl, hslots, Option.getD_some,
    Exact.runningSum_eq_sum, outflow, hrow]

theorem colSums_compress {n : ℕ} {es : List (Edge K)} (h : RowOrdered es)
    (hn : ∀ e ∈ es, e.src < n) :
    (compress n n es).colSums = (List.range n).map (inflow (compress n n es)) := by
  rw [colSums_eq_columnSum h hn]
  exact List.map_congr_left fun v _ => columnSum_eq_inflow _ v

theorem getD_foldl_addScaled {x : Grid K} {entries : List (ℕ × K)} (sums : List K) {j : ℕ}
    (h : ∀ p ∈ entries, p.1 < x.rows) (hs : sums.length = x.cols) (hj : j < x.cols) :
    (entries.foldl (addScaled x) sums).getD j 0 =
      sums.getD j 0 + (entries.map fun p => p.2 * x.entry p.1 j).sum := by
  induction entries generalizing sums with
  | nil => simp
  | cons p entries ih =>
    have hp : p.1 < x.lines.length := h p List.mem_cons_self
    have hw : (x.lines[p.1]).length = x.cols := x.width_eq _ (List.getElem_mem hp)
    have hstep : (addScaled x sums p).length = x.cols := by simp [addScaled, hs, hp, hw]
    have hget : (addScaled x sums p).getD j 0 = sums.getD j 0 + p.2 * x.entry p.1 j := by
      simp [addScaled, Grid.entry, Grid.get?, hp, hs, hw, hj]
    rw [List.foldl_cons, ih _ (fun q hq => h q (List.mem_cons_of_mem _ hq)) hstep, hget,
      List.map_cons, List.sum_cons, add_assoc]

theorem times_eq {a : SparseMatrix K} (h : a.Square) {x y : Grid K} (hx : x.rows = a.rows)
    (hy : a.times x = .ok y) : y.lines = productLines a x := by
  obtain ⟨es, hes, hn, ha⟩ := h
  obtain ⟨z, hz, -, hlines⟩ := times_compress hes hn hx
  rw [← ha, hy] at hz
  cases hz
  have hedges : EdgeMatrix.edges a = es := by
    rw [ha]; exact edges_compress hes fun e h => (hn e h).1
  rw [hlines]
  refine List.map_congr_left fun u hu => ?_
  have hin : ∀ p ∈ (es.filter (·.src == u)).map fun e => (e.dst, e.value), p.1 < x.rows := by
    intro p hp
    obtain ⟨e, he, rfl⟩ := List.mem_map.1 hp
    exact hx ▸ (hn e (List.mem_of_mem_filter he)).2
  have hlen := length_foldl_addScaled (List.replicate x.cols 0) hin (by simp)
  refine List.ext_getElem (by simp [hlen]) fun j hj hj' => ?_
  have hjx : j < x.cols := hlen ▸ hj
  have hget := getD_foldl_addScaled (List.replicate x.cols 0) hin (by simp) hjx
  rw [List.getD_replicate _ hjx, zero_add, List.map_map, List.getD_eq_getElem _ _ hj] at hget
  rw [hget, List.getElem_map, List.getElem_range, row, hedges]
  rfl

instance : ExactBacking SparseMatrix where
  rowSums_eq {_ _ a} h _ := by
    obtain ⟨es, hes, hn, ha⟩ := h
    have hsums := rowSums_compress hes fun e h => (hn e h).1
    rwa [← ha] at hsums
  colSums_eq {_ _ a} h _ := by
    obtain ⟨es, hes, hn, ha⟩ := h
    have hsums := colSums_compress hes fun e h => (hn e h).1
    rwa [← ha] at hsums
  times_eq h _ hx hy := times_eq h hx hy

end Exact

/-- The identity stores the diagonal. -/
theorem identity_eq_compress [Scalar α] (n : ℕ) :
    (identity n : SparseMatrix α) = compress n n ((List.range n).map fun i => ⟨i, i, 1⟩) := by
  have hcount : ∀ m r, (List.range m).countP (· < r) = min m r := by
    intro m r
    induction m with
    | zero => simp
    | succ m ih =>
      rw [List.range_succ, List.countP_append, ih, List.countP_singleton]
      by_cases hr : m < r <;> simp [hr] <;> omega
  have hptr : (List.range (n + 1)).map (fun r =>
      ((List.range n).map fun i => (⟨i, i, 1⟩ : Edge α)).countP (·.src < r)) =
        List.range (n + 1) := by
    refine (List.map_congr_left fun r hr => ?_).trans (List.map_id _)
    rw [List.countP_map]
    exact (hcount n r).trans (by have := List.mem_range.1 hr; simp; omega)
  rw [identity, compress, hptr]
  simp [Function.comp_def]

theorem rowOrdered_diagonal [Scalar α] (n : ℕ) :
    RowOrdered ((List.range n).map fun i => (⟨i, i, 1⟩ : Edge α)) := by
  rw [RowOrdered, List.pairwise_map]
  exact List.pairwise_lt_range.imp fun h => Or.inl h

theorem square_identity [Scalar α] (n : ℕ) : LawfulBacking.Square (identity n : SparseMatrix α) := by
  rw [identity_eq_compress]
  exact square_compress (rowOrdered_diagonal n) (by simp)

theorem edges_identity [Scalar α] (n : ℕ) :
    EdgeMatrix.edges (identity n : SparseMatrix α) = (List.range n).map fun i => ⟨i, i, 1⟩ := by
  rw [identity_eq_compress]
  exact edges_compress (rowOrdered_diagonal n) (by simp)

theorem pattern_identity [Scalar α] (n : ℕ) :
    pattern (identity n : SparseMatrix α) = diagonal n := by
  rw [pattern, edges_identity, List.map_map]
  rfl

/-- A square matrix is known by its nodes and edges. -/
theorem eq_compress_edges {a : SparseMatrix α} (h : LawfulBacking.Square a) :
    a = compress (numNodes a) (numNodes a) (EdgeMatrix.edges a) := by
  obtain ⟨es, hes, hn, ha⟩ := h
  have hedges : EdgeMatrix.edges a = es := by
    rw [ha]
    exact edges_compress hes fun e he => (hn e he).1
  rw [hedges]
  exact ha

def exchange (x y : α) : SparseMatrix α := compress 2 2 [⟨0, 1, x⟩, ⟨1, 0, y⟩]

theorem rowOrdered_exchange (x y : α) : RowOrdered [⟨0, 1, x⟩, ⟨1, 0, y⟩] := by
  simp [RowOrdered, Before]

theorem square_exchange (x y : α) : LawfulBacking.Square (exchange x y) :=
  square_compress (rowOrdered_exchange x y) (by simp)

@[simp] theorem numNodes_exchange (x y : α) : numNodes (exchange x y) = 2 := rfl

@[simp] theorem edges_exchange (x y : α) :
    EdgeMatrix.edges (exchange x y) = [⟨0, 1, x⟩, ⟨1, 0, y⟩] :=
  edges_compress (rowOrdered_exchange x y) (by simp)

end NeuralFlow.SparseMatrix
