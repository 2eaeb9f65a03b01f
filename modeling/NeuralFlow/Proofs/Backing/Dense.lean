import Mathlib
import NeuralFlow.EdgeMatrix.Dense
import NeuralFlow.Proofs.Backing

/-! Dense matrices keep the laws of a backing. A cell is found by its position, so membership in the
list of edges is a look-up; sums run over all cells, and those without a mark add nothing. -/

namespace NeuralFlow.DenseMatrix

open Edge EdgeMatrix

variable {α : Type}

def Square (a : DenseMatrix α) : Prop := a.cells.rows = a.cells.cols

def Cleared [Zero α] (a : DenseMatrix α) : Prop :=
  ∀ line ∈ a.cells.lines, ∀ cell ∈ line, cell.marked = false → cell.value = 0

/-! The edges are the marked cells. -/

theorem mem_lineEdges {u : ℕ} {cells : List (Cell α)} {e : Edge α} :
    e ∈ lineEdges u cells ↔ e.src = u ∧ cells[e.dst]? = some ⟨true, e.value⟩ := by
  obtain ⟨src, dst, x⟩ := e
  simp only [lineEdges, List.mem_filterMap, Prod.exists]
  constructor
  · rintro ⟨⟨marked, y⟩, v, hmem, hsome⟩
    rw [List.mem_zipIdx_iff_getElem?] at hmem
    cases marked
    · simp at hsome
    · simp only [if_true, Option.some.injEq, Edge.mk.injEq] at hsome
      obtain ⟨rfl, rfl, rfl⟩ := hsome
      exact ⟨rfl, hmem⟩
  · rintro ⟨rfl, hline⟩
    exact ⟨⟨true, x⟩, dst, List.mem_zipIdx_iff_getElem?.2 hline, rfl⟩

theorem mem_edges {a : DenseMatrix α} {e : Edge α} :
    e ∈ edges a ↔ a.cells.get? e.src e.dst = some ⟨true, e.value⟩ := by
  simp only [edges, List.mem_flatMap, Prod.exists, Grid.get?, Option.bind_eq_some_iff]
  constructor
  · rintro ⟨line, u, hline, he⟩
    rw [List.mem_zipIdx_iff_getElem?] at hline
    obtain ⟨rfl, hcell⟩ := mem_lineEdges.1 he
    exact ⟨line, hline, hcell⟩
  · rintro ⟨line, hline, hcell⟩
    exact ⟨line, e.src, List.mem_zipIdx_iff_getElem?.2 hline, mem_lineEdges.2 ⟨rfl, hcell⟩⟩

theorem pairwise_zipIdx {β : Type} (xs : List β) :
    xs.zipIdx.Pairwise fun p q => p.2 < q.2 := by
  rw [← List.pairwise_map (f := Prod.snd) (R := (· < ·)), List.zipIdx_map_snd]
  exact List.pairwise_lt_range'

theorem rowOrdered_lineEdges (u : ℕ) (line : List (Cell α)) : RowOrdered (lineEdges u line) := by
  rw [RowOrdered, lineEdges, List.pairwise_filterMap]
  refine (pairwise_zipIdx line).imp fun {p q} hpq d hd e he => ?_
  simp only [Option.ite_none_right_eq_some, Option.some.injEq] at hd he
  obtain ⟨-, rfl⟩ := hd
  obtain ⟨-, rfl⟩ := he
  exact Or.inr ⟨rfl, hpq⟩

theorem rowOrdered_edges (a : DenseMatrix α) : RowOrdered (edges a) := by
  rw [RowOrdered, edges, List.pairwise_flatMap]
  refine ⟨fun p _ => rowOrdered_lineEdges p.2 p.1, (pairwise_zipIdx _).imp ?_⟩
  rintro ⟨l, u⟩ ⟨l', u'⟩ huu d hd e he
  left
  rw [(mem_lineEdges.1 hd).1, (mem_lineEdges.1 he).1]
  exact huu

theorem mem_pattern {a : DenseMatrix α} {u v : ℕ} :
    (u, v) ∈ pattern a ↔ (a.cells.get? u v).map Cell.marked = some true := by
  simp only [pattern, List.mem_map, Prod.mk.injEq, Option.map_eq_some_iff]
  constructor
  · rintro ⟨e, he, rfl, rfl⟩
    exact ⟨_, mem_edges.1 he, rfl⟩
  · rintro ⟨⟨marked, x⟩, hx, rfl⟩
    exact ⟨⟨u, v, x⟩, mem_edges.2 hx, rfl, rfl⟩

theorem ends_lt {a : DenseMatrix α} (h : a.Square) {e : Edge α} (he : e ∈ edges a) :
    e.src < a.cells.rows ∧ e.dst < a.cells.rows := by
  have hlt := Grid.lt_of_get? (mem_edges.1 he)
  exact ⟨hlt.1, by rw [Square] at h; omega⟩

theorem hasEdge?_eq {a : DenseMatrix α} (h : a.Square) {u v : ℕ} (hu : u < a.cells.rows)
    (hv : v < a.cells.rows) :
    (a.cells.get? u v).map Cell.marked = some (decide ((u, v) ∈ pattern a)) := by
  obtain ⟨c, hc⟩ := Grid.get?_of_lt hu (h ▸ hv)
  rw [hc, Option.map_some, Option.some.injEq, Bool.eq_iff_iff, decide_eq_true_iff, mem_pattern, hc]
  simp

theorem get?_blank [Zero α] {a : DenseMatrix α} (h : a.Square) (hc : a.Cleared) {u v : ℕ}
    (hu : u < a.cells.rows) (hv : v < a.cells.rows) (hp : (u, v) ∉ pattern a) :
    (a.cells.get? u v).map Cell.value = some 0 := by
  obtain ⟨c, hget⟩ := Grid.get?_of_lt hu (h ▸ hv)
  have hmark : c.marked = false := by
    rw [mem_pattern, hget] at hp
    simpa using hp
  obtain ⟨line, hline, hx⟩ := Option.bind_eq_some_iff.1 hget
  rw [hget, Option.map_some, hc line (List.mem_of_getElem? hline) c (List.mem_of_getElem? hx) hmark]

theorem row_eq_lineEdges {a : DenseMatrix α} {u : ℕ} {cells : List (Cell α)}
    (h : a.cells.lines[u]? = some cells) : row a u = lineEdges u cells := by
  refine ((rowOrdered_edges a).filter _).eq_of_mem_iff (rowOrdered_lineEdges u cells) fun e => ?_
  change e ∈ (edges a).filter (·.src == u) ↔ _
  rw [List.mem_filter, mem_edges, mem_lineEdges, beq_iff_eq]
  constructor
  · rintro ⟨he, rfl⟩
    rw [Grid.get?, h, Option.bind_some] at he
    exact ⟨rfl, he⟩
  · rintro ⟨rfl, he⟩
    exact ⟨by rw [Grid.get?, h]; exact he, rfl⟩

def edgesFrom (u k : ℕ) (cells : List (Cell α)) : List (Edge α) :=
  (cells.zipIdx k).filterMap fun (cell, v) =>
    if cell.marked then some ⟨u, v, cell.value⟩ else none

theorem edgesFrom_cons (u k : ℕ) (c : Cell α) (cells : List (Cell α)) :
    edgesFrom u k (c :: cells) =
      if c.marked then ⟨u, k, c.value⟩ :: edgesFrom u (k + 1) cells else edgesFrom u (k + 1) cells := by
  cases hc : c.marked <;> simp [edgesFrom, List.zipIdx_cons, hc]

theorem length_edgesFrom (u k : ℕ) (cells : List (Cell α)) :
    (edgesFrom u k cells).length = cells.countP Cell.marked := by
  induction cells generalizing k with
  | nil => rfl
  | cons c cells ih => cases hc : c.marked <;> simp [edgesFrom_cons, hc, ih]

def linesFrom (k : ℕ) (lines : List (List (Cell α))) : List (Edge α) :=
  (lines.zipIdx k).flatMap fun (l, u) => lineEdges u l

theorem linesFrom_cons (k : ℕ) (l : List (Cell α)) (lines : List (List (Cell α))) :
    linesFrom k (l :: lines) = lineEdges k l ++ linesFrom (k + 1) lines := by
  simp [linesFrom, List.zipIdx_cons]

theorem length_linesFrom (k : ℕ) (lines : List (List (Cell α))) :
    (linesFrom k lines).length = lines.flatten.countP Cell.marked := by
  induction lines generalizing k with
  | nil => rfl
  | cons l lines ih =>
    rw [linesFrom_cons, List.length_append, ih, List.flatten_cons, List.countP_append]
    exact congrArg (· + _) (length_edgesFrom k 0 l)

theorem numEdges_eq (a : DenseMatrix α) : a.cells.toList.countP Cell.marked = (edges a).length :=
  (length_linesFrom 0 a.cells.lines).symm

/-- The marks are the pattern. -/
theorem mask_eq_iff {a b : DenseMatrix α} (ha : a.Square) (hb : b.Square) :
    a.mask = b.mask ↔ a.cells.rows = b.cells.rows ∧ pattern a = pattern b := by
  constructor
  · intro h
    have hrows : a.cells.rows = b.cells.rows := by simpa [mask] using congrArg Grid.rows h
    refine ⟨hrows, (rowOrdered_edges a).ends_eq (rowOrdered_edges b) fun (u, v) => ?_⟩
    change (u, v) ∈ pattern a ↔ (u, v) ∈ pattern b
    rw [mem_pattern, mem_pattern, ← Grid.get?_map, ← Grid.get?_map]
    exact Iff.of_eq (congrArg (fun m : Grid Bool => m.get? u v = some true) h)
  · rintro ⟨hrows, hpat⟩
    have hcols : a.cells.cols = b.cells.cols := ha ▸ hb ▸ hrows
    refine Grid.ext_get? (by simpa [mask] using hrows) hcols fun u v hu hv => ?_
    simp only [mask, Grid.rows_map, Grid.cols_map] at hu hv
    rw [mask, mask, Grid.get?_map, Grid.get?_map, hasEdge?_eq ha hu (ha ▸ hv),
      hasEdge?_eq hb (hrows ▸ hu) (hb ▸ hcols ▸ hv), hpat]

/-! New values. -/

section Refill

variable {off : Cell α → Cell α} (hoff : ∀ c, c.marked = false → (off c).marked = false)
include hoff

theorem refillLine_spec (u k : ℕ) {cells : List (Cell α)} {new : List α}
    (hn : cells.countP Cell.marked ≤ new.length) :
    edgesFrom u k (refillLine off cells new).1 = setValues (edgesFrom u k cells) new ∧
      (refillLine off cells new).2 = new.drop (cells.countP Cell.marked) := by
  induction cells generalizing k new with
  | nil => simp [refillLine, edgesFrom, setValues]
  | cons c cells ih =>
    cases hc : c.marked with
    | true =>
      cases new with
      | nil => simp [hc] at hn
      | cons x new =>
        have hrest : cells.countP Cell.marked ≤ new.length := by simpa [hc] using hn
        obtain ⟨he, hd⟩ := ih (k + 1) hrest
        simp only [refillLine, hc, if_true, List.headD_cons, edgesFrom_cons, List.countP_cons,
          List.drop_succ_cons, List.drop_zero, he, hd]
        exact ⟨rfl, trivial⟩
    | false =>
      have hrest : cells.countP Cell.marked ≤ new.length := by simpa [hc] using hn
      obtain ⟨he, hd⟩ := ih (k + 1) hrest
      simp [refillLine, hc, edgesFrom_cons, hoff c hc, he, hd]

theorem linesFrom_refillLines (k : ℕ) {lines : List (List (Cell α))} {new : List α}
    (hn : (linesFrom k lines).length ≤ new.length) :
    linesFrom k (refillLines off lines new) = setValues (linesFrom k lines) new := by
  induction lines generalizing k new with
  | nil => simp [refillLines, linesFrom, setValues]
  | cons l lines ih =>
    have hl : (lineEdges k l).length = l.countP Cell.marked := length_edgesFrom k 0 l
    rw [linesFrom_cons, List.length_append, hl] at hn
    have hfst : l.countP Cell.marked ≤ new.length := by omega
    obtain ⟨he, hd⟩ := refillLine_spec hoff k 0 hfst
    rw [refillLines, linesFrom_cons, linesFrom_cons, setValues_append, hl, hd,
      ih (k + 1) (by rw [List.length_drop]; omega)]
    exact congrArg (· ++ _) he

theorem edges_refillWith (a : DenseMatrix α) {new : List α}
    (hn : new.length = (edges a).length) :
    edges (a.refillWith off new) = setValues (edges a) new :=
  linesFrom_refillLines hoff 0 hn.ge

end Refill

theorem mem_refillLine {off : Cell α → Cell α} {cells : List (Cell α)} {new : List α} {c : Cell α}
    (h : c ∈ (refillLine off cells new).1) :
    c.marked = true ∨ ∃ d ∈ cells, d.marked = false ∧ c = off d := by
  induction cells generalizing new with
  | nil => simp [refillLine] at h
  | cons d cells ih =>
    cases hd : d.marked with
    | true =>
      simp only [refillLine, hd, if_true, List.mem_cons] at h
      rcases h with rfl | h
      · exact Or.inl rfl
      · exact (ih h).imp_right fun ⟨e, he, hc⟩ => ⟨e, List.mem_cons_of_mem _ he, hc⟩
    | false =>
      simp only [refillLine, hd, Bool.false_eq_true, if_false, List.mem_cons] at h
      rcases h with rfl | h
      · exact Or.inr ⟨d, List.mem_cons_self, hd, rfl⟩
      · exact (ih h).imp_right fun ⟨e, he, hc⟩ => ⟨e, List.mem_cons_of_mem _ he, hc⟩

/-- What holds of the values without a mark, if new ones have it. -/
theorem unmarked_refillWith {P : α → Prop} {off : Cell α → Cell α} {a : DenseMatrix α}
    (new : List α)
    (h : ∀ l ∈ a.cells.lines, ∀ c ∈ l, c.marked = false → P (off c).value) :
    ∀ l ∈ (a.refillWith off new).cells.lines, ∀ c ∈ l, c.marked = false → P c.value := by
  suffices hlines : ∀ (lines : List (List (Cell α))) (new : List α),
      (∀ l ∈ lines, ∀ c ∈ l, c.marked = false → P (off c).value) →
      ∀ l ∈ refillLines off lines new, ∀ c ∈ l, c.marked = false → P c.value from
    hlines _ _ h
  intro lines
  induction lines with
  | nil => simp [refillLines]
  | cons k lines ih =>
    intro new h l hl c hc hm
    rcases List.mem_cons.1 hl with rfl | hl
    · rcases mem_refillLine hc with hmark | ⟨d, hd, hdm, rfl⟩
      · rw [hm] at hmark
        cases hmark
      · exact h k List.mem_cons_self d hd hdm
    · exact ih _ (fun l hl => h l (List.mem_cons_of_mem _ hl)) l hl c hc hm

theorem cleared_refillWith [Zero α] {off : Cell α → Cell α} {a : DenseMatrix α} (new : List α)
    (h : ∀ l ∈ a.cells.lines, ∀ c ∈ l, c.marked = false → (off c).value = 0) :
    (a.refillWith off new).Cleared := unmarked_refillWith (P := (· = 0)) new h

theorem rows_refillWith (off : Cell α → Cell α) (a : DenseMatrix α) (new : List α) :
    (a.refillWith off new).cells.rows = a.cells.rows := by
  suffices h : ∀ (lines : List (List (Cell α))) (new : List α),
      (refillLines off lines new).length = lines.length from h _ _
  intro lines
  induction lines with
  | nil => intro new; rfl
  | cons l lines ih => intro new; simp [refillLines, ih]

theorem square_refillWith (off : Cell α → Cell α) {a : DenseMatrix α} (new : List α)
    (h : a.Square) : (a.refillWith off new).Square := (rows_refillWith off a new).trans h

/-! Taking edges in one by one. -/

theorem edges_set {a : DenseMatrix α} (h : a.Square) {e : Edge α} (hs : e.src < a.cells.rows)
    (hd : e.dst < a.cells.rows) :
    edges ⟨a.cells.set e.src e.dst ⟨true, e.value⟩⟩ = SparseMatrix.insertEntry e (edges a) := by
  refine (rowOrdered_edges _).eq_of_mem_iff
    (SparseMatrix.rowOrdered_insertEntry (rowOrdered_edges a) e) fun d => ?_
  rw [SparseMatrix.mem_insertEntry (rowOrdered_edges a), mem_edges, mem_edges,
    Grid.get?_set hs (h ▸ hd), Ne, ends_eq_iff]
  obtain ⟨u, v, x⟩ := d
  by_cases huv : u = e.src ∧ v = e.dst
  · obtain ⟨rfl, rfl⟩ := huv
    obtain ⟨src, dst, y⟩ := e
    simp [eq_comm]
  · rw [if_neg huv]
    have hne : (⟨u, v, x⟩ : Edge α) ≠ e := fun he => huv (he ▸ ⟨rfl, rfl⟩)
    simp [huv, hne]

section Numbers

variable [Scalar α]

theorem place_ok {n : ℕ} (cells : Grid (Cell α)) {e : Edge α} (h : e.Fits n) :
    place n cells e = .ok (cells.set e.src e.dst ⟨true, e.value⟩) := by
  obtain ⟨hs, hd, hf⟩ := h
  simp [place, hf, Nat.not_le.2 hs, Nat.not_le.2 hd]

theorem place_error {n : ℕ} (cells : Grid (Cell α)) {e : Edge α} (h : ¬ e.Fits n) :
    ∃ err, place n cells e = .error err := by
  unfold place
  split_ifs with hr hf
  · exact ⟨_, rfl⟩
  · exact ⟨_, rfl⟩
  · refine absurd ⟨by omega, by omega, by simpa using hf⟩ h

theorem cleared_set {a : DenseMatrix α} (h : a.Cleared) (i j : ℕ) (x : α) :
    Cleared ⟨a.cells.set i j ⟨true, x⟩⟩ := by
  intro l hl c hc hm
  obtain ⟨k, hk, rfl⟩ := List.mem_iff_getElem.1 hl
  simp only [Grid.set, List.length_modify] at hk
  have hold := h _ (List.getElem_mem hk)
  simp only [Grid.set, List.getElem_modify] at hc
  split at hc
  · rcases List.mem_or_eq_of_mem_set hc with hc | rfl
    · exact hold c hc hm
    · cases hm
  · exact hold c hc hm

theorem ofEdges_ok {n : ℕ} {es : List (Edge α)} (h : ∀ e ∈ es, e.Fits n) :
    ∃ a : DenseMatrix α, ofEdges n es = .ok a ∧ a.Square ∧ a.Cleared ∧ a.cells.rows = n ∧
      edges a = SparseMatrix.inRowOrder es := by
  suffices hfold : ∃ a : DenseMatrix α, es.foldlM (place n) (Grid.filled n n blank) = .ok a.cells ∧
      a.Square ∧ a.Cleared ∧ a.cells.rows = n ∧ edges a = SparseMatrix.inRowOrder es by
    obtain ⟨a, hok, hrest⟩ := hfold
    exact ⟨a, by rw [ofEdges, hok]; rfl, hrest⟩
  induction es using List.reverseRecOn with
  | nil =>
    refine ⟨⟨Grid.filled n n blank⟩, rfl, by simp [Square], ?_, by simp, ?_⟩
    · intro l hl c hc _
      rw [List.eq_of_mem_replicate hl] at hc
      rw [List.eq_of_mem_replicate hc, blank]
    · refine List.eq_nil_iff_forall_not_mem.2 fun e he => ?_
      obtain ⟨l, hl, hc⟩ := Option.bind_eq_some_iff.1 (mem_edges.1 he)
      rw [List.eq_of_mem_replicate (List.mem_of_getElem? hl)] at hc
      have := List.eq_of_mem_replicate (List.mem_of_getElem? hc)
      simp [blank] at this
  | append_singleton es e ih =>
    obtain ⟨a, hok, hsq, hcl, hn, hes⟩ := ih fun d hd => h d (List.mem_append_left _ hd)
    have he : e.Fits n := h e (by simp)
    refine ⟨⟨a.cells.set e.src e.dst ⟨true, e.value⟩⟩, ?_, by simpa [Square] using hsq,
      cleared_set hcl _ _ _, by simpa using hn, ?_⟩
    · rw [List.foldlM_append, hok]
      exact (bind_pure _).trans (place_ok a.cells he)
    · rw [edges_set hsq (hn ▸ he.1) (hn ▸ he.2.1), hes, SparseMatrix.inRowOrder_append_singleton]

theorem ofEdges_error {n : ℕ} {es : List (Edge α)} (h : ¬ ∀ e ∈ es, e.Fits n) :
    ∃ err, (ofEdges n es : Outcome α (DenseMatrix α)) = .error err := by
  suffices hfold : ∀ cells : Grid (Cell α), ∃ err, es.foldlM (place n) cells = .error err by
    obtain ⟨err, herr⟩ := hfold (Grid.filled n n blank)
    exact ⟨err, by rw [ofEdges, herr]; rfl⟩
  induction es with
  | nil => simp at h
  | cons e es ih =>
    intro cells
    by_cases he : e.Fits n
    · obtain ⟨err, herr⟩ := ih (by simpa [he] using h) (cells.set e.src e.dst ⟨true, e.value⟩)
      exact ⟨err, by rw [List.foldlM_cons, place_ok cells he]; exact herr⟩
    · obtain ⟨err, herr⟩ := place_error cells he
      exact ⟨err, by rw [List.foldlM_cons, herr]; rfl⟩

theorem length_colSums {a : DenseMatrix α} : a.colSums.length = a.cells.cols := by
  suffices h : ∀ (lines : List (List (Cell α))) (sums : List α),
      (∀ l ∈ lines, l.length = sums.length) →
      (lines.foldl (fun sums l => List.zipWith (· + ·) sums (l.map Cell.value)) sums).length =
        sums.length by
    rw [colSums, h _ _ (by simpa using a.cells.width_eq), List.length_replicate]
  intro lines
  induction lines with
  | nil => simp
  | cons l lines ih =>
    intro sums h
    have hl := h l List.mem_cons_self
    have hz : (List.zipWith (· + ·) sums (l.map Cell.value)).length = sums.length := by simp [hl]
    rw [List.foldl_cons, ih _ fun k hk => (h k (List.mem_cons_of_mem _ hk)).trans hz.symm, hz]

theorem times_shape {a : DenseMatrix α} (h : a.Square) {x : Grid α} (hx : x.rows = a.cells.rows) :
    ∃ y, orFault .shapesDiffer (a.values.times? x) = (.ok y : Outcome α (Grid α)) ∧
      y.rows = a.cells.rows ∧ y.cols = x.cols := by
  have hcols : a.values.cols = x.rows := by rw [hx]; exact h.symm
  rw [Grid.times?, if_pos hcols]
  exact ⟨_, rfl, by simp [Grid.mapLines, Grid.rows, values, Grid.map], rfl⟩

end Numbers

instance : LawfulBacking DenseMatrix where
  Square := Square
  Cleared := Cleared
  rowOrdered {_ a} _ := rowOrdered_edges a
  ends_lt h _ he := ends_lt h he
  numEdges_eq {_ a} _ := numEdges_eq a
  hasEdge?_eq h hu hv := hasEdge?_eq h hu hv
  get?_edge _ e he := by
    change Option.map Cell.value _ = _
    rw [mem_edges.1 he]
    rfl
  get?_blank h hc hu hv hp := get?_blank h hc hu hv hp
  sameLayout_iff ha hb := beq_iff_eq.trans (mask_eq_iff ha hb)
  square_refill new h := square_refillWith _ new h
  cleared_refill a new := cleared_refillWith new fun _ _ _ _ _ => rfl
  numNodes_refill a new := rows_refillWith _ a new
  edges_refill _ hn := edges_refillWith (fun _ _ => rfl) _ hn
  square_overwrite new h := square_refillWith _ new h
  cleared_overwrite new h := cleared_refillWith new h
  numNodes_overwrite a new := rows_refillWith _ a new
  edges_overwrite _ hn := edges_refillWith (fun _ h => h) _ hn
  length_rowSums _ := List.length_map _
  length_colSums h := length_colSums.trans h.symm
  times_shape h hx := times_shape h hx
  ofEdges_ok h := ofEdges_ok h
  ofEdges_error h := ofEdges_error h

/-! Square tables make square matrices. -/

theorem square_ofAdjacency [Scalar α] (table : Grid α) :
    Ensures (ofAdjacency table) LawfulBacking.Square := by
  intro a h
  unfold ofAdjacency at h
  split_ifs at h with hsquare
  split at h
  · cases h
  · cases h
    exact (Grid.rows_map _ _).trans (not_not.1 hsquare)

theorem square_ofParts [Scalar α] (values : Grid α) (mask : Grid Bool) :
    Ensures (ofParts values mask) LawfulBacking.Square := by
  unfold ofParts
  split_ifs with hmask hsquare
  · exact fun _ h => nomatch h
  · exact fun _ h => nomatch h
  · obtain ⟨hrows, hcols⟩ := not_or.1 hmask
    refine (ensures_orFault fun cells hcells => ?_).bind
      (P := fun cells : Grid (Cell α) => cells.rows = cells.cols) fun cells h => ensures_pure h
    obtain ⟨hr, hc⟩ := Grid.shaped_combine? hcells
    rw [← not_not.1 hrows, Grid.commonLength_self, Option.some.injEq] at hr
    rw [← not_not.1 hcols, Grid.commonLength_self, Option.some.injEq] at hc
    exact hr.symm.trans ((not_not.1 hsquare).trans hc)

/-! A sum over a column of cells. -/

section Columns

variable [Scalar α]

def columnValues (lines : List (List (Cell α))) (v : ℕ) : List α :=
  lines.map fun l => (l.map Cell.value).getD v 0

/-- The rows are added one after another, each column on its own. -/
theorem getD_colSums {a : DenseMatrix α} {v : ℕ} (hv : v < a.cells.cols) :
    a.colSums.getD v 0 = Scalar.runningSum (columnValues a.cells.lines v) := by
  suffices h : ∀ (lines : List (List (Cell α))) (sums : List α), v < sums.length →
      (∀ l ∈ lines, l.length = sums.length) →
      (lines.foldl (fun sums l => List.zipWith (· + ·) sums (l.map Cell.value)) sums).getD v 0 =
        (columnValues lines v).foldl (· + ·) (sums.getD v 0) by
    have hrun := h a.cells.lines (List.replicate a.cells.cols 0) (by simpa using hv)
      (by simpa using a.cells.width_eq)
    rwa [List.getD_replicate _ hv] at hrun
  intro lines
  induction lines with
  | nil => simp [columnValues]
  | cons l lines ih =>
    intro sums hlt h
    have hl : l.length = sums.length := h l List.mem_cons_self
    have hz : (List.zipWith (· + ·) sums (l.map Cell.value)).length = sums.length := by simp [hl]
    have hadd : (List.zipWith (· + ·) sums (l.map Cell.value)).getD v 0 =
        sums.getD v 0 + (l.map Cell.value).getD v 0 := by
      simp [List.getD_eq_getElem?_getD, hlt, hl]
    rw [List.foldl_cons, ih _ (hz.symm ▸ hlt) fun k hk => (h k (List.mem_cons_of_mem _ hk)).trans hz.symm,
      hadd]
    rfl

omit [Scalar α] in
theorem linesFrom_concat (lines : List (List (Cell α))) (l : List (Cell α)) :
    linesFrom 0 (lines ++ [l]) = linesFrom 0 lines ++ lineEdges lines.length l := by
  simp [linesFrom, List.zipIdx_append]

omit [Scalar α] in
/-- A line has at most one edge into a column. -/
theorem filter_lineEdges (u v : ℕ) (cells : List (Cell α)) : (lineEdges u cells).filter (·.dst == v) =
    ((cells[v]?.filter Cell.marked).map fun c => ⟨u, v, c.value⟩).toList := by
  refine ((rowOrdered_lineEdges u cells).filter _).eq_of_mem_iff ?_ fun e => ?_
  · cases cells[v]?.filter Cell.marked <;> simp [RowOrdered]
  · simp only [List.mem_filter, mem_lineEdges, beq_iff_eq, Option.mem_toList,
      Option.map_eq_some_iff, Option.filter_eq_some_iff]
    constructor
    · rintro ⟨⟨rfl, hcell⟩, rfl⟩
      exact ⟨_, ⟨hcell, rfl⟩, rfl⟩
    · rintro ⟨⟨marked, x⟩, ⟨hcell, rfl⟩, rfl⟩
      exact ⟨⟨rfl, hcell⟩, rfl⟩

/-- Where a zero added to a partial sum changes nothing, the cells without a mark can be left out. -/
theorem runningSum_columnValues
    (hzero : ∀ xs : List α, Scalar.runningSum xs + 0 = Scalar.runningSum xs) (v : ℕ)
    {lines : List (List (Cell α))} (hv : ∀ l ∈ lines, v < l.length)
    (hc : ∀ l ∈ lines, ∀ c ∈ l, c.marked = false → c.value = 0) :
    Scalar.runningSum (columnValues lines v) =
      Scalar.runningSum (((linesFrom 0 lines).filter (·.dst == v)).map Edge.value) := by
  induction lines using List.reverseRecOn with
  | nil => rfl
  | append_singleton lines l ih =>
    have hprefix := ih (fun k hk => hv k (by simp [hk])) fun k hk => hc k (by simp [hk])
    have hl : v < l.length := hv l (by simp)
    have hval : columnValues (lines ++ [l]) v = columnValues lines v ++ [l[v].value] := by
      simp [columnValues, hl]
    rw [hval, Scalar.runningSum_append_singleton, hprefix, linesFrom_concat, List.filter_append,
      filter_lineEdges, List.getElem?_eq_getElem hl]
    cases hmark : l[v].marked with
    | true =>
      simp only [Option.filter_some, hmark, if_true, Option.map_some, Option.toList_some, List.map_append,
        List.map_singleton, Scalar.runningSum_append_singleton]
    | false => simp [Option.filter_some, hmark, hc l (by simp) _ (List.getElem_mem hl) hmark, hzero]

theorem colSums_eq_columnSum
    (hzero : ∀ xs : List α, Scalar.runningSum xs + 0 = Scalar.runningSum xs) {a : DenseMatrix α}
    (h : a.Square) (hc : a.Cleared) : a.colSums = (List.range a.cells.rows).map (columnSum a) := by
  have hlen : a.colSums.length = a.cells.rows := length_colSums.trans h.symm
  refine List.ext_getElem (by simp [hlen]) fun v hv _ => ?_
  have hcol : v < a.cells.cols := by rwa [← length_colSums (a := a)]
  have hwidth : ∀ l ∈ a.cells.lines, v < l.length := fun l hl => a.cells.width_eq l hl ▸ hcol
  rw [List.getElem_map, List.getElem_range, ← List.getD_eq_getElem _ 0 hv, getD_colSums hcol,
    runningSum_columnValues hzero v hwidth hc]
  rfl

end Columns

/-! Sums over all cells are sums over the edges. -/

section Exact

variable {K : Type} [ExactScalar K]

/-- A weighted sum over a line of cells, with weights by column. -/
theorem sum_edgesFrom (u k : ℕ) {cells : List (Cell K)}
    (h : ∀ c ∈ cells, c.marked = false → c.value = 0) (g : ℕ → K) :
    ((edgesFrom u k cells).map fun e => e.value * g e.dst).sum =
      ((cells.zipIdx k).map fun (c, v) => c.value * g v).sum := by
  induction cells generalizing k with
  | nil => rfl
  | cons c cells ih =>
    have hrest := ih (k + 1) fun d hd => h d (List.mem_cons_of_mem _ hd)
    rw [edgesFrom_cons, List.zipIdx_cons, List.map_cons, List.sum_cons, ← hrest]
    cases hc : c.marked with
    | true => simp
    | false => simp [h c List.mem_cons_self hc]

theorem sum_map_fst (cells : List (Cell K)) (k : ℕ) :
    ((cells.zipIdx k).map fun (c, _) => c.value).sum = (cells.map Cell.value).sum := by
  conv_rhs => rw [← List.zipIdx_map_fst k cells, List.map_map]
  rfl

theorem rowSums_eq {a : DenseMatrix K} (hc : a.Cleared) :
    a.rowSums = (List.range a.cells.rows).map (outflow a) := by
  refine List.ext_getElem (by simp [rowSums, Grid.rows]) fun u hu _ => ?_
  have hu' : u < a.cells.lines.length := by simpa [rowSums] using hu
  have hsum := sum_edgesFrom u 0 (hc _ (List.getElem_mem hu')) fun _ => 1
  simp only [mul_one] at hsum
  simp only [rowSums, List.getElem_map, List.getElem_range, Exact.laneSum_eq_sum, outflow,
    row_eq_lineEdges (List.getElem?_eq_getElem hu')]
  exact (hsum.trans (sum_map_fst _ 0)).symm

theorem colSums_eq {a : DenseMatrix K} (h : a.Square) (hc : a.Cleared) :
    a.colSums = (List.range a.cells.rows).map (inflow a) := by
  have hzero : ∀ xs : List K, Scalar.runningSum xs + 0 = Scalar.runningSum xs := fun xs => add_zero _
  rw [colSums_eq_columnSum hzero h hc]
  exact List.map_congr_left fun v _ => columnSum_eq_inflow a v

theorem filterMap_column {x : Grid K} {j : ℕ} (hj : j < x.cols) :
    x.lines.filterMap (·[j]?) = (List.range x.rows).map fun i => x.entry i j := by
  have hmap : x.lines.filterMap (·[j]?) = x.lines.map fun l => l.getD j 0 := by
    rw [← List.filterMap_eq_map]
    refine List.filterMap_congr fun l hl => ?_
    have : j < l.length := by rwa [x.width_eq l hl]
    simp [this]
  rw [hmap]
  refine List.ext_getElem (by simp [Grid.rows]) fun i hi hi' => ?_
  have hi : i < x.lines.length := by simpa using hi
  simp [Grid.entry, Grid.get?, hi]

theorem zipWith_range (cells : List (Cell K)) (g : ℕ → K) :
    List.zipWith (· * ·) (cells.map Cell.value) ((List.range cells.length).map g) =
      cells.zipIdx.map fun (c, v) => c.value * g v := by
  rw [List.zipIdx_eq_zip_range', ← List.range_eq_range', List.zipWith_map, List.map_zip_eq_zipWith]
  rfl

theorem times_eq {a : DenseMatrix K} (h : a.Square) (hc : a.Cleared) {x y : Grid K}
    (hx : x.rows = a.cells.rows)
    (hy : orFault .shapesDiffer (a.values.times? x) = (.ok y : Outcome K (Grid K))) :
    y.lines = productLines a x := by
  have hcols : a.values.cols = x.rows := by rw [hx]; exact h.symm
  rw [Grid.times?, if_pos hcols] at hy
  cases hy
  refine List.ext_getElem (by simp [Grid.mapLines, values, Grid.map, productLines, EdgeMatrix.numNodes, Grid.rows])
    fun u hu hu' => ?_
  have hu : u < a.cells.lines.length := by simpa [Grid.mapLines, values, Grid.map] using hu
  simp only [Grid.mapLines, values, Grid.map, List.getElem_map, productLines, List.getElem_range]
  refine List.map_congr_left fun j hj => ?_
  have hlen : (a.cells.lines[u]).length = x.rows :=
    (a.cells.width_eq _ (List.getElem_mem hu)).trans hcols
  have hsum := sum_edgesFrom u 0 (hc _ (List.getElem_mem hu)) fun v => x.entry v j
  rw [Exact.runningSum_eq_sum, filterMap_column (List.mem_range.1 hj), ← hlen, zipWith_range,
    row_eq_lineEdges (List.getElem?_eq_getElem hu)]
  exact hsum.symm

instance : ExactBacking DenseMatrix where
  rowSums_eq _ hc := rowSums_eq hc
  colSums_eq h hc := colSums_eq h hc
  times_eq h hc hx hy := times_eq h hc hx hy

end Exact

end NeuralFlow.DenseMatrix
