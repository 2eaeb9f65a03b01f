import Mathlib
import NeuralFlow.Proofs.Exact
import NeuralFlow.Proofs.Grid
import NeuralFlow.Proofs.Outcome
import NeuralFlow.Proofs.RowOrder

/-! What both backings promise. A matrix is seen through its nodes and its edges in row order; the
laws say how every operation acts on this view, in `LawfulBacking` for any numbers and in
`ExactBacking` for the sums that need exact ones. -/

namespace NeuralFlow

namespace EdgeMatrix

variable {M : Type → Type} [EdgeMatrix M] {K : Type} [ExactScalar K]

def outflow (a : M K) (u : ℕ) : K := ((row a u).map Edge.value).sum

def inflow (a : M K) (v : ℕ) : K := (((edges a).filter (·.dst == v)).map Edge.value).sum

def productLines (a : M K) (x : Grid K) : List (List K) :=
  (List.range (numNodes a)).map fun u => (List.range x.cols).map fun j =>
    ((row a u).map fun e => e.value * x.entry e.dst j).sum

section Views

variable {M : Type → Type} [EdgeMatrix M] {α : Type}

theorem pattern_eq_map_ends (a : M α) : pattern a = (edges a).map Edge.ends := rfl

theorem mem_pattern_of_mem {a : M α} {e : Edge α} (he : e ∈ edges a) : (e.src, e.dst) ∈ pattern a :=
  List.mem_map.2 ⟨e, he, rfl⟩

theorem length_pattern (a : M α) : (pattern a).length = (edges a).length := by
  simp [pattern]

theorem length_edges_eq {a b : M α} (h : pattern a = pattern b) :
    (edges a).length = (edges b).length := by
  rw [← length_pattern, ← length_pattern, h]

def diagonal (n : ℕ) : List (ℕ × ℕ) := (List.range n).map fun i => (i, i)

theorem length_diagonal (n : ℕ) : (diagonal n).length = n := by simp [diagonal]

theorem nodup_diagonal (n : ℕ) : (diagonal n).Nodup :=
  List.nodup_range.map fun _ _ h => (Prod.mk.inj h).1

theorem mem_diagonal {n u v : ℕ} : (u, v) ∈ diagonal n ↔ u = v ∧ u < n := by
  simp only [diagonal, List.mem_map, List.mem_range, Prod.mk.injEq]
  constructor
  · rintro ⟨i, hi, rfl, rfl⟩
    exact ⟨rfl, hi⟩
  · rintro ⟨rfl, hu⟩
    exact ⟨u, hu, rfl, rfl⟩

/-- A visit that succeeds at every edge gives the matrix of its results. -/
theorem withValuesM_ok [Scalar α] {a : M α} {f : ℕ → ℕ → α → Outcome α α} {g : ℕ → ℕ → α → α}
    (h : ∀ e ∈ edges a, f e.src e.dst e.value = .ok (g e.src e.dst e.value)) :
    withValuesM a f = .ok (withValues a g) := by
  rw [withValuesM, mapM_ok (g := fun e => g e.src e.dst e.value) h]
  rfl

def columnSum [Scalar α] (a : M α) (v : ℕ) : α :=
  Scalar.runningSum (((edges a).filter (·.dst == v)).map Edge.value)

end Views

theorem columnSum_eq_inflow (a : M K) (v : ℕ) : columnSum a v = inflow a v :=
  Exact.runningSum_eq_sum _

end EdgeMatrix

def Edge.Fits {α : Type} [Scalar α] (n : ℕ) (e : Edge α) : Prop :=
  e.src < n ∧ e.dst < n ∧ Scalar.isFinite e.value = true

open EdgeMatrix

/-- The laws of a backing that hold for all numbers. `Square` describes the matrices that the
constructors and operations give, `Cleared` those with zeros off the pattern. -/
class LawfulBacking (M : Type → Type) [EdgeMatrix M] where
  Square {α : Type} : M α → Prop
  Cleared {α : Type} [Scalar α] : M α → Prop
  rowOrdered {α : Type} {a : M α} : Square a → RowOrdered (edges a)
  ends_lt {α : Type} {a : M α} : Square a → ∀ e ∈ edges a, e.src < numNodes a ∧ e.dst < numNodes a
  numEdges_eq {α : Type} {a : M α} : Square a → numEdges a = (edges a).length
  hasEdge?_eq {α : Type} {a : M α} {u v : ℕ} : Square a → u < numNodes a → v < numNodes a →
    hasEdge? a u v = some (decide ((u, v) ∈ pattern a))
  get?_edge {α : Type} [Scalar α] {a : M α} : Square a → ∀ e ∈ edges a,
    get? a e.src e.dst = some e.value
  get?_blank {α : Type} [Scalar α] {a : M α} {u v : ℕ} : Square a → Cleared a → u < numNodes a →
    v < numNodes a → (u, v) ∉ pattern a → get? a u v = some 0
  sameLayout_iff {α : Type} {a b : M α} : Square a → Square b →
    (sameLayout a b = true ↔ numNodes a = numNodes b ∧ pattern a = pattern b)
  square_refill {α : Type} [Scalar α] {a : M α} (new : List α) : Square a → Square (refill a new)
  cleared_refill {α : Type} [Scalar α] (a : M α) (new : List α) : Cleared (refill a new)
  numNodes_refill {α : Type} [Scalar α] (a : M α) (new : List α) :
    numNodes (refill a new) = numNodes a
  edges_refill {α : Type} [Scalar α] {a : M α} {new : List α} : Square a →
    new.length = (edges a).length → edges (refill a new) = setValues (edges a) new
  square_overwrite {α : Type} [Scalar α] {a : M α} (new : List α) :
    Square a → Square (overwrite a new)
  cleared_overwrite {α : Type} [Scalar α] {a : M α} (new : List α) :
    Cleared a → Cleared (overwrite a new)
  numNodes_overwrite {α : Type} [Scalar α] (a : M α) (new : List α) :
    numNodes (overwrite a new) = numNodes a
  edges_overwrite {α : Type} [Scalar α] {a : M α} {new : List α} : Square a →
    new.length = (edges a).length → edges (overwrite a new) = setValues (edges a) new
  length_rowSums {α : Type} [Scalar α] {a : M α} : Square a → (rowSums a).length = numNodes a
  length_colSums {α : Type} [Scalar α] {a : M α} : Square a → (colSums a).length = numNodes a
  times_shape {α : Type} [Scalar α] {a : M α} {x : Grid α} : Square a → x.rows = numNodes a →
    ∃ y, times a x = .ok y ∧ y.rows = numNodes a ∧ y.cols = x.cols
  ofEdges_ok {α : Type} [Scalar α] {n : ℕ} {es : List (Edge α)} : (∀ e ∈ es, e.Fits n) →
    ∃ a : M α, ofEdges n es = .ok a ∧ Square a ∧ Cleared a ∧ numNodes a = n ∧
      edges a = SparseMatrix.inRowOrder es
  ofEdges_error {α : Type} [Scalar α] {n : ℕ} {es : List (Edge α)} : (¬ ∀ e ∈ es, e.Fits n) →
    ∃ err, (ofEdges n es : Outcome α (M α)) = .error err

/-- The laws of a backing in exact arithmetic, where sums over all places of a matrix are sums over
its edges. -/
class ExactBacking (M : Type → Type) [EdgeMatrix M] extends LawfulBacking M where
  rowSums_eq {K : Type} [ExactScalar K] {a : M K} : Square a → Cleared a →
    rowSums a = (List.range (numNodes a)).map (outflow a)
  colSums_eq {K : Type} [ExactScalar K] {a : M K} : Square a → Cleared a →
    colSums a = (List.range (numNodes a)).map (inflow a)
  times_eq {K : Type} [ExactScalar K] {a : M K} {x y : Grid K} : Square a → Cleared a →
    x.rows = numNodes a → times a x = .ok y → y.lines = productLines a x

namespace EdgeMatrix

open LawfulBacking

variable {M : Type → Type} [EdgeMatrix M] [LawfulBacking M] {α : Type}

/-- Lists that are cut into pieces of the same lengths are equal only if the pieces are. -/
theorem eq_of_flatMap_eq {β γ : Type} {us : List β} {f g : β → List γ}
    (h : us.flatMap f = us.flatMap g) (hlen : ∀ u ∈ us, (f u).length = (g u).length) :
    ∀ u ∈ us, f u = g u := by
  induction us with
  | nil => simp
  | cons w us ih =>
    rw [List.flatMap_cons, List.flatMap_cons] at h
    obtain ⟨hw, hus⟩ := List.append_inj h (hlen w (by simp))
    exact List.forall_mem_cons.2 ⟨hw, ih hus fun u hu => hlen u (List.mem_cons_of_mem w hu)⟩

/-- The edges of all rows are all edges. -/
theorem flatMap_row {a : M α} (h : Square a) :
    (List.range (numNodes a)).flatMap (row a) = edges a :=
  (rowOrdered h).flatMap_rows fun e he => (ends_lt h e he).1

theorem hasEdge_iff {a : M α} (h : Square a) {u v : ℕ} (hu : u < numNodes a) (hv : v < numNodes a) :
    hasEdge a u v = true ↔ (u, v) ∈ pattern a := by
  rw [hasEdge, hasEdge?_eq h hu hv, Option.getD_some, decide_eq_true_iff]

/-- A list that repeats nothing and lies inside one of its length is that list in another order. -/
theorem perm_iff_length_subset {β : Type} {ps qs : List β} (h : ps.Nodup) :
    ps.Perm qs ↔ ps.length = qs.length ∧ ps ⊆ qs :=
  ⟨fun hperm => ⟨hperm.length_eq, hperm.subset⟩,
    fun ⟨hlen, hsub⟩ => (h.subperm hsub).perm_of_length_le hlen.ge⟩

/-- Comparing counts and looking the edges of one matrix up in the other compares the patterns. -/
theorem samePattern_iff {a b : M α} (ha : Square a) (hb : Square b) :
    samePattern a b = true ↔ numNodes a = numNodes b ∧ pattern a = pattern b := by
  have hnodup : (pattern a).Nodup := (rowOrdered ha).ends_nodup
  rw [samePattern, Bool.and_eq_true, Bool.and_eq_true, beq_iff_eq, beq_iff_eq, List.all_eq_true,
    numEdges_eq ha, numEdges_eq hb, ← length_pattern, ← length_pattern, and_assoc]
  refine and_congr_right fun hn => ?_
  have hfound : (∀ e ∈ edges a, hasEdge b e.src e.dst = true) ↔ pattern a ⊆ pattern b := by
    rw [pattern_eq_map_ends a, List.subset_def, List.forall_mem_map]
    refine forall₂_congr fun e he => ?_
    have hlt := ends_lt ha e he
    exact hasEdge_iff hb (hn ▸ hlt.1) (hn ▸ hlt.2)
  rw [hfound, ← perm_iff_length_subset hnodup]
  exact ⟨fun hperm => (rowOrdered ha).ends_eq (rowOrdered hb) fun p => hperm.mem_iff,
    fun hpat => hpat ▸ .refl _⟩

variable [Scalar α]

/-- A matrix that was made of edges is one that the edges fit. -/
theorem ofEdges_ensures (n : ℕ) (es : List (Edge α)) :
    Ensures (ofEdges n es : Outcome α (M α)) fun a => (∀ e ∈ es, e.Fits n) ∧ Square a ∧
      Cleared a ∧ numNodes a = n ∧ edges a = SparseMatrix.inRowOrder es := by
  intro a ha
  by_cases hfit : ∀ e ∈ es, e.Fits n
  · obtain ⟨b, hb, hlaws⟩ := LawfulBacking.ofEdges_ok (M := M) hfit
    rw [ha] at hb
    cases hb
    exact ⟨hfit, hlaws⟩
  · obtain ⟨err, herr⟩ := LawfulBacking.ofEdges_error (M := M) hfit
    rw [ha] at herr
    cases herr

theorem pattern_refill {a : M α} (h : Square a) {new : List α}
    (hn : new.length = (edges a).length) : pattern (refill a new) = pattern a := by
  rw [pattern_eq_map_ends, edges_refill h hn, ends_setValues hn, pattern_eq_map_ends]

theorem pattern_overwrite {a : M α} (h : Square a) {new : List α}
    (hn : new.length = (edges a).length) : pattern (overwrite a new) = pattern a := by
  rw [pattern_eq_map_ends, edges_overwrite h hn, ends_setValues hn, pattern_eq_map_ends]

/-! New values from a function of the edges. -/

theorem square_withValues {a : M α} (h : Square a) (f : ℕ → ℕ → α → α) :
    Square (withValues a f) := square_refill _ h

@[simp] theorem numNodes_withValues (a : M α) (f : ℕ → ℕ → α → α) :
    numNodes (withValues a f) = numNodes a := numNodes_refill _ _

theorem edges_withValues {a : M α} (h : Square a) (f : ℕ → ℕ → α → α) :
    edges (withValues a f) = (edges a).map fun e => { e with value := f e.src e.dst e.value } := by
  rw [withValues, edges_refill h (by simp), setValues_map]

theorem row_withValues {a : M α} (h : Square a) (f : ℕ → ℕ → α → α) (u : ℕ) :
    row (withValues a f) u =
      (row a u).map fun e => { e with value := f e.src e.dst e.value } := by
  rw [row, edges_withValues h, List.filter_map]
  rfl

def atEnds {β γ : Type} (xs : List β) (ys : List γ) (f : β → γ → α) (u v : ℕ) (x : α) : α :=
  (xs[u]?.bind fun y => ys[v]?.map (f y)).getD x

/-- Looking up what is listed for the ends of every edge succeeds if there is something for every
node. -/
theorem lookUpEnds_ok {β γ : Type} {a : M α} (h : Square a) {xs : List β} {ys : List γ}
    (hx : xs.length = numNodes a) (hy : ys.length = numNodes a) (f : β → γ → α) :
    (withValuesM a fun u v _ => do
      let x ← orFault .indexOutOfRange xs[u]?
      let y ← orFault .indexOutOfRange ys[v]?
      return f x y : Outcome α (M α)) = .ok (withValues a (atEnds xs ys f)) := by
  refine withValuesM_ok fun e he => ?_
  obtain ⟨hu, hv⟩ := ends_lt h e he
  rw [atEnds, List.getElem?_eq_getElem (hx.symm ▸ hu), List.getElem?_eq_getElem (hy.symm ▸ hv)]
  rfl

/-- A matrix with the nodes and edges of another one, and zeros elsewhere. -/
structure OnPattern (a b : M α) : Prop where
  square : Square b
  cleared : Cleared b
  nodes : numNodes b = numNodes a
  pattern : pattern b = pattern a

theorem OnPattern.trans {a b c : M α} (h : OnPattern a b) (k : OnPattern b c) : OnPattern a c where
  square := k.square
  cleared := k.cleared
  nodes := k.nodes.trans h.nodes
  pattern := k.pattern.trans h.pattern

theorem onPattern_refill {a : M α} (h : Square a) {new : List α}
    (hn : new.length = (edges a).length) : OnPattern a (refill a new) where
  square := square_refill new h
  cleared := cleared_refill a new
  nodes := numNodes_refill a new
  pattern := pattern_refill h hn

theorem onPattern_withValues {a : M α} (h : Square a) (f : ℕ → ℕ → α → α) :
    OnPattern a (withValues a f) := onPattern_refill h (by simp)

/-- A visit that finds a value for every edge succeeds. -/
theorem withValuesM_yields {a : M α} (h : Square a) {f : ℕ → ℕ → α → Outcome α α}
    (hf : ∀ e ∈ edges a, ∃ x, f e.src e.dst e.value = .ok x) :
    Yields (withValuesM a f) (OnPattern a) := by
  obtain ⟨values, hvalues, hlen, -⟩ :=
    Yields.mapM (P := fun _ => True) fun e he => (hf e he).imp fun x hx => ⟨hx, trivial⟩
  rw [withValuesM, hvalues, ok_bind]
  exact yields_pure (onPattern_refill h hlen)

theorem zipMap_yields {a b : M α} (ha : Square a) (hb : Square b) (hn : numNodes a = numNodes b)
    (hp : pattern a = pattern b) (f : α → α → α) : Yields (zipMap a b f) (OnPattern a) := by
  have hlen := length_edges_eq hp
  rw [zipMap, if_pos ((sameLayout_iff ha hb).2 ⟨hn, hp⟩)]
  exact ⟨_, rfl, onPattern_refill ha (by simp [hlen])⟩

/-- Visiting two matrices with one pattern side by side is looking the second one up. -/
theorem zipMap_ok {a c : M α} (ha : Square a) (hc : Square c) (h : sameLayout a c = true)
    (f : α → α → α) :
    zipMap a c f = .ok (withValues a fun u v x => f x ((get? c u v).getD 0)) := by
  have hpattern := ((sameLayout_iff ha hc).1 h).2
  rw [zipMap, if_pos h, withValues]
  refine congrArg (fun values => Except.ok (refill a values)) ?_
  have hlen := length_edges_eq hpattern
  refine List.ext_getElem (by simp [hlen]) fun i hi hi' => ?_
  have hia : i < (edges a).length := by simpa using hi'
  have hic : i < (edges c).length := hlen ▸ hia
  have hends : (edges a)[i].ends = (edges c)[i].ends := by
    have hget := congrArg (·[i]?) hpattern
    simpa [pattern, hia, hic, Edge.ends] using hget
  obtain ⟨hsrc, hdst⟩ := Edge.ends_eq_iff.1 hends
  have hvalue := get?_edge hc _ (List.getElem_mem hic)
  simp [hsrc, hdst, hvalue]

/-! New values row by row. -/

def rowValues (a : M α) (f : ℕ → List ℕ → List α → List α) : List α :=
  (List.range (numNodes a)).flatMap fun u =>
    match row a u with
    | [] => []
    | es => let values := es.map Edge.value; fitTo values (f u (es.map Edge.dst) values)

omit [LawfulBacking M] in
theorem mapRows_eq (a : M α) (f : ℕ → List ℕ → List α → List α) :
    mapRows a f = overwrite a (rowValues a f) := rfl

def newValues (a : M α) (f : ℕ → List ℕ → List α → List α) (u : ℕ) : List α :=
  match row a u with
  | [] => []
  | es => let values := es.map Edge.value; fitTo values (f u (es.map Edge.dst) values)

omit [LawfulBacking M] [Scalar α] in
theorem rowValues_eq (a : M α) (f : ℕ → List ℕ → List α → List α) :
    rowValues a f = (List.range (numNodes a)).flatMap (newValues a f) := rfl

omit [LawfulBacking M] [Scalar α] in
theorem length_newValues (a : M α) (f : ℕ → List ℕ → List α → List α) (u : ℕ) :
    (newValues a f u).length = (row a u).length := by
  unfold newValues
  split
  · simp_all
  · rw [length_fitTo, List.length_map]

omit [LawfulBacking M] [Scalar α] in
/-- A function that gives a value for each edge has its values taken as they are. -/
theorem newValues_of_length_eq {a : M α} {f : ℕ → List ℕ → List α → List α} {u : ℕ}
    (hne : row a u ≠ []) (hf : ∀ ends values, (f u ends values).length = values.length) :
    newValues a f u = f u ((row a u).map Edge.dst) ((row a u).map Edge.value) := by
  unfold newValues
  split
  · contradiction
  · exact fitTo_of_length_eq (hf _ _)

omit [Scalar α] in
theorem length_rowValues {a : M α} (h : Square a) (f : ℕ → List ℕ → List α → List α) :
    (rowValues a f).length = (edges a).length := by
  rw [rowValues_eq, List.length_flatMap, ← flatMap_row h, List.length_flatMap]
  simp only [length_newValues]

theorem onPattern_mapRows {a : M α} (h : Square a) (hc : Cleared a)
    (f : ℕ → List ℕ → List α → List α) : OnPattern a (mapRows a f) where
  square := square_overwrite _ h
  cleared := cleared_overwrite _ hc
  nodes := numNodes_overwrite a _
  pattern := pattern_overwrite h (length_rowValues h f)

omit [LawfulBacking M] [Scalar α] in
theorem map_ends_row (a : M α) (u : ℕ) :
    (row a u).map Edge.ends = (pattern a).filter (·.1 == u) := by
  rw [row, pattern_eq_map_ends, List.filter_map]
  rfl

/-- The values of a row afterwards are its new values. -/
theorem map_value_row_mapRows {a : M α} (h : Square a) (hc : Cleared a)
    (f : ℕ → List ℕ → List α → List α) {u : ℕ} (hu : u < numNodes a) :
    (row (mapRows a f) u).map Edge.value = newValues a f u := by
  have hon := onPattern_mapRows h hc f
  have hlen := length_rowValues h f
  have hall : (List.range (numNodes a)).flatMap (fun w => (row (mapRows a f) w).map Edge.value) =
      (List.range (numNodes a)).flatMap (newValues a f) := by
    have hrows := flatMap_row hon.square
    rw [hon.nodes] at hrows
    rw [← List.map_flatMap, hrows, mapRows_eq, edges_overwrite h hlen, values_setValues hlen, rowValues_eq]
  refine eq_of_flatMap_eq hall (fun w _ => ?_) u (List.mem_range.2 hu)
  rw [List.length_map, length_newValues, ← List.length_map Edge.ends, map_ends_row, hon.pattern,
    ← map_ends_row, List.length_map]

/-- The new values of a row depend on this row only. -/
theorem row_mapRows_congr {a b : M α} (ha : Square a) (hb : Square b) (hca : Cleared a)
    (hcb : Cleared b) (f : ℕ → List ℕ → List α → List α) {u : ℕ} (hu : u < numNodes a)
    (hu' : u < numNodes b) (h : row a u = row b u) : row (mapRows a f) u = row (mapRows b f) u := by
  refine Edge.eq_of_ends_values ?_ ?_
  · rw [map_ends_row, map_ends_row, (onPattern_mapRows ha hca f).pattern,
      (onPattern_mapRows hb hcb f).pattern, ← map_ends_row, ← map_ends_row, h]
  · rw [map_value_row_mapRows ha hca f hu, map_value_row_mapRows hb hcb f hu', newValues, newValues, h]

end EdgeMatrix

end NeuralFlow
