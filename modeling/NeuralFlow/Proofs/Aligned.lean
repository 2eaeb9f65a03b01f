import Mathlib
import NeuralFlow.Proofs.Grid
import NeuralFlow.Proofs.Outcome

/-! Two runs side by side. A relation says which nodes of the one run are compared with which nodes of
the other, and what is listed by node is aligned if it has the same values at related nodes. Everything
that is done position by position or line by line keeps this, whatever the relation is. -/

namespace NeuralFlow

variable {n : ℕ} {R S : ℕ → ℕ → Prop} {α β γ : Type}

/-- Two lists by node that have the same values at related nodes. -/
structure Aligned (n : ℕ) (R : ℕ → ℕ → Prop) (xs ys : List α) : Prop where
  length_left : xs.length = n
  length_right : ys.length = n
  getElem? : ∀ u v, u < n → v < n → R u v → ys[v]? = xs[u]?

namespace Aligned

variable {xs ys : List α} {xs' ys' : List β}

/-- With fewer nodes to compare less has to be the same. -/
theorem of_le (h : Aligned n R xs ys) (hsr : ∀ u v, S u v → R u v) : Aligned n S xs ys where
  length_left := h.length_left
  length_right := h.length_right
  getElem? u v hu hv huv := h.getElem? u v hu hv (hsr u v huv)

theorem range {f g : ℕ → α} (h : ∀ u v, u < n → v < n → R u v → g v = f u) :
    Aligned n R ((List.range n).map f) ((List.range n).map g) where
  length_left := by simp
  length_right := by simp
  getElem? u v hu hv huv := by simp [hu, hv, h u v hu hv huv]

theorem replicate (x : α) : Aligned n R (List.replicate n x) (List.replicate n x) where
  length_left := List.length_replicate
  length_right := List.length_replicate
  getElem? u v hu hv _ := by simp [hu, hv]

theorem map (h : Aligned n R xs ys) (f : α → β) : Aligned n R (xs.map f) (ys.map f) where
  length_left := by rw [List.length_map, h.length_left]
  length_right := by rw [List.length_map, h.length_right]
  getElem? u v hu hv huv := by rw [List.getElem?_map, List.getElem?_map, h.getElem? u v hu hv huv]

theorem zipWith (h : Aligned n R xs ys) (k : Aligned n R xs' ys') (f : α → β → γ) :
    Aligned n R (List.zipWith f xs xs') (List.zipWith f ys ys') where
  length_left := by rw [List.length_zipWith, h.length_left, k.length_left, Nat.min_self]
  length_right := by rw [List.length_zipWith, h.length_right, k.length_right, Nat.min_self]
  getElem? u v hu hv huv := by
    rw [List.getElem?_zipWith, List.getElem?_zipWith, h.getElem? u v hu hv huv,
      k.getElem? u v hu hv huv]

/-- Values read off every element, if there is one for each, stay in place. -/
theorem getElem?_filterMap {zs : List α} {f : α → Option β} (h : ∀ z ∈ zs, (f z).isSome) (i : ℕ) :
    (zs.filterMap f)[i]? = zs[i]?.bind f := by
  induction zs generalizing i with
  | nil => simp
  | cons z zs ih =>
    obtain ⟨w, hw⟩ := Option.isSome_iff_exists.1 (h z (by simp))
    cases i with
    | zero => simp [hw]
    | succ i => simpa [hw] using ih (fun v hv => h v (by simp [hv])) i

theorem filterMap (h : Aligned n R xs ys) {f : α → Option β} (hx : ∀ x ∈ xs, (f x).isSome)
    (hy : ∀ y ∈ ys, (f y).isSome) : Aligned n R (xs.filterMap f) (ys.filterMap f) where
  length_left := (List.filterMap_length_eq_length.2 hx).trans h.length_left
  length_right := (List.filterMap_length_eq_length.2 hy).trans h.length_right
  getElem? u v hu hv huv := by
    rw [getElem?_filterMap hx, getElem?_filterMap hy, h.getElem? u v hu hv huv]

end Aligned

/-! Tables with a line for each node. -/

structure AlignedLines (n : ℕ) (R : ℕ → ℕ → Prop) (x y : Grid α) : Prop where
  cols : x.cols = y.cols
  lines : Aligned n R x.lines y.lines

namespace AlignedLines

variable {x y : Grid α} {x' y' : Grid β}

theorem of_le (h : AlignedLines n R x y) (hsr : ∀ u v, S u v → R u v) : AlignedLines n S x y :=
  ⟨h.cols, h.lines.of_le hsr⟩

theorem rows_left (h : AlignedLines n R x y) : x.rows = n := h.lines.length_left

theorem rows_right (h : AlignedLines n R x y) : y.rows = n := h.lines.length_right

theorem map (h : AlignedLines n R x y) (f : α → β) : AlignedLines n R (x.map f) (y.map f) :=
  ⟨h.cols, h.lines.map _⟩

theorem entry [Zero α] (h : AlignedLines n R x y) {u v : ℕ} (hu : u < n) (hv : v < n)
    (huv : R u v) (j : ℕ) : y.entry v j = x.entry u j := by
  rw [Grid.entry, Grid.entry, Grid.get?, Grid.get?, h.lines.getElem? u v hu hv huv]

theorem columns? (h : AlignedLines n R x y) (lo hi : ℕ) :
    Option.Rel (AlignedLines n R) (x.columns? lo hi) (y.columns? lo hi) := by
  unfold Grid.columns?
  rw [h.cols]
  split_ifs
  · exact .some ⟨by simp [Grid.columns, Grid.mapLines, h.cols], h.lines.map _⟩
  · exact .none

theorem beside? {x' y' : Grid α} (h : AlignedLines n R x y) (k : AlignedLines n R x' y') :
    Option.Rel (AlignedLines n R) (x.beside? x') (y.beside? y') := by
  unfold Grid.beside?
  rw [if_pos (h.rows_left.trans k.rows_left.symm), if_pos (h.rows_right.trans k.rows_right.symm)]
  exact .some ⟨congrArg₂ (· + ·) h.cols k.cols, h.lines.zipWith k.lines _⟩

theorem column? (h : AlignedLines n R x y) (j : ℕ) :
    Option.Rel (Aligned n R) (x.column? j) (y.column? j) := by
  have hfound : ∀ {z : Grid α}, j < z.cols → ∀ cells ∈ z.lines, (cells[j]?).isSome := by
    intro z hj cells hcells
    have hwidth := z.width_eq cells hcells
    simp [hwidth, hj]
  unfold Grid.column?
  rw [← h.cols]
  split_ifs with hj
  · exact .some (h.lines.filterMap (hfound hj) (hfound (h.cols ▸ hj)))
  · exact .none

/-- A table by node combined with one of the same kind, or with one that has a line for all nodes. -/
theorem combine?_of_stretch (h : AlignedLines n R x y) (hcols : x'.cols = y'.cols)
    (hrows : commonLength n x'.rows = some n) (hrows' : commonLength n y'.rows = some n)
    (hlines : Aligned n R (stretch n x'.lines) (stretch n y'.lines)) (f : α → β → γ) :
    Option.Rel (AlignedLines n R) (Grid.combine? f x x') (Grid.combine? f y y') := by
  have hx : commonLength x.rows x'.rows = some n := by rw [h.rows_left, hrows]
  have hy : commonLength y.rows y'.rows = some n := by rw [h.rows_right, hrows']
  have hsame : commonLength y.cols y'.cols = commonLength x.cols x'.cols := by rw [h.cols, hcols]
  cases hc : commonLength x.cols x'.cols with
  | none =>
    rw [Grid.combine?_eq_none hc, Grid.combine?_eq_none (hsame.trans hc)]
    exact .none
  | some c =>
    obtain ⟨g, hg, hgs⟩ := Grid.combine?_of_commonLength (f := f) hx hc
    obtain ⟨g', hg', hgs'⟩ := Grid.combine?_of_commonLength (f := f) hy (hsame.trans hc)
    rw [hg, hg']
    refine .some ⟨hgs.cols_eq.trans hgs'.cols_eq.symm, ?_⟩
    rw [Grid.lines_combine? hg, Grid.lines_combine? hg', hgs.rows_eq, hgs'.rows_eq, hgs.cols_eq,
      hgs'.cols_eq, Grid.stretch_of_length_eq h.rows_left, Grid.stretch_of_length_eq h.rows_right]
    exact h.lines.zipWith hlines _

theorem combine? (h : AlignedLines n R x y) (k : AlignedLines n R x' y') (f : α → β → γ) :
    Option.Rel (AlignedLines n R) (Grid.combine? f x x') (Grid.combine? f y y') := by
  refine h.combine?_of_stretch k.cols (by rw [k.rows_left, Grid.commonLength_self])
    (by rw [k.rows_right, Grid.commonLength_self]) ?_ f
  rw [Grid.stretch_of_length_eq k.rows_left, Grid.stretch_of_length_eq k.rows_right]
  exact k.lines

theorem combine?_ofLine (h : AlignedLines n R x y) (line : List β) (f : α → β → γ) :
    Option.Rel (AlignedLines n R) (Grid.combine? f x (.ofLine line))
      (Grid.combine? f y (.ofLine line)) :=
  have hrows : commonLength n (Grid.ofLine line).rows = some n := Grid.commonLength_one n
  h.combine?_of_stretch rfl hrows hrows (.replicate line) f

theorem update? (h : AlignedLines n R x y) (k : AlignedLines n R x' y') (f : α → β → α) :
    Option.Rel (AlignedLines n R) (x.update? f x') (y.update? f y') := by
  have hrel := h.combine? k f
  unfold Grid.update?
  generalize Grid.combine? f x x' = g at hrel ⊢
  generalize Grid.combine? f y y' = g' at hrel ⊢
  cases hrel with
  | none => exact .none
  | some hg =>
    rw [Option.filter_some, Option.filter_some, hg.rows_left, hg.rows_right, h.rows_left,
      h.rows_right, hg.cols, h.cols]
    split_ifs
    · exact .some hg
    · exact .none

theorem stretchLines? (h : AlignedLines n R x y) :
    Option.Rel (AlignedLines n R) (x.stretchLines? n) (y.stretchLines? n) := by
  rw [Grid.stretchLines?, Grid.stretchLines?, dif_pos (Or.inl h.rows_left),
    dif_pos (Or.inl h.rows_right)]
  refine .some ⟨h.cols, ?_⟩
  dsimp only
  rw [Grid.stretch_of_length_eq h.rows_left, Grid.stretch_of_length_eq h.rows_right]
  exact h.lines

/-- Columns that are aligned make tables whose lines are. -/
theorem ofColumns [Zero α] {xs ys : List (List α)} (h : List.Forall₂ (Aligned n R) xs ys) :
    AlignedLines n R (Grid.ofColumns n xs) (Grid.ofColumns n ys) := by
  refine ⟨h.length_eq, .range fun u v hu hv huv => ?_⟩
  induction h with
  | nil => rfl
  | cons hxy _ ih => rw [List.map_cons, List.map_cons, hxy.getElem? u v hu hv huv, ih]

theorem zeros [Scalar α] (c : ℕ) : AlignedLines n R (Grid.zeros n c : Grid α) (Grid.zeros n c) :=
  ⟨rfl, .replicate _⟩

theorem timesTransposed? [Scalar α] (h : AlignedLines n R x y) (w : Grid α) :
    Option.Rel (AlignedLines n R) (x.timesTransposed? w) (y.timesTransposed? w) := by
  unfold Grid.timesTransposed?
  rw [h.cols]
  split_ifs
  · exact .some ⟨rfl, h.lines.map _⟩
  · exact .none

end AlignedLines

end NeuralFlow
