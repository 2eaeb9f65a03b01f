import Mathlib
import NeuralFlow.Grid

/-! Tables by position and by shape: which positions have an entry, that entries and sizes fix a table,
and the sizes that operations on tables ask for and give. -/

namespace NeuralFlow

namespace Grid

variable {α β : Type}

def entry [Zero α] (x : Grid α) (i j : ℕ) : α := (x.get? i j).getD 0

theorem get?_of_lt {g : Grid α} {i j : ℕ} (hi : i < g.rows) (hj : j < g.cols) :
    ∃ x, g.get? i j = some x := by
  have hi' : i < g.lines.length := hi
  have hj' : j < g.lines[i].length := by rwa [g.width_eq _ (List.getElem_mem hi')]
  exact ⟨g.lines[i][j], by simp [get?, hi', hj']⟩

theorem lt_of_get? {g : Grid α} {i j : ℕ} {x : α} (h : g.get? i j = some x) :
    i < g.rows ∧ j < g.cols := by
  obtain ⟨l, hl, hx⟩ := Option.bind_eq_some_iff.1 h
  obtain ⟨hi, rfl⟩ := List.getElem?_eq_some_iff.1 hl
  obtain ⟨hj, -⟩ := List.getElem?_eq_some_iff.1 hx
  exact ⟨hi, (g.width_eq _ (List.getElem_mem hi)) ▸ hj⟩

theorem get?_map (f : α → β) (g : Grid α) (i j : ℕ) : (g.map f).get? i j = (g.get? i j).map f := by
  simp only [map, mapLines, get?, List.getElem?_map]
  cases g.lines[i]? <;> simp

theorem ext_get? {a b : Grid α} (hr : a.rows = b.rows) (hc : a.cols = b.cols)
    (h : ∀ i j, i < a.rows → j < a.cols → a.get? i j = b.get? i j) : a = b := by
  refine ext_lines hc (List.ext_getElem hr fun i hi hi' => ?_)
  have hwa : a.lines[i].length = a.cols := a.width_eq _ (List.getElem_mem hi)
  have hwb : b.lines[i].length = b.cols := b.width_eq _ (List.getElem_mem hi')
  refine List.ext_getElem (by omega) fun j hj hj' => ?_
  have hij := h i j hi (by omega)
  simpa [get?, hi, hi', hj, hj'] using hij

theorem get?_set {g : Grid α} {i j : ℕ} (hi : i < g.rows) (hj : j < g.cols) (x : α) (u v : ℕ) :
    (g.set i j x).get? u v = if u = i ∧ v = j then some x else g.get? u v := by
  have hi' : i < g.lines.length := hi
  simp only [get?, set, List.getElem?_modify]
  by_cases hu : u = i
  · subst hu
    have hl : g.lines[u]? = some g.lines[u] := List.getElem?_eq_getElem hi'
    have hw : j < g.lines[u].length := by rwa [g.width_eq _ (List.getElem_mem hi')]
    by_cases hv : v = j
    · subst hv; simp [hl, hw]
    · simp [hl, hv, List.getElem?_set_ne (Ne.symm hv)]
  · have hne : ¬ i = u := fun h => hu h.symm
    simp [hu, hne]

/-! Shapes. -/

structure Shaped (g : Grid α) (r c : ℕ) : Prop where
  rows_eq : g.rows = r
  cols_eq : g.cols = c

theorem commonLength_self (n : ℕ) : commonLength n n = some n := by simp [commonLength]

theorem commonLength_one (n : ℕ) : commonLength n 1 = some n := by
  unfold commonLength
  split_ifs with h h' <;> simp_all

variable {γ : Type} {f : α → β → γ} {a : Grid α} {b : Grid β} {r c : ℕ}

theorem shaped_combine? {g : Grid γ} (h : combine? f a b = some g) :
    commonLength a.rows b.rows = some g.rows ∧ commonLength a.cols b.cols = some g.cols := by
  unfold combine? at h
  split at h
  · rename_i m n hm hn
    cases h
    have hrows := eq_or_one_of_commonLength hm
    refine ⟨?_, hn⟩
    rw [hm, rows, List.length_zipWith, length_stretch hrows.1, length_stretch hrows.2, Nat.min_self]
  · cases h

theorem combine?_of_commonLength (hr : commonLength a.rows b.rows = some r)
    (hc : commonLength a.cols b.cols = some c) : ∃ g, combine? f a b = some g ∧ g.Shaped r c := by
  have hsome : ∃ g, combine? f a b = some g := by
    unfold combine?
    split
    · exact ⟨_, rfl⟩
    · rename_i hnone
      exact absurd hc (hnone r c hr)
  obtain ⟨g, hg⟩ := hsome
  obtain ⟨hrows, hcols⟩ := shaped_combine? hg
  rw [hr, Option.some.injEq] at hrows
  rw [hc, Option.some.injEq] at hcols
  exact ⟨g, hg, hrows.symm, hcols.symm⟩

theorem stretch_of_length_eq {xs : List α} {n : ℕ} (h : xs.length = n) : stretch n xs = xs := by
  subst h
  match xs with
  | [] => rfl
  | [x] => rfl
  | x :: y :: rest => rfl

theorem lines_combine? {g : Grid γ} (h : combine? f a b = some g) : g.lines =
    List.zipWith (fun s t => List.zipWith f (stretch g.cols s) (stretch g.cols t))
      (stretch g.rows a.lines) (stretch g.rows b.lines) := by
  have hrows := (shaped_combine? h).1
  unfold combine? at h
  split at h
  · rename_i m n hm hn
    rw [hm, Option.some.injEq] at hrows
    rw [← hrows]
    cases h
    rfl
  · cases h

/-- Entries of tables of one shape are combined as they are. -/
theorem get?_combine? {g : Grid γ} (ha : a.Shaped r c) (hb : b.Shaped r c)
    (h : combine? f a b = some g) (i j : ℕ) :
    g.get? i j = Option.map₂ f (a.get? i j) (b.get? i j) := by
  obtain ⟨g', hg', hshape⟩ := combine?_of_commonLength (f := f) (r := r) (c := c)
    (by rw [ha.rows_eq, hb.rows_eq, commonLength_self])
    (by rw [ha.cols_eq, hb.cols_eq, commonLength_self])
  obtain rfl : g' = g := Option.some.inj (hg'.symm.trans h)
  have hlines := lines_combine? h
  rw [hshape.rows_eq, hshape.cols_eq, stretch_of_length_eq ha.rows_eq,
    stretch_of_length_eq hb.rows_eq] at hlines
  rw [get?, get?, get?, hlines, List.getElem?_zipWith]
  rcases hs : a.lines[i]? with _ | s
  · simp
  rcases ht : b.lines[i]? with _ | t
  · simp
  have hls : s.length = c := ha.cols_eq ▸ a.width_eq s (List.mem_of_getElem? hs)
  have hlt : t.length = c := hb.cols_eq ▸ b.width_eq t (List.mem_of_getElem? ht)
  simp only [Option.bind_some, stretch_of_length_eq hls, stretch_of_length_eq hlt,
    List.getElem?_zipWith]
  cases s[j]? <;> cases t[j]? <;> rfl

theorem combine?_eq_none (h : commonLength a.cols b.cols = none) : combine? f a b = none := by
  unfold combine?
  split
  · rename_i hcols
    rw [h] at hcols
    cases hcols
  · rfl

/-- Entries of a combined table come from entries of both. -/
theorem exists_of_mem_combine? {g : Grid γ} (h : combine? f a b = some g) {line : List γ}
    (hline : line ∈ g.lines) {z : γ} (hz : z ∈ line) : ∃ x y, z = f x y := by
  unfold combine? at h
  split at h
  · cases h
    obtain ⟨i, hi, rfl⟩ := List.mem_iff_getElem.1 hline
    obtain ⟨j, hj, rfl⟩ := List.mem_iff_getElem.1 hz
    simp only [List.getElem_zipWith]
    exact ⟨_, _, rfl⟩
  · cases h

theorem Shaped.combine? (ha : a.Shaped r c) (hb : b.Shaped r c) :
    ∃ g, Grid.combine? f a b = some g ∧ g.Shaped r c :=
  combine?_of_commonLength (by rw [ha.rows_eq, hb.rows_eq, commonLength_self])
    (by rw [ha.cols_eq, hb.cols_eq, commonLength_self])

theorem shaped_update? {f : α → β → α} {g : Grid α} (h : update? f a b = some g) :
    g.Shaped a.rows a.cols := by
  have hshape := (Option.filter_eq_some_iff.1 h).2
  rw [Bool.and_eq_true, beq_iff_eq, beq_iff_eq] at hshape
  exact ⟨hshape.1, hshape.2⟩

theorem Shaped.update? {f : α → β → α} (ha : a.Shaped r c) (hb : b.Shaped r c) :
    ∃ g, Grid.update? f a b = some g ∧ g.Shaped r c := by
  obtain ⟨g, hg, hs⟩ := Shaped.combine? (f := f) ha hb
  refine ⟨g, ?_, hs⟩
  rw [Grid.update?, Option.filter_eq_some_iff]
  exact ⟨hg, by simp [ha.rows_eq, ha.cols_eq, hs.rows_eq, hs.cols_eq]⟩

theorem Shaped.map {g : Grid α} (h : g.Shaped r c) (f : α → β) : (g.map f).Shaped r c :=
  ⟨(rows_map f g).trans h.rows_eq, h.cols_eq⟩

@[simp] theorem rows_mapLines (g : Grid α) (c : ℕ) (f : List α → List β)
    (h : ∀ line, line.length = g.cols → (f line).length = c) : (g.mapLines c f h).rows = g.rows := by
  simp [mapLines, rows]

theorem rows_beside? {a b g : Grid α} (h : beside? a b = some g) : g.rows = a.rows := by
  unfold beside? at h
  split at h
  · rename_i hrows
    cases h
    rw [rows, rows] at hrows
    simp [rows, hrows]
  · cases h

theorem cols_beside? {a b g : Grid α} (h : beside? a b = some g) : g.cols = a.cols + b.cols := by
  unfold beside? at h
  split at h
  · cases h
    rfl
  · cases h

theorem Shaped.beside? {a b : Grid α} {d : ℕ} (ha : a.Shaped r c) (hb : b.Shaped r d) :
    ∃ g, Grid.beside? a b = some g ∧ g.Shaped r (c + d) := by
  have hrows : a.rows = b.rows := ha.rows_eq.trans hb.rows_eq.symm
  obtain ⟨g, hg⟩ : ∃ g, Grid.beside? a b = some g := ⟨_, if_pos hrows⟩
  exact ⟨g, hg, (rows_beside? hg).trans ha.rows_eq,
    (cols_beside? hg).trans (congrArg₂ (· + ·) ha.cols_eq hb.cols_eq)⟩

theorem rows_columns? {a g : Grid α} {lo hi : ℕ} (h : columns? a lo hi = some g) :
    g.rows = a.rows := by
  unfold columns? at h
  split at h
  · cases h
    exact rows_mapLines _ _ _ _
  · cases h

theorem Shaped.columns? {a : Grid α} {lo hi : ℕ} (ha : a.Shaped r c) (h : hi ≤ c) :
    ∃ g, Grid.columns? a lo hi = some g ∧ g.Shaped r (hi - lo) := by
  have hle : hi ≤ a.cols := ha.cols_eq.symm ▸ h
  refine ⟨_, if_pos hle, (rows_mapLines _ _ _ _).trans ha.rows_eq, ?_⟩
  change min hi a.cols - lo = hi - lo
  rw [Nat.min_eq_left hle]

theorem Shaped.stretchLines? {a : Grid α} (ha : a.Shaped r c) :
    ∃ g, a.stretchLines? r = some g ∧ g.Shaped r c := by
  have hrows : a.rows = r ∨ a.rows = 1 := Or.inl ha.rows_eq
  refine ⟨_, dif_pos hrows, ?_, ha.cols_eq⟩
  exact length_stretch hrows

theorem length_column? {a : Grid α} {j : ℕ} {l : List α} (h : a.column? j = some l) :
    l.length = a.rows := by
  unfold column? at h
  split at h
  · rename_i hj
    cases h
    have hall : ∀ cells ∈ a.lines, (cells[j]?).isSome := by
      intro cells hcells
      have hwidth := a.width_eq cells hcells
      simp [hwidth, hj]
    rw [rows]
    exact List.filterMap_length_eq_length.2 hall
  · cases h

theorem Shaped.column? {a : Grid α} {j : ℕ} (ha : a.Shaped r c) (hj : j < c) :
    ∃ l, a.column? j = some l ∧ l.length = r := by
  have hlt : j < a.cols := ha.cols_eq.symm ▸ hj
  obtain ⟨l, hl⟩ : ∃ l, a.column? j = some l := ⟨_, if_pos hlt⟩
  exact ⟨l, hl, (length_column? hl).trans ha.rows_eq⟩

theorem shaped_ofColumns [Zero α] (r : ℕ) (columns : List (List α)) :
    (ofColumns r columns).Shaped r columns.length := ⟨by simp [ofColumns, rows], rfl⟩

section Numbers

variable {α : Type} [Scalar α]

theorem shaped_zeros (r c : ℕ) : (zeros r c : Grid α).Shaped r c := ⟨rows_filled r c 0, rfl⟩

theorem rows_timesTransposed? {x w g : Grid α} (h : x.timesTransposed? w = some g) :
    g.rows = x.rows := by
  unfold timesTransposed? at h
  split at h
  · cases h
    exact rows_mapLines _ _ _ _
  · cases h

theorem cols_timesTransposed? {x w g : Grid α} (h : x.timesTransposed? w = some g) :
    g.cols = w.rows := by
  unfold timesTransposed? at h
  split at h
  · cases h
    rfl
  · cases h

theorem Shaped.timesTransposed? {x w : Grid α} {d : ℕ} (hx : x.Shaped r c) (hw : w.Shaped d c) :
    ∃ g, x.timesTransposed? w = some g ∧ g.Shaped r d :=
  ⟨_, if_pos (hx.cols_eq.trans hw.cols_eq.symm), (rows_mapLines _ _ _ _).trans hx.rows_eq,
    hw.rows_eq⟩

end Numbers

end Grid

end NeuralFlow
