import Mathlib
import NeuralFlow.Proofs.Aligned

/-! Permutations of nodes. What is listed by node is moved along, and so are tables with a line for each
node: they are aligned if every node is compared with its new name. -/

namespace NeuralFlow

structure Relabelling (n : ℕ) where
  perm : Equiv.Perm ℕ
  lt_iff : ∀ u, perm u < n ↔ u < n

namespace Relabelling

variable {n : ℕ} {α β γ : Type}

instance : CoeFun (Relabelling n) fun _ => ℕ → ℕ := ⟨fun π => π.perm⟩

variable (π : Relabelling n)

theorem injective : Function.Injective π := π.perm.injective

/-- Every node is the new name of a node. -/
theorem exists_eq {v : ℕ} (hv : v < n) : ∃ u < n, π u = v := by
  obtain ⟨u, rfl⟩ := π.perm.surjective v
  exact ⟨u, (π.lt_iff u).1 hv, rfl⟩

theorem range_perm : ((List.range n).map π).Perm (List.range n) := by
  rw [List.perm_ext_iff_of_nodup (List.nodup_range.map π.injective) List.nodup_range]
  intro v
  simp only [List.mem_map, List.mem_range]
  constructor
  · rintro ⟨u, hu, rfl⟩
    exact (π.lt_iff u).2 hu
  · exact fun hv => π.exists_eq hv

def ofPerm (σ : Equiv.Perm (Fin n)) : Relabelling n where
  perm := σ.extendDomain Fin.equivSubtype
  lt_iff u := by
    by_cases hu : u < n
    · rw [Equiv.Perm.extendDomain_apply_subtype σ Fin.equivSubtype hu]
      exact ⟨fun _ => hu, fun _ => (Fin.equivSubtype _).2⟩
    · rw [Equiv.Perm.extendDomain_apply_not_subtype σ Fin.equivSubtype hu]

theorem ofPerm_apply (σ : Equiv.Perm (Fin n)) (u : Fin n) : ofPerm σ u = σ u :=
  Equiv.Perm.extendDomain_apply_image σ Fin.equivSubtype u

/-- Two lists by node, where the second one has the values of the first one at the new names. -/
structure Moves (xs ys : List α) : Prop where
  length_left : xs.length = n
  length_right : ys.length = n
  getElem? : ∀ u < n, ys[π u]? = xs[u]?

theorem filterMap_getElem? {xs : List α} (h : xs.length = n) :
    (List.range n).filterMap (xs[·]?) = xs := by
  subst h
  have hsome : (List.range xs.length).map (xs[·]?) = xs.map some :=
    List.ext_getElem (by simp) fun i _ _ => by simp
  calc (List.range xs.length).filterMap (xs[·]?)
      = ((List.range xs.length).map (xs[·]?)).filterMap id := by rw [List.filterMap_map]; rfl
    _ = xs := by rw [hsome, List.filterMap_map]; simp

/-- Every list by node can be moved. -/
theorem exists_moves {xs : List α} (h : xs.length = n) : ∃ ys, π.Moves xs ys := by
  have hlt : ∀ v : Fin n, π.perm.symm v < xs.length := fun v => by
    rw [h, ← π.lt_iff, Equiv.apply_symm_apply]
    exact v.2
  refine ⟨List.ofFn fun v => xs.get ⟨π.perm.symm v, hlt v⟩, h, List.length_ofFn, fun u hu => ?_⟩
  have hu' : u < xs.length := h.symm ▸ hu
  simp [(π.lt_iff u).2 hu, hu']

/-- Moved is aligned along the new names. -/
theorem moves_eq : (π.Moves : List α → List α → Prop) = Aligned n fun u v => π u = v := by
  funext xs ys
  refine propext ⟨fun h => ⟨h.length_left, h.length_right, ?_⟩, fun h =>
    ⟨h.length_left, h.length_right, fun u hu => h.getElem? u _ hu ((π.lt_iff u).2 hu) rfl⟩⟩
  rintro u _ hu - rfl
  exact h.getElem? u hu

variable {π}

theorem moves_range {f g : ℕ → α} (h : ∀ u < n, g (π u) = f u) :
    π.Moves ((List.range n).map f) ((List.range n).map g) := by
  rw [moves_eq]
  refine .range ?_
  rintro u _ hu - rfl
  exact h u hu

theorem moves_replicate (x : α) : π.Moves (List.replicate n x) (List.replicate n x) := by
  rw [moves_eq]
  exact .replicate x

namespace Moves

variable {xs ys : List α} {xs' ys' : List β}

theorem getD (h : π.Moves xs ys) {u : ℕ} (hu : u < n) (x : α) :
    ys.getD (π u) x = xs.getD u x := by
  rw [List.getD_eq_getElem?_getD, List.getD_eq_getElem?_getD, h.getElem? u hu]

/-- The same values in another order. -/
theorem perm (h : π.Moves xs ys) : ys.Perm xs := by
  have hmoved : ((List.range n).map π).filterMap (ys[·]?) = (List.range n).filterMap (xs[·]?) := by
    rw [List.filterMap_map]
    exact List.filterMap_congr fun u hu => h.getElem? u (List.mem_range.1 hu)
  have hperm := π.range_perm.filterMap (ys[·]?)
  rw [hmoved, filterMap_getElem? h.length_left, filterMap_getElem? h.length_right] at hperm
  exact hperm.symm

theorem map (h : π.Moves xs ys) (f : α → β) : π.Moves (xs.map f) (ys.map f) := by
  rw [moves_eq] at h ⊢
  exact h.map f

theorem zipWith (h : π.Moves xs ys) (k : π.Moves xs' ys') (f : α → β → γ) :
    π.Moves (List.zipWith f xs xs') (List.zipWith f ys ys') := by
  rw [moves_eq] at h k ⊢
  exact h.zipWith k f

end Moves

/-! Tables with a line for each node. -/

structure MovesLines (π : Relabelling n) (x y : Grid α) : Prop where
  cols : x.cols = y.cols
  lines : π.Moves x.lines y.lines

theorem movesLines_eq (π : Relabelling n) :
    (π.MovesLines : Grid α → Grid α → Prop) = AlignedLines n fun u v => π u = v := by
  funext x y
  exact propext ⟨fun h => ⟨h.cols, π.moves_eq ▸ h.lines⟩, fun h => ⟨h.cols, π.moves_eq ▸ h.lines⟩⟩

namespace MovesLines

variable {x y : Grid α}

theorem rows_left (h : π.MovesLines x y) : x.rows = n := h.lines.length_left

theorem rows_right (h : π.MovesLines x y) : y.rows = n := h.lines.length_right

theorem entry [Zero α] (h : π.MovesLines x y) {u : ℕ} (hu : u < n) (j : ℕ) :
    y.entry (π u) j = x.entry u j := by
  rw [movesLines_eq] at h
  exact h.entry hu ((π.lt_iff u).2 hu) rfl j

/-- Columns that are moved make tables whose lines are moved. -/
theorem ofColumns [Zero α] {xs ys : List (List α)} (h : List.Forall₂ π.Moves xs ys) :
    π.MovesLines (Grid.ofColumns n xs) (Grid.ofColumns n ys) := by
  rw [moves_eq] at h
  rw [movesLines_eq]
  exact .ofColumns h

end MovesLines

theorem movesLines_zeros [Scalar α] (c : ℕ) :
    π.MovesLines (Grid.zeros n c : Grid α) (Grid.zeros n c) := by
  rw [movesLines_eq]
  exact .zeros c

end Relabelling

end NeuralFlow
