import NeuralFlow.Scalar

/-!
Rectangular tables. A `Grid` is a list of lines of one width; the width is kept even when there are
no lines. Entrywise operations repeat a side of length one to fit the other side, as columns of
weights and rows of offsets need it.
-/

namespace NeuralFlow

/-- A table whose lines all have the width `cols`. -/
structure Grid (α : Type) where
  cols : Nat
  lines : List (List α)
  width_eq : ∀ line ∈ lines, line.length = cols

/-- The common length of two sides of which one may have length one. -/
def commonLength (m n : Nat) : Option Nat :=
  if m = n then some m else if m = 1 then some n else if n = 1 then some m else none

/-- A list of length one repeated up to the length `n`; other lists stay as they are. -/
def stretch {α : Type} (n : Nat) : List α → List α
  | [x] => List.replicate n x
  | xs => xs

theorem length_stretch {α : Type} {n : Nat} {xs : List α} (h : xs.length = n ∨ xs.length = 1) :
    (stretch n xs).length = n := by
  match xs with
  | [] => simpa [stretch] using h
  | [x] => simp [stretch]
  | x :: y :: rest => simpa [stretch] using h

theorem eq_or_one_of_commonLength {m n k : Nat} (h : commonLength m n = some k) :
    (m = k ∨ m = 1) ∧ (n = k ∨ n = 1) := by
  unfold commonLength at h
  split at h
  · simp_all
  · split at h
    · simp_all
    · split at h <;> simp_all

/-- Two lists combined position by position, a list of length one standing for any length. -/
def combine {α β γ : Type} (f : α → β → γ) (xs : List α) (ys : List β) : Option (List γ) :=
  (commonLength xs.length ys.length).map fun n => List.zipWith f (stretch n xs) (stretch n ys)

/-- Lists of one length are combined as they are. -/
theorem combine_of_length_eq {α β γ : Type} (f : α → β → γ) {xs : List α} {ys : List β}
    (h : xs.length = ys.length) : combine f xs ys = some (List.zipWith f xs ys) := by
  match xs, ys with
  | [], [] => simp [combine, commonLength, stretch]
  | [x], [y] => simp [combine, commonLength, stretch]
  | x :: x' :: xs, y :: y' :: ys =>
    simp at h
    simp [combine, commonLength, stretch, h]

namespace Grid

variable {α β γ : Type}

def rows (g : Grid α) : Nat := g.lines.length

theorem ext_lines {a b : Grid α} (hc : a.cols = b.cols) (hl : a.lines = b.lines) : a = b := by
  cases a; cases b; simp_all

instance [DecidableEq α] : DecidableEq (Grid α) := fun a b =>
  decidable_of_iff (a.cols = b.cols ∧ a.lines = b.lines)
    ⟨fun h => ext_lines h.1 h.2, fun h => h ▸ ⟨rfl, rfl⟩⟩

def ofLines? (cols : Nat) (lines : List (List α)) : Option (Grid α) :=
  if h : ∀ line ∈ lines, line.length = cols then some ⟨cols, lines, h⟩ else none

def ofFn (rows cols : Nat) (f : Nat → Nat → α) : Grid α where
  cols := cols
  lines := (List.range rows).map fun i => (List.range cols).map (f i)
  width_eq := by simp

def filled (rows cols : Nat) (x : α) : Grid α where
  cols := cols
  lines := List.replicate rows (List.replicate cols x)
  width_eq line h := by simp [List.eq_of_mem_replicate h]

/-- The lines, each changed to a line of a new width. -/
def mapLines (g : Grid α) (cols : Nat) (f : List α → List β)
    (h : ∀ line, line.length = g.cols → (f line).length = cols) : Grid β where
  cols := cols
  lines := g.lines.map f
  width_eq := by
    simp only [List.forall_mem_map]
    exact fun line hl => h line (g.width_eq line hl)

def map (f : α → β) (g : Grid α) : Grid β := g.mapLines g.cols (List.map f) (by simp)

def get? (g : Grid α) (i j : Nat) : Option α := g.lines[i]?.bind (·[j]?)

def column? (g : Grid α) (j : Nat) : Option (List α) :=
  if j < g.cols then some (g.lines.filterMap (·[j]?)) else none

def toList (g : Grid α) : List α := g.lines.flatten

/-- The columns from `lo` up to `hi`, which is left out. -/
def columns (g : Grid α) (lo hi : Nat) : Grid α :=
  g.mapLines (min hi g.cols - lo) (fun line => (line.take hi).drop lo)
    (by intro line h; simp [h])

def set (g : Grid α) (i j : Nat) (x : α) : Grid α where
  cols := g.cols
  lines := g.lines.modify i (·.set j x)
  width_eq line h := by
    obtain ⟨k, hk, rfl⟩ := List.mem_iff_getElem.1 h
    rw [List.length_modify] at hk
    have hw := g.width_eq _ (List.getElem_mem hk)
    rw [List.getElem_modify]
    split <;> simp [hw]

def beside? (a b : Grid α) : Option (Grid α) :=
  if a.rows = b.rows then
    some {
      cols := a.cols + b.cols
      lines := List.zipWith (· ++ ·) a.lines b.lines
      width_eq := by
        intro line h
        obtain ⟨k, hk, rfl⟩ := List.mem_iff_getElem.1 h
        simp only [List.length_zipWith] at hk
        simp only [List.getElem_zipWith, List.length_append]
        rw [a.width_eq _ (List.getElem_mem _), b.width_eq _ (List.getElem_mem _)] }
  else none

/-- Two grids combined entry by entry, a side of length one standing for any length. -/
def combine? (f : α → β → γ) (a : Grid α) (b : Grid β) : Option (Grid γ) :=
  match commonLength a.rows b.rows, h : commonLength a.cols b.cols with
  | some rows, some cols =>
    some {
      cols := cols
      lines := List.zipWith (fun s t => List.zipWith f (stretch cols s) (stretch cols t))
        (stretch rows a.lines) (stretch rows b.lines)
      width_eq := by
        have hcols := eq_or_one_of_commonLength h
        have mem_stretch : ∀ {δ : Type} {n : Nat} {xs : List δ} {x : δ}, x ∈ stretch n xs → x ∈ xs := by
          intro δ n xs x hx
          match xs with
          | [] => simp [stretch] at hx
          | [y] => simp [List.eq_of_mem_replicate hx]
          | y :: z :: rest => simpa [stretch] using hx
        intro line hl
        obtain ⟨k, hk, rfl⟩ := List.mem_iff_getElem.1 hl
        simp only [List.getElem_zipWith, List.length_zipWith]
        rw [length_stretch, length_stretch, Nat.min_self]
        · rw [b.width_eq _ (mem_stretch (List.getElem_mem _))]; exact hcols.2
        · rw [a.width_eq _ (mem_stretch (List.getElem_mem _))]; exact hcols.1 }
  | _, _ => none

/-- The first grid with the entries of the second one worked in. It keeps its shape; the second one
has this shape or sides of length one. -/
def update? (f : α → β → α) (a : Grid α) (b : Grid β) : Option (Grid α) :=
  (combine? f a b).filter fun g => g.rows == a.rows && g.cols == a.cols

def ofLine (line : List α) : Grid α where
  cols := line.length
  lines := [line]
  width_eq := by simp

/-- The grid with the given columns, each cut or filled with zeros to the given length. -/
def ofColumns [Zero α] (rows : Nat) (columns : List (List α)) : Grid α where
  cols := columns.length
  lines := (List.range rows).map fun i => columns.map fun column => (column[i]?).getD 0
  width_eq := by simp

/-- The columns from `lo` up to `hi`, if the grid has them. -/
def columns? (g : Grid α) (lo hi : Nat) : Option (Grid α) :=
  if hi ≤ g.cols then some (g.columns lo hi) else none

/-- The lines, one of them standing for any number. -/
def stretchLines? (g : Grid α) (rows : Nat) : Option (Grid α) :=
  if h : g.rows = rows ∨ g.rows = 1 then
    some {
      cols := g.cols
      lines := stretch rows g.lines
      width_eq := fun line hl => g.width_eq line (by
        match hg : g.lines with
        | [] => simp [hg, stretch] at hl
        | [only] =>
          rw [hg] at hl
          simp [List.eq_of_mem_replicate hl]
        | a :: b :: rest => simpa [hg, stretch] using hl) }
  else none

section Numbers

variable [Scalar α]

def zeros (rows cols : Nat) : Grid α := filled rows cols 0

/-- The product with the transpose of `w`: line `i` and column `j` hold the product of line `i` of
the grid and line `j` of `w`. -/
def timesTransposed? (x w : Grid α) : Option (Grid α) :=
  if x.cols = w.cols then
    some <| x.mapLines w.rows
      (fun line => w.lines.map fun weights => Scalar.runningSum (List.zipWith (· * ·) line weights))
      (by simp [rows])
  else none

def times? (a b : Grid α) : Option (Grid α) :=
  if a.cols = b.rows then
    some <| a.mapLines b.cols
      (fun line => (List.range b.cols).map fun j =>
        Scalar.runningSum (List.zipWith (· * ·) line (b.lines.filterMap (·[j]?))))
      (by simp)
  else none

end Numbers

@[simp] theorem rows_map (f : α → β) (g : Grid α) : (g.map f).rows = g.rows := by
  simp [map, mapLines, rows]

@[simp] theorem cols_map (f : α → β) (g : Grid α) : (g.map f).cols = g.cols := rfl

@[simp] theorem rows_filled (r c : Nat) (x : α) : (filled r c x).rows = r := by
  simp [filled, rows]

@[simp] theorem cols_filled (r c : Nat) (x : α) : (filled r c x).cols = c := rfl

@[simp] theorem rows_set (g : Grid α) (i j : Nat) (x : α) : (g.set i j x).rows = g.rows := by
  simp [set, rows]

@[simp] theorem cols_set (g : Grid α) (i j : Nat) (x : α) : (g.set i j x).cols = g.cols := rfl

end Grid

end NeuralFlow
