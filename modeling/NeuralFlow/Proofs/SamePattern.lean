import Mathlib
import NeuralFlow.Proofs.WellFormed

/-! Patterns are compared exactly. Counting the edges and looking those of one matrix up in the other
tells whether the two have the same edges; visiting two matrices side by side compares what is stored,
and since a layout is known by its edges, both tests say the same. -/

namespace NeuralFlow

open EdgeMatrix LawfulBacking

section Comparison

variable {M : Type → Type} [EdgeMatrix M] [LawfulBacking M] {α : Type} [Scalar α] {a b c : M α}

structure EqualEdges (a b : M α) : Prop where
  nodes : numNodes a = numNodes b
  edges : ∀ u v, (u, v) ∈ pattern a ↔ (u, v) ∈ pattern b

omit [LawfulBacking M] [Scalar α] in
theorem EqualEdges.symm (h : EqualEdges a b) : EqualEdges b a :=
  ⟨h.nodes.symm, fun u v => (h.edges u v).symm⟩

omit [LawfulBacking M] [Scalar α] in
theorem EqualEdges.trans (h : EqualEdges a b) (k : EqualEdges b c) : EqualEdges a c :=
  ⟨h.nodes.trans k.nodes, fun u v => (h.edges u v).trans (k.edges u v)⟩

omit [Scalar α] in
/-- A set of edges has one row order. -/
theorem equalEdges_iff (ha : Square a) (hb : Square b) :
    EqualEdges a b ↔ numNodes a = numNodes b ∧ pattern a = pattern b :=
  ⟨fun h => ⟨h.nodes, (rowOrdered ha).ends_eq (rowOrdered hb) fun p => h.edges p.1 p.2⟩,
    fun h => ⟨h.1, fun u v => by rw [h.2]⟩⟩

omit [Scalar α] in
theorem samePattern_iff_equalEdges (ha : Square a) (hb : Square b) :
    samePattern a b = true ↔ EqualEdges a b := by
  rw [samePattern_iff ha hb, equalEdges_iff ha hb]

omit [Scalar α] in
theorem samePattern_iff_sameLayout (ha : Square a) (hb : Square b) :
    samePattern a b = true ↔ sameLayout a b = true := by
  rw [samePattern_iff ha hb, sameLayout_iff ha hb]

omit [LawfulBacking M] in
/-- A visit side by side succeeds on one layout and on nothing else. -/
theorem zipMap_ok_iff (f : α → α → α) : (∃ d, zipMap a b f = .ok d) ↔ sameLayout a b = true := by
  unfold zipMap
  split_ifs with h <;> simp [h]

omit [LawfulBacking M] in
theorem zipped_ok_iff {σ : Type} (f : α → α → StateM σ α) (history : History σ α) :
    (∃ d, (zipped f a b history).1 = .ok d) ↔ sameLayout a b = true := by
  unfold zipped zipMapM
  split_ifs with h
  · exact iff_of_true ⟨_, rfl⟩ h
  · exact iff_of_false nofun h

structure PatternsCompared (a b : M α) : Prop where
  samePattern_iff : samePattern a b = true ↔ EqualEdges a b
  samePattern_comm : samePattern a b = samePattern b a
  zipMap_iff : ∀ f, samePattern a b = true ↔ ∃ d, zipMap a b f = .ok d
  /-- Also if the function carries a state from call to call. -/
  zipped_iff : ∀ {σ : Type} (f : α → α → StateM σ α) (history : History σ α),
    samePattern a b = true ↔ ∃ d, (zipped f a b history).1 = .ok d

theorem patternsCompared (ha : Square a) (hb : Square b) : PatternsCompared a b where
  samePattern_iff := samePattern_iff_equalEdges ha hb
  samePattern_comm := by
    rw [Bool.eq_iff_iff, samePattern_iff_equalEdges ha hb, samePattern_iff_equalEdges hb ha]
    exact ⟨EqualEdges.symm, EqualEdges.symm⟩
  zipMap_iff f := by rw [zipMap_ok_iff, samePattern_iff_sameLayout ha hb]
  zipped_iff f history := by rw [zipped_ok_iff, samePattern_iff_sameLayout ha hb]

omit [Scalar α] in
theorem samePattern_trans (ha : Square a) (hb : Square b) (hc : Square c)
    (hab : samePattern a b = true) (hbc : samePattern b c = true) : samePattern a c = true :=
  (samePattern_iff_equalEdges ha hc).2 <|
    ((samePattern_iff_equalEdges ha hb).1 hab).trans ((samePattern_iff_equalEdges hb hc).1 hbc)

end Comparison

/-- Row pointers and columns are all that the layout of compressed rows consists of. -/
theorem SparseMatrix.samePattern_iff_stored {α : Type} {a b : SparseMatrix α} (ha : Square a)
    (hb : Square b) :
    samePattern a b = true ↔ a.rowPtr = b.rowPtr ∧ a.colIndices = b.colIndices := by
  rw [samePattern_iff_sameLayout ha hb]
  change (a.rowPtr == b.rowPtr && a.colIndices == b.colIndices) = true ↔ _
  rw [Bool.and_eq_true, beq_iff_eq, beq_iff_eq]

theorem DenseMatrix.samePattern_iff_stored {α : Type} {a b : DenseMatrix α} (ha : Square a)
    (hb : Square b) : samePattern a b = true ↔ a.mask = b.mask := by
  rw [samePattern_iff_sameLayout ha hb]
  exact beq_iff_eq

/-! Matrices from any sources by any operations. -/

theorem DenseMatrix.Source.ensures_square {α : Type} [Scalar α] (s : DenseMatrix.Source α) :
    Ensures s.build LawfulBacking.Square := by
  cases s with
  | edges n es => exact (ensures_ofEdges n es).mono fun a h => h.1
  | adjacency table => exact square_ofAdjacency table
  | parts values mask => exact square_ofParts values mask

theorem Derivation.ensures_square {M : Type → Type} [EdgeMatrix M] [LawfulBacking M]
    {β σ α : Type} [Scalar α] {build : β → Outcome α (M α)} (hbuild : ∀ b, Ensures (build b) Square)
    (d : Derivation β σ α) (history : History σ α) : Ensures (d.run build history).1 Square :=
  (d.ensures_run (fun _ h => h) (fun _ _ h hab => hab.square h) hbuild history).mono fun _ h => h.1

/-- Matrices of one backing that come about by any operations from any sources have the same pattern if
and only if they have the same nodes and edges, if and only if they can be visited side by side, if and
only if their row pointers and columns, or their marks, are equal. -/
theorem samePattern_exact {σ α : Type} [Scalar α] (h₁ h₂ h₃ : History σ α) :
    (∀ d₁ d₂ d₃ : Derivation (SparseMatrix.Source α) σ α,
      Ensures (d₁.run SparseMatrix.Source.build h₁).1 fun a =>
      Ensures (d₂.run SparseMatrix.Source.build h₂).1 fun b =>
      Ensures (d₃.run SparseMatrix.Source.build h₃).1 fun c =>
        PatternsCompared a b ∧
        (samePattern a b = true ↔ a.rowPtr = b.rowPtr ∧ a.colIndices = b.colIndices) ∧
        (samePattern a b = true → samePattern b c = true → samePattern a c = true)) ∧
    ∀ d₁ d₂ d₃ : Derivation (DenseMatrix.Source α) σ α,
      Ensures (d₁.run DenseMatrix.Source.build h₁).1 fun a =>
      Ensures (d₂.run DenseMatrix.Source.build h₂).1 fun b =>
      Ensures (d₃.run DenseMatrix.Source.build h₃).1 fun c =>
        PatternsCompared a b ∧ (samePattern a b = true ↔ a.mask = b.mask) ∧
        (samePattern a b = true → samePattern b c = true → samePattern a c = true) := by
  constructor
  · intro d₁ d₂ d₃ a ha b hb c hc
    have hsquare := fun d h =>
      Derivation.ensures_square (σ := σ) (SparseMatrix.Source.ensures_build (α := α)) d h
    have sa := hsquare d₁ h₁ a ha
    have sb := hsquare d₂ h₂ b hb
    have sc := hsquare d₃ h₃ c hc
    exact ⟨patternsCompared sa sb, SparseMatrix.samePattern_iff_stored sa sb,
      samePattern_trans sa sb sc⟩
  · intro d₁ d₂ d₃ a ha b hb c hc
    have hsquare := fun d h =>
      Derivation.ensures_square (σ := σ) (DenseMatrix.Source.ensures_square (α := α)) d h
    have sa := hsquare d₁ h₁ a ha
    have sb := hsquare d₂ h₂ b hb
    have sc := hsquare d₃ h₃ c hc
    exact ⟨patternsCompared sa sb, DenseMatrix.samePattern_iff_stored sa sb,
      samePattern_trans sa sb sc⟩

def mutualEdges (turned : Bool) (x y : ℝ) : Derivation (SparseMatrix.Source ℝ) Unit ℝ :=
  .source (.edges 2 (if turned then [⟨1, 0, x⟩, ⟨0, 1, y⟩] else [⟨0, 1, x⟩, ⟨1, 0, y⟩]))

/-- The order of the edges and their values do not matter, but the count alone decides nothing: two loops
are as many edges. -/
theorem samePattern_exact_mutual : ∃ a b c : SparseMatrix ℝ,
    ((mutualEdges false 5 7).run SparseMatrix.Source.build ((), [])).1 = .ok a ∧
    ((Derivation.apply .reverse (mutualEdges true 3 2)).run SparseMatrix.Source.build ((), [])).1 = .ok b ∧
    ((Derivation.source (.identity 2) : Derivation (SparseMatrix.Source ℝ) Unit ℝ).run
      SparseMatrix.Source.build ((), [])).1 = .ok c ∧
    samePattern a b = true ∧ (∀ f, ∃ d, zipMap a b f = .ok d) ∧
    numEdges a = numEdges c ∧ samePattern a c = false ∧ ∀ f, ¬ ∃ d, zipMap a c f = .ok d := by
  obtain ⟨a, ha, -, -, hna, hea⟩ := ofEdges_ok (M := SparseMatrix)
    (show ∀ e ∈ ([⟨0, 1, 5⟩, ⟨1, 0, 7⟩] : List (Edge ℝ)), e.Fits 2 by simp [Edge.Fits])
  obtain ⟨b, hb, sb, -, hnb, heb⟩ := ofEdges_ok (M := SparseMatrix)
    (show ∀ e ∈ ([⟨1, 0, 3⟩, ⟨0, 1, 2⟩] : List (Edge ℝ)), e.Fits 2 by simp [Edge.Fits])
  have hpa : pattern a = [(0, 1), (1, 0)] := by rw [pattern, hea]; rfl
  have hpb : pattern (reverse b) = [(0, 1), (1, 0)] := by
    rw [reverse, (onPattern_withValues sb _).pattern, pattern, heb]
    rfl
  have hnb' : numNodes (reverse b) = 2 := (numNodes_withValues b _).trans hnb
  have hturned : ((Derivation.apply .reverse (mutualEdges true 3 2)).run SparseMatrix.Source.build
      ((), [])).1 = .ok (reverse b) := by
    change (Traced.andThen ((EdgeMatrix.ofEdges 2 [⟨1, 0, 3⟩, ⟨0, 1, 2⟩] : Outcome ℝ (SparseMatrix ℝ)),
      ((), ([] : List (Call ℝ)))) _).1 = _
    rw [hb]
    rfl
  have hexact := (samePattern_exact (σ := Unit) (α := ℝ) ((), []) ((), []) ((), [])).1
  have hab := (hexact (mutualEdges false 5 7) _ (.source (.identity 2)) a ha _ hturned _ rfl).1
  have hac := (hexact (mutualEdges false 5 7) (.source (.identity 2)) (.source (.identity 2)) a ha _ rfl
    _ rfl).1
  have hsame : samePattern a (reverse b) = true := hab.samePattern_iff.2
    ⟨hna.trans hnb'.symm, fun u v => by rw [hpa, hpb]⟩
  have hother : ¬ samePattern a (SparseMatrix.identity 2) = true := fun h => by
    have hloop := (hac.samePattern_iff.1 h).edges 0 0
    rw [hpa] at hloop
    exact absurd (hloop.2 (List.mem_cons_self ..)) (by decide)
  refine ⟨a, reverse b, SparseMatrix.identity 2, ha, hturned, rfl, hsame,
    fun f => (hab.zipMap_iff f).1 hsame, ?_, Bool.not_eq_true _ ▸ hother,
    fun f h => hother ((hac.zipMap_iff f).2 h)⟩
  have sa := (ensures_ofEdges 2 _ _ ha).1
  rw [numEdges_eq sa, ← length_pattern, hpa]
  rfl

end NeuralFlow
