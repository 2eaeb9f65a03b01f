import Mathlib
import NeuralFlow.Flow
import NeuralFlow.Proofs.Hops

/-! Matrices that hold the same edges in different backings. Every operation takes matrices that are
alike to results that are alike, or fails on both. -/

namespace NeuralFlow

open EdgeMatrix LawfulBacking

variable {M N : Type → Type} [EdgeMatrix M] [LawfulBacking M] [EdgeMatrix N] [LawfulBacking N]
  {α : Type} [Scalar α]

structure Alike (a : M α) (b : N α) : Prop where
  square : Square a ∧ Square b
  cleared : Cleared a ∧ Cleared b
  nodes : numNodes a = numNodes b
  edges : edges a = edges b

namespace Alike

variable {a c : M α} {b d : N α}

theorem row (h : Alike a b) (u : ℕ) : EdgeMatrix.row a u = EdgeMatrix.row b u := by
  rw [EdgeMatrix.row, EdgeMatrix.row, h.edges]

theorem pattern (h : Alike a b) : EdgeMatrix.pattern a = EdgeMatrix.pattern b := by
  rw [EdgeMatrix.pattern, EdgeMatrix.pattern, h.edges]

theorem numEdges (h : Alike a b) : EdgeMatrix.numEdges a = EdgeMatrix.numEdges b := by
  rw [numEdges_eq h.square.1, numEdges_eq h.square.2, h.edges]

theorem sumEdges (h : Alike a b) (f : ℕ → ℕ → α → α) :
    EdgeMatrix.sumEdges a f = EdgeMatrix.sumEdges b f := by
  rw [EdgeMatrix.sumEdges, EdgeMatrix.sumEdges, h.edges]

theorem hasEdge (h : Alike a b) {u v : ℕ} (hu : u < numNodes a) (hv : v < numNodes a) :
    EdgeMatrix.hasEdge a u v = EdgeMatrix.hasEdge b u v := by
  rw [EdgeMatrix.hasEdge, EdgeMatrix.hasEdge, hasEdge?_eq h.square.1 hu hv,
    hasEdge?_eq h.square.2 (h.nodes ▸ hu) (h.nodes ▸ hv), h.pattern]

theorem get? (h : Alike a b) {u v : ℕ} (hu : u < numNodes a) (hv : v < numNodes a) :
    EdgeMatrix.get? a u v = EdgeMatrix.get? b u v := by
  by_cases hmem : (u, v) ∈ EdgeMatrix.pattern a
  · obtain ⟨e, he, hends⟩ := List.mem_map.1 hmem
    obtain ⟨rfl, rfl⟩ := Prod.mk.inj hends
    rw [get?_edge h.square.1 e he, get?_edge h.square.2 e (h.edges ▸ he)]
  · rw [get?_blank h.square.1 h.cleared.1 hu hv hmem,
      get?_blank h.square.2 h.cleared.2 (h.nodes ▸ hu) (h.nodes ▸ hv) (h.pattern ▸ hmem)]

theorem samePattern (h : Alike a b) (k : Alike c d) :
    EdgeMatrix.samePattern a c = EdgeMatrix.samePattern b d := by
  rw [Bool.eq_iff_iff, samePattern_iff h.square.1 k.square.1, samePattern_iff h.square.2 k.square.2,
    h.nodes, k.nodes, h.pattern, k.pattern]

theorem sameLayout (h : Alike a b) (k : Alike c d) :
    EdgeMatrix.sameLayout a c = EdgeMatrix.sameLayout b d := by
  rw [Bool.eq_iff_iff, sameLayout_iff h.square.1 k.square.1, sameLayout_iff h.square.2 k.square.2,
    h.nodes, k.nodes, h.pattern, k.pattern]

/-! New values. -/

theorem refill (h : Alike a b) {new : List α} (hn : new.length = (EdgeMatrix.edges a).length) :
    Alike (EdgeMatrix.refill a new) (EdgeMatrix.refill b new) where
  square := ⟨square_refill new h.square.1, square_refill new h.square.2⟩
  cleared := ⟨cleared_refill a new, cleared_refill b new⟩
  nodes := by rw [numNodes_refill, numNodes_refill, h.nodes]
  edges := by
    rw [edges_refill h.square.1 hn, edges_refill h.square.2 (h.edges ▸ hn), h.edges]

theorem overwrite (h : Alike a b) {new : List α} (hn : new.length = (EdgeMatrix.edges a).length) :
    Alike (EdgeMatrix.overwrite a new) (EdgeMatrix.overwrite b new) where
  square := ⟨square_overwrite new h.square.1, square_overwrite new h.square.2⟩
  cleared := ⟨cleared_overwrite new h.cleared.1, cleared_overwrite new h.cleared.2⟩
  nodes := by rw [numNodes_overwrite, numNodes_overwrite, h.nodes]
  edges := by
    rw [edges_overwrite h.square.1 hn, edges_overwrite h.square.2 (h.edges ▸ hn), h.edges]

/-- Functions that agree on the edges give new values that agree. -/
theorem withValues (h : Alike a b) {f g : ℕ → ℕ → α → α}
    (hfg : ∀ e ∈ EdgeMatrix.edges a, f e.src e.dst e.value = g e.src e.dst e.value) :
    Alike (EdgeMatrix.withValues a f) (EdgeMatrix.withValues b g) := by
  have hvalues : (EdgeMatrix.edges b).map (fun e => g e.src e.dst e.value) =
      (EdgeMatrix.edges a).map fun e => f e.src e.dst e.value := by
    rw [← h.edges]
    exact (List.map_congr_left hfg).symm
  rw [EdgeMatrix.withValues, EdgeMatrix.withValues, hvalues]
  exact h.refill (by simp)

theorem map (h : Alike a b) (f : α → α) : Alike (EdgeMatrix.map a f) (EdgeMatrix.map b f) :=
  h.withValues fun _ _ => rfl

theorem withValuesM (h : Alike a b) (f : ℕ → ℕ → α → Outcome α α) :
    Agree (fun a' b' => Alike a' b' ∧ numNodes a' = numNodes a)
      (EdgeMatrix.withValuesM a f) (EdgeMatrix.withValuesM b f) := by
  rw [EdgeMatrix.withValuesM, EdgeMatrix.withValuesM, ← h.edges]
  refine (Agree.self ensures_length_mapM).bind fun values values' hvalues => ?_
  obtain ⟨rfl, hlen⟩ := hvalues
  exact .ok ⟨h.refill hlen, numNodes_refill a values⟩

theorem mapRows (h : Alike a b) (f : ℕ → List ℕ → List α → List α) :
    Alike (EdgeMatrix.mapRows a f) (EdgeMatrix.mapRows b f) := by
  have hvalues : rowValues b f = rowValues a f := by
    simp only [rowValues, h.nodes, h.row]
  rw [mapRows_eq, mapRows_eq, hvalues]
  exact h.overwrite (length_rowValues h.square.1 f)

theorem reverse (h : Alike a b) : Alike (EdgeMatrix.reverse a) (EdgeMatrix.reverse b) := by
  refine h.withValues fun e he => ?_
  obtain ⟨hu, hv⟩ := ends_lt h.square.1 e he
  rw [h.get? hv hu]

theorem zipMap (h : Alike a b) (k : Alike c d) (f : α → α → α) :
    Agree Alike (EdgeMatrix.zipMap a c f) (EdgeMatrix.zipMap b d f) := by
  rw [EdgeMatrix.zipMap, EdgeMatrix.zipMap, h.sameLayout k, h.edges, k.edges]
  split_ifs with hsame
  · obtain ⟨-, hpat⟩ := (sameLayout_iff h.square.2 k.square.2).1 hsame
    have hlen := length_edges_eq hpat
    exact .ok (h.refill (by simp [h.edges, hlen]))
  · exact .error

theorem scaleRows (h : Alike a b) (factors : List α) :
    Agree Alike (EdgeMatrix.scaleRows a factors) (EdgeMatrix.scaleRows b factors) :=
  (h.withValuesM _).mono fun _ _ hab => hab.1

end Alike

/-- The same edges make matrices that are alike in both backings, or none. -/
theorem agree_ofEdges (n : ℕ) (es : List (Edge α)) :
    Agree (fun a b => numNodes a = n ∧ Alike a b) (ofEdges n es : Outcome α (M α))
      (ofEdges n es : Outcome α (N α)) := by
  by_cases hfit : ∀ e ∈ es, e.Fits n
  · obtain ⟨a, ha, hsa, hca, hna, hea⟩ := ofEdges_ok (M := M) hfit
    obtain ⟨b, hb, hsb, hcb, hnb, heb⟩ := ofEdges_ok (M := N) hfit
    rw [ha, hb]
    exact .ok ⟨hna, ⟨hsa, hsb⟩, ⟨hca, hcb⟩, hna.trans hnb.symm, hea.trans heb.symm⟩
  · obtain ⟨e, he⟩ := ofEdges_error (M := M) hfit
    obtain ⟨f, hf⟩ := ofEdges_error (M := N) hfit
    rw [he, hf]
    exact .error

/-! Hops. -/

def HopsAlike (n : ℕ) (s : HopSet M α) (t : HopSet N α) : Prop :=
  List.Forall₂ (fun hop hop' => numNodes hop = n ∧ Alike hop hop') s.hops t.hops

theorem HopsAlike.size {n : ℕ} {s : HopSet M α} {t : HopSet N α} (h : HopsAlike n s t) :
    s.size = t.size := h.length_eq

theorem HopsAlike.numNodes {n : ℕ} {s : HopSet M α} {t : HopSet N α} (h : HopsAlike n s t) :
    s.numNodes = t.numNodes := by
  obtain ⟨hops⟩ := s
  obtain ⟨hops'⟩ := t
  unfold HopsAlike at h
  cases h with
  | nil => rfl
  | cons hab _ => exact hab.2.nodes

theorem isIdentity_eq {a : M α} {b : N α} (h : Alike a b) :
    HopSet.isIdentity a = HopSet.isIdentity b := by
  have hall : (List.range (numNodes a)).all (fun i => EdgeMatrix.hasEdge a i i) =
      (List.range (numNodes a)).all fun i => EdgeMatrix.hasEdge b i i := by
    rw [Bool.eq_iff_iff, List.all_eq_true, List.all_eq_true]
    refine forall₂_congr fun i hi => ?_
    rw [h.hasEdge (List.mem_range.1 hi) (List.mem_range.1 hi)]
  rw [HopSet.isIdentity, HopSet.isIdentity, h.numEdges, hall, h.nodes]

theorem map_numNodes_eq {hops : List (M α)} {hops' : List (N α)}
    (h : List.Forall₂ Alike hops hops') : hops.map numNodes = hops'.map numNodes := by
  induction h with
  | nil => rfl
  | cons hab _ ih => rw [List.map_cons, List.map_cons, hab.nodes, ih]

omit [LawfulBacking M] [Scalar α] in
theorem find?_eq_none_iff (n : ℕ) (hops : List (M α)) :
    hops.find? (fun hop => numNodes hop != n) = none ↔ ∀ k ∈ hops.map numNodes, k = n := by
  simp

theorem agree_ofHops {hops : List (M α)} {hops' : List (N α)} (h : List.Forall₂ Alike hops hops') :
    Agree (fun s t => HopsAlike s.numNodes s t) (HopSet.ofHops hops) (HopSet.ofHops hops') := by
  have hnodes := map_numNodes_eq h
  cases h with
  | nil => exact .error
  | @cons first first' rest rest' hab hrest =>
    simp only [HopSet.ofHops, isIdentity_eq hab]
    split_ifs
    · exact .error
    · have hleft := find?_eq_none_iff (numNodes first) (first :: rest)
      have hright := find?_eq_none_iff (numNodes first') (first' :: rest')
      rw [← hnodes, ← hab.nodes] at hright
      by_cases hall : ∀ k ∈ (first :: rest).map numNodes, k = numNodes first
      · rw [hleft.2 hall, ← hab.nodes, hright.2 hall]
        refine .ok ?_
        refine (List.forall₂_and_left _ _).2 ⟨?_, .cons hab hrest⟩
        exact fun hop hmem => hall _ (List.mem_map_of_mem hmem)
      · obtain ⟨hop, hhop⟩ := Option.ne_none_iff_exists'.1 (mt hleft.1 hall)
        obtain ⟨hop', hhop'⟩ := Option.ne_none_iff_exists'.1 (mt hright.1 hall)
        rw [hhop, ← hab.nodes, hhop']
        exact .error

theorem agree_build (rule : HopRule) {a : M α} {b : N α} (h : Alike a b) :
    Agree (fun s t => HopsAlike s.numNodes s t) (rule.build a) (rule.build b) := by
  have hsucc : HopRule.successors a = HopRule.successors b := by
    simp only [HopRule.successors, h.nodes, h.row]
  simp only [HopRule.build, hsucc, h.nodes]
  refine (agree_ofEdges _ _).bind fun first first' hfirst => ?_
  refine (Agree.mapM_same _ fun es => agree_ofEdges (numNodes b) es).bind
    fun rest rest' hrest => .ok ?_
  change List.Forall₂ (fun hop hop' => numNodes hop = numNodes first ∧ Alike hop hop') _ _
  rw [hfirst.1]
  exact .cons hfirst hrest

section Exact

variable {M N : Type → Type} [EdgeMatrix M] [ExactBacking M] [EdgeMatrix N] [ExactBacking N]
  {K : Type} [ExactScalar K] {a : M K} {b : N K}

theorem Alike.rowSums (h : Alike a b) : EdgeMatrix.rowSums a = EdgeMatrix.rowSums b := by
  rw [ExactBacking.rowSums_eq h.square.1 h.cleared.1, ExactBacking.rowSums_eq h.square.2 h.cleared.2,
    h.nodes]
  exact List.map_congr_left fun u _ => by rw [outflow, outflow, h.row]

theorem Alike.colSums (h : Alike a b) : EdgeMatrix.colSums a = EdgeMatrix.colSums b := by
  rw [ExactBacking.colSums_eq h.square.1 h.cleared.1, ExactBacking.colSums_eq h.square.2 h.cleared.2,
    h.nodes]
  exact List.map_congr_left fun v _ => by rw [inflow, inflow, h.edges]

theorem Alike.times (h : Alike a b) {x : Grid K} (hx : x.rows = numNodes a) :
    Agree Eq (EdgeMatrix.times a x) (EdgeMatrix.times b x) := by
  have hx' : x.rows = numNodes b := hx.trans h.nodes
  obtain ⟨y, hy, -, hcols⟩ := times_shape h.square.1 hx
  obtain ⟨z, hz, -, hcols'⟩ := times_shape h.square.2 hx'
  have hlines : y.lines = z.lines := by
    rw [ExactBacking.times_eq h.square.1 h.cleared.1 hx hy,
      ExactBacking.times_eq h.square.2 h.cleared.2 hx' hz, productLines, productLines, h.nodes]
    simp only [h.row]
  rw [hy, hz]
  exact .ok (Grid.ext_lines (hcols.trans hcols'.symm) hlines)

end Exact

end NeuralFlow
