import Mathlib
import NeuralFlow.Proofs.Backing
import NeuralFlow.Proofs.Relabelling

/-! Matrices on relabelled nodes. Their edges are listed in another order, so nothing may depend on the
order: rows are rows up to order, sums are sums, and new values that do not look at names are the
same at the new names. -/

namespace NeuralFlow

open EdgeMatrix LawfulBacking

variable {n : ℕ} {π : Relabelling n} {M : Type → Type} [EdgeMatrix M] [LawfulBacking M] {α : Type}

def Edge.relabel (π : Relabelling n) (e : Edge α) : Edge α := ⟨π e.src, π e.dst, e.value⟩

theorem Edge.relabel_injective (π : Relabelling n) :
    Function.Injective (Edge.relabel π : Edge α → Edge α) := by
  rintro ⟨u, v, x⟩ ⟨u', v', x'⟩ h
  simp only [Edge.relabel, Edge.mk.injEq, π.injective.eq_iff] at h
  obtain ⟨rfl, rfl, rfl⟩ := h
  rfl

structure Relabelled (π : Relabelling n) (a b : M α) : Prop where
  square : Square a ∧ Square b
  nodes : numNodes a = n ∧ numNodes b = n
  edges : (edges b).Perm ((edges a).map (Edge.relabel π))

namespace Relabelled

variable {a b c d : M α}

theorem nodup_edges {a : M α} (h : Square a) : (EdgeMatrix.edges a).Nodup :=
  (rowOrdered h).ends_nodup.of_map _

/-- The edges are the same if they are found at the new names. -/
theorem of_mem_iff (hs : Square a ∧ Square b) (hn : numNodes a = n ∧ numNodes b = n)
    (h : ∀ e, e.relabel π ∈ EdgeMatrix.edges b ↔ e ∈ EdgeMatrix.edges a) : Relabelled π a b where
  square := hs
  nodes := hn
  edges := by
    have hnodup := (nodup_edges hs.1).map (Edge.relabel_injective π)
    rw [List.perm_ext_iff_of_nodup (nodup_edges hs.2) hnodup]
    rintro ⟨u, v, x⟩
    rw [List.mem_map]
    constructor
    · intro he
      obtain ⟨hu, hv⟩ := ends_lt hs.2 _ he
      rw [hn.2] at hu hv
      obtain ⟨u, -, rfl⟩ := π.exists_eq hu
      obtain ⟨v, -, rfl⟩ := π.exists_eq hv
      exact ⟨⟨u, v, x⟩, (h ⟨u, v, x⟩).1 he, rfl⟩
    · rintro ⟨e, he, heq⟩
      exact heq ▸ (h e).2 he

/-- What is moved has an entry for each node. -/
theorem lengths (h : Relabelled π a b) {β : Type} {xs ys : List β} (k : π.Moves xs ys) :
    xs.length = numNodes a ∧ ys.length = numNodes b :=
  ⟨k.length_left.trans h.nodes.1.symm, k.length_right.trans h.nodes.2.symm⟩

theorem mem_edges_iff (h : Relabelled π a b) (e : Edge α) :
    e.relabel π ∈ EdgeMatrix.edges b ↔ e ∈ EdgeMatrix.edges a := by
  rw [h.edges.mem_iff]
  exact List.mem_map_of_injective (Edge.relabel_injective π)

theorem mem_pattern_iff (h : Relabelled π a b) (u v : ℕ) :
    (π u, π v) ∈ pattern b ↔ (u, v) ∈ pattern a := by
  rw [pattern, pattern, (h.edges.map _).mem_iff, List.map_map, List.mem_map, List.mem_map]
  simp only [Function.comp_apply, Edge.relabel, Prod.mk.injEq, π.injective.eq_iff]

theorem row (h : Relabelled π a b) (u : ℕ) :
    (EdgeMatrix.row b (π u)).Perm ((EdgeMatrix.row a u).map (Edge.relabel π)) := by
  have hfilter := h.edges.filter (·.src == π u)
  rw [List.filter_map] at hfilter
  have hsrc : ((fun e : Edge α => e.src == π u) ∘ Edge.relabel π) = fun e : Edge α => e.src == u := by
    funext e
    simp [Edge.relabel, π.injective.eq_iff]
  rwa [hsrc] at hfilter

/-- The values of a row, in some order. -/
theorem rowValues (h : Relabelled π a b) (u : ℕ) :
    ((EdgeMatrix.row b (π u)).map Edge.value).Perm ((EdgeMatrix.row a u).map Edge.value) := by
  have hmap := (h.row u).map Edge.value
  rwa [List.map_map] at hmap

/-- The patterns of two matrices are equal before relabelling if they are afterwards. -/
theorem pattern_eq_iff (h : Relabelled π a b) (k : Relabelled π c d) :
    pattern a = pattern c ↔ pattern b = pattern d := by
  have hiff : ∀ {a c : M α}, Square a → Square c →
      (pattern a = pattern c ↔ ∀ u v, (u, v) ∈ pattern a ↔ (u, v) ∈ pattern c) := fun ha hc =>
    ⟨fun heq u v => by rw [heq], fun hmem =>
      (rowOrdered ha).ends_eq (rowOrdered hc) fun p => hmem p.1 p.2⟩
  rw [hiff h.square.1 k.square.1, hiff h.square.2 k.square.2]
  constructor
  · intro hmem u v
    obtain ⟨u, rfl⟩ := π.perm.surjective u
    obtain ⟨v, rfl⟩ := π.perm.surjective v
    rw [h.mem_pattern_iff, k.mem_pattern_iff, hmem]
  · intro hmem u v
    rw [← h.mem_pattern_iff, ← k.mem_pattern_iff, hmem]

theorem samePattern (h : Relabelled π a b) (k : Relabelled π c d) :
    EdgeMatrix.samePattern a c = EdgeMatrix.samePattern b d := by
  rw [Bool.eq_iff_iff, samePattern_iff h.square.1 k.square.1, samePattern_iff h.square.2 k.square.2,
    h.nodes.1, h.nodes.2, k.nodes.1, k.nodes.2, h.pattern_eq_iff k]

theorem sameLayout (h : Relabelled π a b) (k : Relabelled π c d) :
    EdgeMatrix.sameLayout a c = EdgeMatrix.sameLayout b d := by
  rw [Bool.eq_iff_iff, sameLayout_iff h.square.1 k.square.1, sameLayout_iff h.square.2 k.square.2,
    h.nodes.1, h.nodes.2, k.nodes.1, k.nodes.2, h.pattern_eq_iff k]

theorem ends_lt_of_mem (h : Relabelled π a b) {e : Edge α} (he : e ∈ EdgeMatrix.edges a) :
    e.src < n ∧ e.dst < n := h.nodes.1 ▸ ends_lt h.square.1 e he

section Numbers

variable [Scalar α]

/-- The value of an edge is found at its new name. -/
theorem get?_of_mem (h : Relabelled π a b) {u v : ℕ} (huv : (u, v) ∈ pattern a) :
    EdgeMatrix.get? b (π u) (π v) = EdgeMatrix.get? a u v := by
  obtain ⟨e, he, hends⟩ := List.mem_map.1 huv
  obtain ⟨rfl, rfl⟩ := Prod.mk.inj hends
  exact (get?_edge h.square.2 _ ((h.mem_edges_iff e).2 he)).trans (get?_edge h.square.1 e he).symm

theorem get? (h : Relabelled π a b) (hc : Cleared a ∧ Cleared b) {u v : ℕ} (hu : u < n)
    (hv : v < n) : EdgeMatrix.get? b (π u) (π v) = EdgeMatrix.get? a u v := by
  by_cases huv : (u, v) ∈ pattern a
  · exact h.get?_of_mem huv
  · rw [get?_blank h.square.1 hc.1 (h.nodes.1 ▸ hu) (h.nodes.1 ▸ hv) huv,
      get?_blank h.square.2 hc.2 (h.nodes.2 ▸ (π.lt_iff u).2 hu) (h.nodes.2 ▸ (π.lt_iff v).2 hv)
        (mt (h.mem_pattern_iff u v).1 huv)]

end Numbers

end Relabelled

structure RelabelledFlow [Scalar α] (π : Relabelling n) (a b : M α) : Prop
    extends Relabelled π a b where
  cleared : Cleared a ∧ Cleared b

namespace Relabelled

variable [Scalar α] {a b c d : M α}

/-- New values from functions that give an edge the same value under its new name. -/
theorem withValues (h : Relabelled π a b) {f g : ℕ → ℕ → α → α}
    (hfg : ∀ e ∈ EdgeMatrix.edges a, g (π e.src) (π e.dst) e.value = f e.src e.dst e.value) :
    RelabelledFlow π (EdgeMatrix.withValues a f) (EdgeMatrix.withValues b g) where
  square := ⟨square_withValues h.square.1 f, square_withValues h.square.2 g⟩
  nodes := ⟨(numNodes_withValues a f).trans h.nodes.1, (numNodes_withValues b g).trans h.nodes.2⟩
  edges := by
    rw [edges_withValues h.square.1, edges_withValues h.square.2, List.map_map]
    refine (h.edges.map _).trans (.of_eq ?_)
    rw [List.map_map]
    refine List.map_congr_left fun e he => ?_
    simp only [Function.comp_apply, Edge.relabel, hfg e he]
  cleared := ⟨cleared_refill a _, cleared_refill b _⟩

theorem map (h : Relabelled π a b) (f : α → α) :
    RelabelledFlow π (EdgeMatrix.map a f) (EdgeMatrix.map b f) := h.withValues fun _ _ => rfl

/-- New values from what is listed for the ends of an edge. -/
theorem lookUpEnds {β γ : Type} (h : Relabelled π a b) {xs xs' : List β} {ys ys' : List γ}
    (hx : π.Moves xs xs') (hy : π.Moves ys ys') (f : β → γ → α) :
    Agree (RelabelledFlow π)
      (withValuesM a fun u v _ => do
        let x ← orFault .indexOutOfRange xs[u]?
        let y ← orFault .indexOutOfRange ys[v]?
        return f x y : Outcome α (M α))
      (withValuesM b fun u v _ => do
        let x ← orFault .indexOutOfRange xs'[u]?
        let y ← orFault .indexOutOfRange ys'[v]?
        return f x y : Outcome α (M α)) := by
  obtain ⟨hxs, hxs'⟩ := h.lengths hx
  obtain ⟨hys, hys'⟩ := h.lengths hy
  rw [lookUpEnds_ok h.square.1 hxs hys, lookUpEnds_ok h.square.2 hxs' hys']
  refine .ok (h.withValues fun e he => ?_)
  obtain ⟨hu, hv⟩ := h.ends_lt_of_mem he
  rw [atEnds, atEnds, hx.getElem? _ hu, hy.getElem? _ hv]

theorem sumEdges {K : Type} [ExactScalar K] {a b : M K} (h : Relabelled π a b)
    {f g : ℕ → ℕ → K → K}
    (hfg : ∀ e ∈ EdgeMatrix.edges a, g (π e.src) (π e.dst) e.value = f e.src e.dst e.value) :
    EdgeMatrix.sumEdges b g = EdgeMatrix.sumEdges a f := by
  rw [EdgeMatrix.sumEdges, EdgeMatrix.sumEdges, Exact.runningSum_eq_sum, Exact.runningSum_eq_sum]
  refine ((h.edges.map _).sum_eq).trans (congrArg List.sum ?_)
  rw [List.map_map]
  exact List.map_congr_left fun e he => hfg e he

end Relabelled

/-- A function of rows that gives every value its share, whatever order the row has. -/
def OrderFree (g : List α → List α) : Prop :=
  ∃ share : List α → α → α, (∀ zs, g zs = zs.map (share zs)) ∧
    ∀ zs ws, zs.Perm ws → share zs = share ws

theorem OrderFree.comp {f g : List α → List α} (hf : OrderFree f) (hg : OrderFree g) :
    OrderFree fun zs => g (f zs) := by
  obtain ⟨share, hshare, hperm⟩ := hf
  obtain ⟨share', hshare', hperm'⟩ := hg
  refine ⟨fun zs z => share' (f zs) (share zs z), fun zs => ?_, fun zs ws h => ?_⟩
  · calc g (f zs) = (f zs).map (share' (f zs)) := hshare' _
      _ = (zs.map (share zs)).map (share' (f zs)) := congrArg _ (hshare zs)
      _ = zs.map fun z => share' (f zs) (share zs z) := List.map_map
  · have hfree : (f zs).Perm (f ws) := by
      rw [hshare, hshare, hperm zs ws h]
      exact h.map _
    simp only [hperm' _ _ hfree, hperm zs ws h]

namespace EdgeMatrix

variable [Scalar α]

theorem edges_mapRows {a : M α} (h : Square a) {g : List α → List α} {share : List α → α → α}
    (hg : ∀ zs, g zs = zs.map (share zs)) :
    edges (mapRows a fun _ _ values => g values) =
      (edges a).map fun e => { e with value := share ((row a e.src).map Edge.value) e.value } := by
  have hlen : ∀ zs, (g zs).length = zs.length := fun zs => by rw [hg, List.length_map]
  have hrow : ∀ u, newValues a (fun _ _ values => g values) u =
      (row a u).map fun e => share ((row a e.src).map Edge.value) e.value := by
    intro u
    by_cases hne : row a u = []
    · simp [newValues, hne]
    · rw [newValues_of_length_eq hne fun _ values => hlen values, hg, List.map_map]
      refine List.map_congr_left fun e he => ?_
      rw [Function.comp_apply, (mem_row_iff.1 he).2]
  have hvalues : rowValues a (fun _ _ values => g values) =
      (edges a).map fun e => share ((row a e.src).map Edge.value) e.value := by
    rw [rowValues_eq, ← flatMap_row h, List.map_flatMap]
    exact List.flatMap_congr fun u _ => hrow u
  rw [mapRows_eq, edges_overwrite h (length_rowValues h _), hvalues, setValues_map]

end EdgeMatrix

namespace Relabelled

variable [Scalar α] {a b c d : M α}

theorem zipMap (h : Relabelled π a b) (k : Relabelled π c d) (f : α → α → α) :
    Agree (RelabelledFlow π) (EdgeMatrix.zipMap a c f) (EdgeMatrix.zipMap b d f) := by
  cases hsame : EdgeMatrix.sameLayout a c with
  | false =>
    have hsame' := (h.sameLayout k).symm.trans hsame
    rw [EdgeMatrix.zipMap, EdgeMatrix.zipMap, hsame, hsame']
    exact .error
  | true =>
    have hsame' := (h.sameLayout k).symm.trans hsame
    have hpattern := ((sameLayout_iff h.square.1 k.square.1).1 hsame).2
    rw [zipMap_ok h.square.1 k.square.1 hsame, zipMap_ok h.square.2 k.square.2 hsame']
    refine .ok (h.withValues fun e he => ?_)
    rw [k.get?_of_mem (hpattern ▸ mem_pattern_of_mem he)]

end Relabelled

namespace RelabelledFlow

variable [Scalar α] {a b : M α}

theorem reverse (h : RelabelledFlow π a b) :
    RelabelledFlow π (EdgeMatrix.reverse a) (EdgeMatrix.reverse b) := by
  refine h.withValues fun e he => ?_
  obtain ⟨hu, hv⟩ := h.ends_lt_of_mem he
  rw [h.get? h.cleared hv hu]

theorem mapRows (h : RelabelledFlow π a b) {g : List α → List α} (hg : OrderFree g) :
    RelabelledFlow π (EdgeMatrix.mapRows a fun _ _ values => g values)
      (EdgeMatrix.mapRows b fun _ _ values => g values) := by
  obtain ⟨share, hshare, hperm⟩ := hg
  have ha := onPattern_mapRows h.square.1 h.cleared.1 fun _ _ values => g values
  have hb := onPattern_mapRows h.square.2 h.cleared.2 fun _ _ values => g values
  refine ⟨⟨⟨ha.square, hb.square⟩, ⟨ha.nodes.trans h.nodes.1, hb.nodes.trans h.nodes.2⟩, ?_⟩,
    ha.cleared, hb.cleared⟩
  rw [edges_mapRows h.square.1 hshare, edges_mapRows h.square.2 hshare, List.map_map]
  refine (h.edges.map _).trans (.of_eq ?_)
  rw [List.map_map]
  refine List.map_congr_left fun e _ => ?_
  simp only [Function.comp_apply, Edge.relabel, hperm _ _ (h.rowValues e.src)]

end RelabelledFlow

/-! Sums. -/

section Exact

variable {M : Type → Type} [EdgeMatrix M] [ExactBacking M] {K : Type} [ExactScalar K] {a b : M K}

omit [ExactBacking M] in
theorem Relabelled.outflow [LawfulBacking M] (h : Relabelled π a b) (u : ℕ) :
    EdgeMatrix.outflow b (π u) = EdgeMatrix.outflow a u := (h.rowValues u).sum_eq

omit [ExactBacking M] in
theorem Relabelled.inflow [LawfulBacking M] (h : Relabelled π a b) (v : ℕ) :
    EdgeMatrix.inflow b (π v) = EdgeMatrix.inflow a v := by
  have hfilter := h.edges.filter (·.dst == π v)
  rw [List.filter_map] at hfilter
  have hdst : ((fun e : Edge K => e.dst == π v) ∘ Edge.relabel π) = fun e : Edge K => e.dst == v := by
    funext e
    simp [Edge.relabel, π.injective.eq_iff]
  have hsum := (hfilter.map Edge.value).sum_eq
  rwa [hdst, List.map_map] at hsum

namespace RelabelledFlow

theorem rowSums (h : RelabelledFlow π a b) :
    π.Moves (EdgeMatrix.rowSums a) (EdgeMatrix.rowSums b) := by
  rw [ExactBacking.rowSums_eq h.square.1 h.cleared.1, ExactBacking.rowSums_eq h.square.2 h.cleared.2,
    h.nodes.1, h.nodes.2]
  exact Relabelling.moves_range fun u _ => h.outflow u

theorem colSums (h : RelabelledFlow π a b) :
    π.Moves (EdgeMatrix.colSums a) (EdgeMatrix.colSums b) := by
  rw [ExactBacking.colSums_eq h.square.1 h.cleared.1, ExactBacking.colSums_eq h.square.2 h.cleared.2,
    h.nodes.1, h.nodes.2]
  exact Relabelling.moves_range fun v _ => h.inflow v

theorem times (h : RelabelledFlow π a b) {x y : Grid K} (hxy : π.MovesLines x y) :
    Agree π.MovesLines (EdgeMatrix.times a x) (EdgeMatrix.times b y) := by
  have hx : x.rows = numNodes a := hxy.rows_left.trans h.nodes.1.symm
  have hy : y.rows = numNodes b := hxy.rows_right.trans h.nodes.2.symm
  obtain ⟨p, hp, -, hcols⟩ := times_shape h.square.1 hx
  obtain ⟨q, hq, -, hcols'⟩ := times_shape h.square.2 hy
  rw [hp, hq]
  refine .ok ⟨by rw [hcols, hcols', hxy.cols], ?_⟩
  rw [ExactBacking.times_eq h.square.1 h.cleared.1 hx hp,
    ExactBacking.times_eq h.square.2 h.cleared.2 hy hq, productLines, productLines, h.nodes.1,
    h.nodes.2, hxy.cols]
  refine Relabelling.moves_range fun u _ => List.map_congr_left fun j _ => ?_
  refine (((h.row u).map _).sum_eq).trans (congrArg List.sum ?_)
  rw [List.map_map]
  refine List.map_congr_left fun e he => ?_
  have hdst := (h.ends_lt_of_mem (mem_row_iff.1 he).1).2
  simp only [Function.comp_apply, Edge.relabel, hxy.entry hdst]

end RelabelledFlow

end Exact

end NeuralFlow
