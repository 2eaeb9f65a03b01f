import Mathlib
import NeuralFlow.Proofs.Acceptance
import NeuralFlow.Proofs.Relabelling.Matrix
import NeuralFlow.Proofs.Walks

/-! Relabelled instances. Walks go where they went before, so the hops of a relabelled graph are the
relabelled hops; and since the checks ask for sizes and signs only, they find nothing new. -/

namespace NeuralFlow

open EdgeMatrix LawfulBacking

section Graphs

variable {n : ℕ} {π : Relabelling n} {M : Type → Type} [EdgeMatrix M] [LawfulBacking M] {α : Type}
  {a b : M α}

theorem Relabelled.walk_iff (h : Relabelled π a b) {k u v : ℕ} :
    Walk b k (π u) (π v) ↔ Walk a k u v := by
  induction k generalizing v with
  | zero => rw [Walk.zero_iff, Walk.zero_iff, π.injective.eq_iff, h.nodes.1, h.nodes.2, π.lt_iff]
  | succ k ih =>
    rw [Walk.succ_iff, Walk.succ_iff]
    constructor
    · rintro ⟨w, hwalk, hedge⟩
      obtain ⟨w, rfl⟩ := π.perm.surjective w
      exact ⟨w, ih.1 hwalk, (h.mem_pattern_iff w v).1 hedge⟩
    · rintro ⟨w, hwalk, hedge⟩
      exact ⟨π w, ih.2 hwalk, (h.mem_pattern_iff w v).2 hedge⟩

theorem Relabelled.holds_iff (h : Relabelled π a b) (rule : HopRule) {k u v : ℕ} :
    rule.Holds b k (π u) (π v) ↔ rule.Holds a k u v := by
  unfold HopRule.Holds IsDistance
  simp only [h.walk_iff]

variable [Scalar α]

omit [LawfulBacking M] in
/-- A hop has an edge with one on it for each pair that belongs into it, and no other edges. -/
theorem HopRule.IsHop.mem_edges_iff [LawfulBacking M] {rule : HopRule} {k : ℕ} {hop : M α}
    (h : rule.IsHop a k hop) (e : Edge α) :
    e ∈ edges hop ↔ e.value = 1 ∧ rule.Holds a k e.src e.dst := by
  rw [← h.mem_pattern]
  constructor
  · exact fun he => ⟨h.ones e he, mem_pattern_of_mem he⟩
  · rintro ⟨hvalue, hends⟩
    obtain ⟨⟨u, v, x⟩, hd, hde⟩ := List.mem_map.1 hends
    obtain ⟨rfl, rfl⟩ := Prod.mk.inj hde
    obtain rfl : x = 1 := h.ones _ hd
    rw [← hvalue] at hd
    exact hd

theorem HopRule.IsHop.relabelled (h : Relabelled π a b) {rule : HopRule} {k : ℕ} {hop hop' : M α}
    (hhop : rule.IsHop a k hop) (hhop' : rule.IsHop b k hop') : Relabelled π hop hop' := by
  refine .of_mem_iff ⟨hhop.square, hhop'.square⟩
    ⟨hhop.nodes.trans h.nodes.1, hhop'.nodes.trans h.nodes.2⟩ fun e => ?_
  rw [hhop'.mem_edges_iff, hhop.mem_edges_iff]
  exact and_congr_right fun _ => h.holds_iff rule

/-- The hops of a relabelled graph are the relabelled hops of the graph. -/
theorem Relabelled.build (hone : Scalar.isFinite (1 : α) = true) (h : Relabelled π a b)
    (rule : HopRule) :
    Yields (rule.build a) fun s => Yields (rule.build b) fun t =>
      List.Forall₂ (Relabelled π) s.hops t.hops := by
  obtain ⟨s, hs, hsize, hhops⟩ := rule.build_isHop hone h.square.1
  obtain ⟨t, ht, hsize', hhops'⟩ := rule.build_isHop hone h.square.2
  have hlen : s.hops.length = t.hops.length := hsize.trans hsize'.symm
  refine ⟨s, hs, t, ht, List.forall₂_iff_get.2 ⟨hlen, fun i hi hi' => ?_⟩⟩
  exact (hhops i _ (List.getElem?_eq_getElem hi)).relabelled h
    (hhops' i _ (List.getElem?_eq_getElem hi'))

end Graphs

/-! Instances. -/

variable {n : ℕ} {π : Relabelling n} {M : Type → Type} [EdgeMatrix M] [LawfulBacking M] {K : Type}
  [ExactScalar K]

/-- Two instances, of which the second one is the first one relabelled. Capacities on other nodes than
those of the graph are never used, and nothing is asked of them. -/
structure InstancesRelabelled (π : Relabelling n) (i j : FlowInstance M K) : Prop where
  adjacency : Relabelled π i.adjacency j.adjacency
  demands : π.Moves i.demands j.demands
  hops : List.Forall₂ (Relabelled π) i.hops.hops j.hops.hops
  embeddings : π.MovesLines i.embeddings j.embeddings
  features : π.MovesLines i.features j.features
  capacities : Option.Rel (fun a b => numNodes a = n → Relabelled π a b) i.capacities j.capacities

structure FlowInstance.Built (rule : HopRule) (i : FlowInstance M K) : Prop where
  adjacency : Square i.adjacency
  hops : rule.build i.adjacency = .ok i.hops
  capacities : ∀ capacities, i.capacities = some capacities → Square capacities

theorem exists_relabelled (π : Relabelling n) {a : M K} (h : Square a) (hn : numNodes a = n) :
    ∃ b : M K, Relabelled π a b := by
  have hfit : ∀ e ∈ (edges a).map (Edge.relabel π), e.Fits n := by
    intro e he
    obtain ⟨d, hd, rfl⟩ := List.mem_map.1 he
    obtain ⟨hu, hv⟩ := ends_lt h d hd
    rw [hn] at hu hv
    exact ⟨(π.lt_iff _).2 hu, (π.lt_iff _).2 hv, rfl⟩
  obtain ⟨b, -, hsquare, -, hnodes, hedges⟩ := ofEdges_ok (M := M) hfit
  refine ⟨b, .of_mem_iff ⟨h, hsquare⟩ ⟨hn, hnodes⟩ fun e => ?_⟩
  rw [hedges, ← List.mem_map_of_injective (l := edges a) (Edge.relabel_injective π)]
  constructor
  · exact SparseMatrix.mem_of_mem_inRowOrder
  · intro he
    -- what is kept at the place of the edge is an edge of the list at that place, so the edge itself
    obtain ⟨d, hd, hends⟩ := SparseMatrix.exists_mem_inRowOrder he
    obtain ⟨d', hd', rfl⟩ := List.mem_map.1 (SparseMatrix.mem_of_mem_inRowOrder hd)
    rw [Edge.ends_eq_iff] at hends
    have hsame : d'.ends = e.ends := Edge.ends_eq_iff.2 ⟨π.injective hends.1, π.injective hends.2⟩
    have hmem : e ∈ edges a := (List.mem_map_of_injective (Edge.relabel_injective π)).1 he
    rwa [(rowOrdered h).ends_injective hd' hmem hsame] at hd

theorem exists_movesLines {β : Type} (π : Relabelling n) {x : Grid β} (h : x.rows = n) :
    ∃ y, π.MovesLines x y := by
  obtain ⟨lines, hlines⟩ := π.exists_moves h
  exact ⟨⟨x.cols, lines, fun line hline => x.width_eq line (hlines.perm.mem_iff.1 hline)⟩, rfl, hlines⟩

namespace InstancesRelabelled

variable {i j : FlowInstance M K} {c : Settings K}

omit [ExactScalar K] in
theorem numNodes (h : InstancesRelabelled π i j) : i.numNodes = n ∧ j.numNodes = n :=
  h.adjacency.nodes

omit [ExactScalar K] in
theorem numNodes_hops (h : InstancesRelabelled π i j) : i.hops.numNodes = j.hops.numNodes := by
  have hhops := h.hops
  unfold HopSet.numNodes
  generalize i.hops.hops = hops at hhops ⊢
  generalize j.hops.hops = hops' at hhops ⊢
  cases hhops with
  | nil => rfl
  | cons hab _ => exact hab.nodes.1.trans hab.nodes.2.symm

/-- Capacities that are used live on the nodes of the graph. -/
theorem capacities_of_used (h : InstancesRelabelled π i j) (hi : i.Accepted c)
    (huse : c.useCapacities = true) : ∃ a b, i.capacities = some a ∧ j.capacities = some b ∧
      Relabelled π a b ∧ samePattern a i.adjacency = true := by
  obtain ⟨a, ha, hsame⟩ := hi.capacities huse
  have hnodes : EdgeMatrix.numNodes a = n := by
    have hcounts := (Bool.and_eq_true _ _ ▸ hsame).1
    rw [Bool.and_eq_true, beq_iff_eq] at hcounts
    exact hcounts.1.trans h.numNodes.1
  have hrel := h.capacities
  rw [ha] at hrel
  generalize j.capacities = capacities' at hrel ⊢
  cases hrel with
  | some hab => exact ⟨a, _, ha, rfl, hab hnodes, hsame⟩

/-- The checks accept what they accept under other names. -/
theorem accepted (h : InstancesRelabelled π i j) (hi : i.Accepted c) : j.Accepted c where
  demands := h.demands.length_right.trans h.numNodes.2.symm
  hops := by rw [← h.numNodes_hops, hi.hops, h.numNodes.1, h.numNodes.2]
  embeddings := ⟨h.embeddings.rows_right.trans h.numNodes.2.symm,
    h.embeddings.cols.symm.trans hi.embeddings.cols_eq⟩
  features := ⟨h.features.rows_right.trans h.numNodes.2.symm,
    h.features.cols.symm.trans hi.features.cols_eq⟩
  capacities huse := by
    obtain ⟨a, b, -, hb, hab, hsame⟩ := h.capacities_of_used hi huse
    exact ⟨b, hb, (hab.samePattern h.adjacency).symm.trans hsame⟩
  backing := hi.backing
  size := by
    obtain ⟨hopCount, hcount, hsize⟩ := hi.size
    exact ⟨hopCount, hcount, h.hops.length_eq.symm.trans hsize⟩
  positive huse b hb e he := by
    obtain ⟨a, b', ha, hb', hab, -⟩ := h.capacities_of_used hi huse
    obtain rfl : b' = b := Option.some.inj (hb'.symm.trans hb)
    obtain ⟨d, hd, rfl⟩ := List.mem_map.1 (hab.edges.mem_iff.1 he)
    exact hi.positive huse a ha d hd

end InstancesRelabelled

/-- An instance with built hops can be relabelled, and the hops built anew. -/
theorem exists_instancesRelabelled {rule : HopRule} {c : Settings K} {i : FlowInstance M K}
    (hb : i.Built rule) (hi : i.Accepted c) (π : Relabelling i.numNodes) :
    ∃ j, j.Built rule ∧ InstancesRelabelled π i j := by
  obtain ⟨adjacency, hadjacency⟩ := exists_relabelled π hb.adjacency rfl
  obtain ⟨s, hs, t, ht, hhops⟩ := hadjacency.build rfl rule
  obtain rfl : i.hops = s := Except.ok.inj (hb.hops.symm.trans hs)
  obtain ⟨demands, hdemands⟩ := π.exists_moves hi.demands
  obtain ⟨embeddings, hembeddings⟩ := exists_movesLines π hi.embeddings.rows_eq
  obtain ⟨features, hfeatures⟩ := exists_movesLines π hi.features.rows_eq
  obtain ⟨capacities, hcapacities, hsquare⟩ : ∃ capacities : Option (M K),
      Option.Rel (fun a b => numNodes a = i.numNodes → Relabelled π a b) i.capacities capacities ∧
        ∀ b, capacities = some b → Square b := by
    cases hcap : i.capacities with
    | none => exact ⟨none, .none, nofun⟩
    | some a =>
      have hsq := hb.capacities a hcap
      by_cases hn : numNodes a = i.numNodes
      · obtain ⟨b, hab⟩ := exists_relabelled π hsq hn
        exact ⟨some b, .some fun _ => hab, by rintro _ ⟨⟩; exact hab.square.2⟩
      · exact ⟨some a, .some fun hon => absurd hon hn, by rintro _ ⟨⟩; exact hsq⟩
  exact ⟨⟨adjacency, demands, t, embeddings, features, capacities⟩,
    ⟨hadjacency.square.2, ht, hsquare⟩, hadjacency, hdemands, hhops, hembeddings, hfeatures,
    hcapacities⟩

end NeuralFlow
