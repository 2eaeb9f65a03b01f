import Mathlib
import NeuralFlow.Json.QuickFormat
import NeuralFlow.Network.Text
import NeuralFlow.Proofs.Backing.Dense
import NeuralFlow.Proofs.Backing.Sparse
import NeuralFlow.Scalar.Single

/-! Simple networks. The checks of links accept the simple networks and no others, and a simple network
has its matrices with an edge for every link. Reading a text does not check the links, so a network
from a text is simple only if they would pass. -/

namespace NeuralFlow

open EdgeMatrix LawfulBacking

namespace Network

variable {α : Type} [Scalar α]

/-- What is asked of a link alone: its ends are different nodes, and its capacity is positive and
finite. -/
structure Allows (nodes : ℕ) (link : Link α) : Prop where
  src_lt : link.src < nodes
  dst_lt : link.dst < nodes
  ends_ne : link.src ≠ link.dst
  finite : Scalar.isFinite link.capacity = true
  positive : 0 < link.capacity

structure Simple (network : Network α) : Prop where
  allows : ∀ link ∈ network.links, Allows network.nodes link
  distinct : (network.links.map Link.ends).Nodup

/-- The checks run through the links with the ends of the links before. -/
theorem checkLinks_eq_ok_iff (nodes : ℕ) (seen : List (ℕ × ℕ)) (links : List (Link α)) :
    checkLinks nodes seen links = .ok () ↔ (∀ link ∈ links, Allows nodes link) ∧
      (links.map Link.ends).Nodup ∧ ∀ link ∈ links, link.ends ∉ seen := by
  induction links generalizing seen with
  | nil => simp [checkLinks]
  | cons link links ih =>
    unfold checkLinks
    rw [List.forall_mem_cons, List.forall_mem_cons, List.map_cons, List.nodup_cons]
    split_ifs with hbounds hloop hseen hcapacity
    · refine iff_of_false nofun fun h => ?_
      have hlt := h.1.1
      exact hbounds.elim (not_le.2 hlt.src_lt) (not_le.2 hlt.dst_lt)
    · exact iff_of_false nofun fun h => h.1.1.ends_ne hloop
    · exact iff_of_false nofun fun h => h.2.2.1 hseen
    · refine iff_of_false nofun fun h => ?_
      have hallows := h.1.1
      simp [hallows.finite, hallows.positive] at hcapacity
    · have hallows : Allows nodes link := by
        simp only [not_or, not_le] at hbounds
        simp only [Bool.not_eq_true, Bool.not_eq_false', Bool.and_eq_true, decide_eq_true_eq]
          at hcapacity
        exact ⟨hbounds.1, hbounds.2, hloop, hcapacity.1, hcapacity.2⟩
      have hmem : link.ends ∉ links.map Link.ends ↔ ∀ next ∈ links, next.ends ≠ link.ends := by
        simp
      rw [ih]
      simp only [List.mem_cons, not_or, forall_and, hmem]
      tauto

/-- The constructor accepts simple networks and no others, and takes the links as they are. -/
theorem ofLinks_eq_ok_iff {nodes : ℕ} {links : List (Link α)} {network : Network α} :
    ofLinks nodes links = .ok network ↔ network = ⟨nodes, links⟩ ∧ network.Simple := by
  constructor
  · intro h
    obtain ⟨⟨⟩, hcheck, h⟩ := exists_of_bind_eq_ok h
    cases h
    obtain ⟨hallows, hdistinct, -⟩ := (checkLinks_eq_ok_iff nodes [] links).1 hcheck
    exact ⟨rfl, hallows, hdistinct⟩
  · rintro ⟨rfl, hsimple⟩
    have hcheck := (checkLinks_eq_ok_iff nodes [] links).2
      ⟨hsimple.allows, hsimple.distinct, by simp⟩
    rw [ofLinks, hcheck]
    rfl

/-- Finite values on the links of a simple network fit into a matrix. -/
theorem Simple.fits {network : Network α} (h : network.Simple) {value : Link α → α}
    (hfinite : ∀ link ∈ network.links, Scalar.isFinite (value link) = true) :
    ∀ e ∈ network.links.map fun link => (⟨link.src, link.dst, value link⟩ : Edge α),
      e.Fits network.nodes := by
  rw [List.forall_mem_map]
  exact fun link hlink =>
    ⟨(h.allows link hlink).src_lt, (h.allows link hlink).dst_lt, hfinite link hlink⟩

theorem Simple.nodup_ends {network : Network α} (h : network.Simple) (value : Link α → α) :
    ((network.links.map fun link => (⟨link.src, link.dst, value link⟩ : Edge α)).map
      Edge.ends).Nodup := by
  rw [List.map_map]
  exact h.distinct

variable {M : Type → Type} [EdgeMatrix M] [LawfulBacking M]

/-- A simple network has every matrix that puts a finite value on each link. -/
theorem Simple.ofEdges_yields {network : Network α} (h : network.Simple) (value : Link α → α)
    (hfinite : ∀ link ∈ network.links, Scalar.isFinite (value link) = true) :
    Yields (ofEdges network.nodes (network.links.map fun link => ⟨link.src, link.dst, value link⟩) :
      Outcome α (M α)) fun a => Square a ∧ numNodes a = network.nodes ∧
        numEdges a = network.links.length ∧
        (edges a).Perm (network.links.map fun link => ⟨link.src, link.dst, value link⟩) := by
  obtain ⟨a, ha, hsquare, -, hnodes, hedges⟩ := ofEdges_ok (M := M) (h.fits hfinite)
  have hperm := SparseMatrix.inRowOrder_perm (h.nodup_ends value)
  rw [← hedges] at hperm
  refine ⟨a, ha, hsquare, hnodes, ?_, hperm⟩
  rw [numEdges_eq hsquare, hperm.length_eq, List.length_map]

structure HasMatrices (M : Type → Type) [EdgeMatrix M] [LawfulBacking M] (network : Network α) :
    Prop where
  adjacency : Yields (network.adjacency : Outcome α (M α)) fun a => Square a ∧
    numNodes a = network.nodes ∧ numEdges a = network.links.length ∧
    (edges a).Perm (network.links.map fun link => ⟨link.src, link.dst, 1⟩)
  capacities : Yields (network.capacities : Outcome α (M α)) fun a => Square a ∧
    numNodes a = network.nodes ∧ numEdges a = network.links.length ∧
    (edges a).Perm (network.links.map fun link => ⟨link.src, link.dst, link.capacity⟩)

theorem Simple.hasMatrices (hone : Scalar.isFinite (1 : α) = true) {network : Network α}
    (h : network.Simple) : network.HasMatrices M where
  adjacency := h.ofEdges_yields (fun _ => 1) fun _ _ => hone
  capacities := h.ofEdges_yields Link.capacity fun link hlink => (h.allows link hlink).finite

inductive Origin where
  | given (nodes : ℕ) (links : List (Link Float32))
  | joined (nodes : ℕ) (pairs : List (ℕ × ℕ))
  | text (words : String)

def Origin.network (format : Json.NumberFormat) : Origin → Outcome Float32 (Network Float32)
  | .given nodes links => ofLinks nodes links
  | .joined nodes pairs => ofPairs nodes pairs
  | .text words => parse format words

/-- A network is simple unless it was read from a text whose links the constructor would not accept, and
a simple network has its matrices, in either backing. -/
theorem simple_iff_of_origin {format : Json.NumberFormat} {origin : Origin} {network : Network Float32}
    (h : origin.network format = .ok network) :
    (network.Simple ↔ ∀ words, origin = .text words →
      ofLinks network.nodes network.links = .ok network) ∧
    (network.Simple → network.HasMatrices M) := by
  have hself : ofLinks network.nodes network.links = .ok network ↔ network.Simple :=
    ofLinks_eq_ok_iff.trans (and_iff_right rfl)
  refine ⟨?_, fun hsimple => hsimple.hasMatrices (by decide +kernel)⟩
  cases origin with
  | given nodes links =>
    rw [Origin.network] at h
    exact iff_of_true (ofLinks_eq_ok_iff.1 h).2 nofun
  | joined nodes pairs =>
    rw [Origin.network, ofPairs] at h
    exact iff_of_true (ofLinks_eq_ok_iff.1 h).2 nofun
  | text words =>
    rw [← hself]
    exact ⟨fun hok _ _ => hok, fun hok => hok words rfl⟩

def crossing : Network Float32 :=
  ⟨3, [.withCapacity 2 0 1.5, .withCapacity 0 1 1, .withCapacity 1 0 2]⟩

theorem simple_iff_of_origin_crossing :
    (Origin.text "[3,[[2,0,1.5],[0,1,1],[1,0,2]]]").network .quick = .ok crossing ∧ crossing.Simple ∧
      crossing.HasMatrices SparseMatrix ∧ crossing.HasMatrices DenseMatrix := by
  have hread : (Origin.text "[3,[[2,0,1.5],[0,1,1],[1,0,2]]]").network .quick = .ok crossing := rfl
  have haccepted : ofLinks crossing.nodes crossing.links = .ok crossing := rfl
  obtain ⟨hsimple, hsparse⟩ := simple_iff_of_origin (M := SparseMatrix) hread
  have hdense := (simple_iff_of_origin (M := DenseMatrix) hread).2
  have h := hsimple.2 fun _ _ => haccepted
  exact ⟨hread, h, hsparse h, hdense h⟩

end Network

end NeuralFlow
