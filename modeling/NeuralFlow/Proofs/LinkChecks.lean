import Mathlib
import NeuralFlow.Proofs.Acceptance
import NeuralFlow.Proofs.Canonical
import NeuralFlow.Proofs.Network

/-! Links in their order. The checks stop at the first link that breaks a rule, with the first rule it
breaks. A network that passes can be used: its capacities are accepted on its adjacency, and neither
matrix depends on the order of the links. -/

namespace NeuralFlow

open EdgeMatrix LawfulBacking

namespace Network

section Checks

variable {α : Type} [Scalar α]

/-- The rules for a link after others, in the order they are tried, each with its error. -/
inductive Refused (nodes : ℕ) (earlier : List (ℕ × ℕ)) (link : Link α) : FlowError α → Prop
  | outside : ¬ (link.src < nodes ∧ link.dst < nodes) →
      Refused nodes earlier link (.edgeOutOfBounds link.src link.dst nodes)
  | loop : link.src < nodes ∧ link.dst < nodes → link.src = link.dst →
      Refused nodes earlier link (.selfLoop link.src)
  | again : link.src < nodes ∧ link.dst < nodes → link.src ≠ link.dst → link.ends ∈ earlier →
      Refused nodes earlier link (.duplicateEdge link.src link.dst)
  | capacity : link.src < nodes ∧ link.dst < nodes → link.src ≠ link.dst → link.ends ∉ earlier →
      ¬ (Scalar.isFinite link.capacity = true ∧ 0 < link.capacity) →
      Refused nodes earlier link (.linkCapacity link.src link.dst link.capacity)

variable {nodes : ℕ} {seen : List (ℕ × ℕ)} {link : Link α} {links : List (Link α)} {e : FlowError α}

/-- What the earlier links are matters only for where they run. -/
theorem Refused.congr {seen' : List (ℕ × ℕ)} (h : Refused nodes seen link e)
    (hseen : ∀ p, p ∈ seen ↔ p ∈ seen') : Refused nodes seen' link e := by
  cases h with
  | outside hout => exact .outside hout
  | loop hin hloop => exact .loop hin hloop
  | again hin hne hmem => exact .again hin hne ((hseen _).1 hmem)
  | capacity hin hne hnew hcap => exact .capacity hin hne (fun hmem => hnew ((hseen _).2 hmem)) hcap

theorem refused_or_allows (nodes : ℕ) (seen : List (ℕ × ℕ)) (link : Link α) :
    (∃ e, Refused nodes seen link e) ∨ Allows nodes link ∧ link.ends ∉ seen := by
  by_cases hin : link.src < nodes ∧ link.dst < nodes
  swap
  · exact Or.inl ⟨_, .outside hin⟩
  by_cases hne : link.src = link.dst
  · exact Or.inl ⟨_, .loop hin hne⟩
  by_cases hmem : link.ends ∈ seen
  · exact Or.inl ⟨_, .again hin hne hmem⟩
  by_cases hcap : Scalar.isFinite link.capacity = true ∧ 0 < link.capacity
  · exact Or.inr ⟨⟨hin.1, hin.2, hne, hcap.1, hcap.2⟩, hmem⟩
  · exact Or.inl ⟨_, .capacity hin hne hmem hcap⟩

theorem checkLinks_of_refused (h : Refused nodes seen link e) :
    checkLinks nodes seen (link :: links) = .error e := by
  have hinside : link.src < nodes ∧ link.dst < nodes → ¬ (nodes ≤ link.src ∨ nodes ≤ link.dst) := by
    omega
  cases h with
  | outside hout => rw [checkLinks, if_pos (by omega)]
  | loop hin hloop => rw [checkLinks, if_neg (hinside hin), if_pos hloop]
  | again hin hne hmem => rw [checkLinks, if_neg (hinside hin), if_neg hne, if_pos hmem]
  | capacity hin hne hnew hcap =>
    rw [checkLinks, if_neg (hinside hin), if_neg hne, if_neg hnew,
      if_pos (by simpa [imp_iff_not_or] using hcap)]

theorem checkLinks_of_allows (h : Allows nodes link) (hnew : link.ends ∉ seen) :
    checkLinks nodes seen (link :: links) = checkLinks nodes (link.ends :: seen) links := by
  have hinside : ¬ (nodes ≤ link.src ∨ nodes ≤ link.dst) := by
    rw [not_or, not_le, not_le]
    exact ⟨h.src_lt, h.dst_lt⟩
  rw [checkLinks, if_neg hinside, if_neg h.ends_ne, if_neg hnew,
    if_neg (by simp [h.finite, h.positive])]

/-- A link is refused for one reason. -/
theorem Refused.unique {e' : FlowError α} (h : Refused nodes seen link e)
    (h' : Refused nodes seen link e') : e = e' := by
  have halone : checkLinks nodes seen [link] = .error e := checkLinks_of_refused h
  rw [checkLinks_of_refused h'] at halone
  exact (Except.error.inj halone).symm

theorem Refused.not_allows (h : Refused nodes seen link e) (hallows : Allows nodes link) :
    link.ends ∈ seen := by
  by_contra hnew
  have halone : checkLinks nodes seen [link] = .error e := checkLinks_of_refused h
  rw [checkLinks_of_allows hallows hnew] at halone
  cases halone

/-- The checks fail at the first link that is refused. The ends of the links before it are kept with
the latest ones first. -/
theorem checkLinks_eq_error_iff : checkLinks nodes seen links = .error e ↔
    ∃ earlier link later, links = earlier ++ link :: later ∧ checkLinks nodes seen earlier = .ok () ∧
      Refused nodes ((earlier.map Link.ends).reverse ++ seen) link e := by
  induction links generalizing seen with
  | nil => simp [checkLinks]
  | cons first rest ih =>
    rcases refused_or_allows nodes seen first with ⟨e', hfirst⟩ | ⟨hallows, hnew⟩
    · -- nothing can come before a first link that is refused
      rw [checkLinks_of_refused hfirst]
      constructor
      · rintro ⟨⟩
        exact ⟨[], first, rest, rfl, rfl, hfirst⟩
      · rintro ⟨earlier, link, later, hlinks, hok, hlink⟩
        cases earlier with
        | nil =>
          cases hlinks
          rw [hfirst.unique hlink]
        | cons first' earlier =>
          cases hlinks
          rw [checkLinks_of_refused hfirst] at hok
          cases hok
    · -- a first link that is taken only adds its ends to those that are kept
      rw [checkLinks_of_allows hallows hnew, ih]
      constructor
      · rintro ⟨earlier, link, later, rfl, hok, hlink⟩
        refine ⟨first :: earlier, link, later, rfl, ?_, by simpa using hlink⟩
        rw [checkLinks_of_allows hallows hnew, hok]
      · rintro ⟨earlier, link, later, hlinks, hok, hlink⟩
        cases earlier with
        | nil =>
          cases hlinks
          exact absurd (hlink.not_allows hallows) hnew
        | cons first' earlier =>
          cases hlinks
          rw [checkLinks_of_allows hallows hnew] at hok
          exact ⟨earlier, link, later, rfl, hok, by simpa using hlink⟩

theorem checkLinks_nil_eq_ok_iff :
    checkLinks nodes [] links = .ok () ↔ Simple ⟨nodes, links⟩ := by
  rw [checkLinks_eq_ok_iff]
  exact ⟨fun ⟨hallows, hdistinct, _⟩ => ⟨hallows, hdistinct⟩,
    fun h => ⟨h.allows, h.distinct, fun _ _ => List.not_mem_nil⟩⟩

theorem ofLinks_eq_error_iff : ofLinks nodes links = .error e ↔
    ∃ earlier link later, links = earlier ++ link :: later ∧ Simple ⟨nodes, earlier⟩ ∧
      Refused nodes (earlier.map Link.ends) link e := by
  have herror : ofLinks nodes links = .error e ↔ checkLinks nodes [] links = .error e := by
    rw [ofLinks]
    cases checkLinks nodes [] links <;> simp
  have hcongr : ∀ (earlier : List (Link α)) (link : Link α),
      Refused nodes ((earlier.map Link.ends).reverse ++ []) link e ↔
        Refused nodes (earlier.map Link.ends) link e := fun _ _ =>
    ⟨fun h => h.congr (by simp), fun h => h.congr (by simp)⟩
  rw [herror, checkLinks_eq_error_iff]
  simp only [checkLinks_nil_eq_ok_iff, hcongr]

end Checks

section Matrices

variable {M : Type → Type} [EdgeMatrix M] [LawfulBacking M] {α : Type} [Scalar α]
  {network : Network α}

/-- The order of the links is no part of being simple. -/
theorem Simple.perm (h : network.Simple) {links : List (Link α)} (hperm : links.Perm network.links) :
    Simple ⟨network.nodes, links⟩ where
  allows link hlink := h.allows link (hperm.mem_iff.1 hlink)
  distinct := (hperm.map Link.ends).nodup_iff.2 h.distinct

/-- With the edges all different, their order is no part of the matrix. -/
theorem ofEdges_eq_of_perm [CanonicalBacking M] {n : ℕ} {es fs : List (Edge α)}
    (hfit : ∀ e ∈ es, e.Fits n) (hdistinct : (es.map Edge.ends).Nodup) (h : fs.Perm es) :
    (ofEdges n fs : Outcome α (M α)) = ofEdges n es := by
  obtain ⟨a, ha, hsquare, hcleared, hnodes, hedges⟩ := ofEdges_ok (M := M) hfit
  obtain ⟨b, hb, hsquare', hcleared', hnodes', hedges'⟩ :=
    ofEdges_ok (M := M) fun e he => hfit e (h.mem_iff.1 he)
  have hes := SparseMatrix.inRowOrder_perm hdistinct
  have hfs := SparseMatrix.inRowOrder_perm ((h.map Edge.ends).nodup_iff.2 hdistinct)
  rw [← hedges] at hes
  rw [← hedges'] at hfs
  have hsame : edges b = edges a := (rowOrdered hsquare').eq_of_mem_iff (rowOrdered hsquare) fun e =>
    ((hfs.trans h).trans hes.symm).mem_iff
  rw [ha, hb, CanonicalBacking.eq_of_alike
    ⟨⟨hsquare', hsquare⟩, ⟨hcleared', hcleared⟩, hnodes'.trans hnodes.symm, hsame⟩]

/-- A network that can be solved on: it has its matrices, the capacities are accepted on the adjacency,
and another order of the links makes no difference. -/
structure Usable (M : Type → Type) [EdgeMatrix M] [LawfulBacking M] (network : Network α) : Prop
    extends network.HasMatrices M where
  accepted : Yields (network.adjacency : Outcome α (M α)) fun adjacency =>
    Yields (network.capacities : Outcome α (M α)) fun capacities =>
      FlowInstance.checkCapacities capacities adjacency = .ok ()
  reordered : ∀ links : List (Link α), links.Perm network.links →
    ofLinks network.nodes links = .ok ⟨network.nodes, links⟩ ∧
    (Network.adjacency ⟨network.nodes, links⟩ : Outcome α (M α)) = network.adjacency ∧
    (Network.capacities ⟨network.nodes, links⟩ : Outcome α (M α)) = network.capacities

theorem Simple.ofEdges_eq_of_perm [CanonicalBacking M] (h : network.Simple) (value : Link α → α)
    (hfinite : ∀ link ∈ network.links, Scalar.isFinite (value link) = true) {links : List (Link α)}
    (hperm : links.Perm network.links) :
    (ofEdges network.nodes (links.map fun link => ⟨link.src, link.dst, value link⟩) :
      Outcome α (M α)) =
      ofEdges network.nodes (network.links.map fun link => ⟨link.src, link.dst, value link⟩) :=
  Network.ofEdges_eq_of_perm (h.fits hfinite) (h.nodup_ends value) (hperm.map _)

/-- Both matrices have the edges of the links, so they have one pattern. -/
theorem Simple.checkCapacities_ok (hone : Scalar.isFinite (1 : α) = true) (h : network.Simple) :
    Yields (network.adjacency : Outcome α (M α)) fun adjacency =>
      Yields (network.capacities : Outcome α (M α)) fun capacities =>
        FlowInstance.checkCapacities capacities adjacency = .ok () := by
  have hmatrices := h.hasMatrices (M := M) hone
  refine hmatrices.adjacency.mono fun adjacency ⟨hsquare, hnodes, _, hedges⟩ => ?_
  refine hmatrices.capacities.mono fun capacities ⟨hsquare', hnodes', _, hedges'⟩ => ?_
  rw [FlowInstance.checkCapacities_ok_iff, samePattern_iff hsquare' hsquare]
  refine ⟨⟨hnodes'.trans hnodes.symm, ?_⟩, fun e he => ?_⟩
  · refine (rowOrdered hsquare').ends_eq (rowOrdered hsquare) fun p => ?_
    rw [(hedges.map Edge.ends).mem_iff, (hedges'.map Edge.ends).mem_iff, List.map_map, List.map_map]
    rfl
  · obtain ⟨link, hlink, rfl⟩ := List.mem_map.1 (hedges'.mem_iff.1 he)
    exact ⟨(h.allows link hlink).finite, (h.allows link hlink).positive⟩

theorem Simple.usable [CanonicalBacking M] (hone : Scalar.isFinite (1 : α) = true)
    (h : network.Simple) : network.Usable M where
  toHasMatrices := h.hasMatrices hone
  accepted := h.checkCapacities_ok hone
  reordered _ hperm := ⟨ofLinks_eq_ok_iff.2 ⟨rfl, h.perm hperm⟩,
    h.ofEdges_eq_of_perm (fun _ => 1) (fun _ _ => hone) hperm,
    h.ofEdges_eq_of_perm Link.capacity (fun link hlink => (h.allows link hlink).finite) hperm⟩

end Matrices

variable {M : Type → Type} [EdgeMatrix M] [LawfulBacking M]

/-- The constructor takes the simple networks and no others. For any other links the error is that of
the first link that breaks a rule, for the first rule it breaks; and what is taken can be used. -/
theorem ofLinks_takes_simple [CanonicalBacking M] (nodes : ℕ) (links : List (Link Float32)) :
    ((∃ network, ofLinks nodes links = .ok network) ↔ Simple ⟨nodes, links⟩) ∧
    (∀ e, ofLinks nodes links = .error e ↔ ∃ earlier link later, links = earlier ++ link :: later ∧
      Simple ⟨nodes, earlier⟩ ∧ Refused nodes (earlier.map Link.ends) link e) ∧
    ∀ network, ofLinks nodes links = .ok network → network = ⟨nodes, links⟩ ∧ network.Usable M := by
  refine ⟨⟨fun ⟨network, h⟩ => ?_, fun h => ⟨_, ofLinks_eq_ok_iff.2 ⟨rfl, h⟩⟩⟩,
    fun e => ofLinks_eq_error_iff, fun network h => ?_⟩
  · obtain ⟨rfl, hsimple⟩ := ofLinks_eq_ok_iff.1 h
    exact hsimple
  · obtain ⟨hnetwork, hsimple⟩ := ofLinks_eq_ok_iff.1 h
    exact ⟨hnetwork, hsimple.usable (by decide +kernel)⟩

/-- Links that are not in row order are taken, and make matrices in either backing. -/
theorem ofLinks_takes_simple_crossing :
    ofLinks 3 crossing.links = .ok crossing ∧ crossing.Usable SparseMatrix ∧
      crossing.Usable DenseMatrix := by
  have haccepted : ofLinks 3 crossing.links = .ok crossing := rfl
  obtain ⟨-, -, hsparse⟩ := ofLinks_takes_simple (M := SparseMatrix) 3 crossing.links
  obtain ⟨-, -, hdense⟩ := ofLinks_takes_simple (M := DenseMatrix) 3 crossing.links
  exact ⟨haccepted, (hsparse crossing haccepted).2, (hdense crossing haccepted).2⟩

/-- A link that comes again is refused for that, whatever its capacity and whatever comes later. -/
example : ofLinks 3 [.between 0 1, .withCapacity 0 1 0, .between 2 2] =
    (.error (.duplicateEdge 0 1) : Outcome Float32 (Network Float32)) := rfl

end Network

end NeuralFlow
