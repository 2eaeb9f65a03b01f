import Mathlib
import NeuralFlow.Proofs.Backing.Dense
import NeuralFlow.Proofs.Backing.Sparse
import NeuralFlow.Proofs.Hops
import NeuralFlow.Scalar.Single

/-! Walks. The frontier of the search holds the ends of the walks of exactly one length and is never
thinned out; only what goes into a hop is compared with the nodes seen before. So hop `i` holds the
ends of the walks of `i` edges, and with distinct hops those that no shorter walk reaches. -/

namespace NeuralFlow

open EdgeMatrix LawfulBacking

variable {M : Type → Type} [EdgeMatrix M] {α : Type}

inductive Walk (a : M α) : ℕ → ℕ → ℕ → Prop
  | stay {u : ℕ} : u < numNodes a → Walk a 0 u u
  | step {k u w v : ℕ} : Walk a k u w → (w, v) ∈ pattern a → Walk a (k + 1) u v

def IsDistance (a : M α) (k u v : ℕ) : Prop := Walk a k u v ∧ ∀ j < k, ¬ Walk a j u v

namespace Walk

variable {a : M α} {k u v : ℕ}

theorem zero_iff : Walk a 0 u v ↔ u = v ∧ u < numNodes a := by
  constructor
  · intro h
    cases h with
    | stay hu => exact ⟨rfl, hu⟩
  · rintro ⟨rfl, hu⟩
    exact stay hu

theorem succ_iff : Walk a (k + 1) u v ↔ ∃ w, Walk a k u w ∧ (w, v) ∈ pattern a := by
  constructor
  · intro h
    cases h with
    | step hw he => exact ⟨_, hw, he⟩
  · rintro ⟨w, hw, he⟩
    exact step hw he

/-- Walks can be joined. -/
theorem append {j w : ℕ} (h : Walk a j u v) (h' : Walk a k v w) : Walk a (j + k) u w := by
  induction h' with
  | stay _ => exact h
  | step _ he ih => exact (ih h).step he

theorem ends_lt [LawfulBacking M] (ha : Square a) (h : Walk a k u v) :
    u < numNodes a ∧ v < numNodes a := by
  induction h with
  | stay hu => exact ⟨hu, hu⟩
  | step _ he ih =>
    obtain ⟨e, hmem, hends⟩ := List.mem_map.1 he
    obtain ⟨-, rfl⟩ := Prod.mk.inj hends
    exact ⟨ih.1, (LawfulBacking.ends_lt ha e hmem).2⟩

/-- Some walk is a shortest one. -/
theorem exists_isDistance (h : Walk a k u v) : ∃ j ≤ k, IsDistance a j u v := by
  classical
  have hex : ∃ j, Walk a j u v := ⟨k, h⟩
  exact ⟨Nat.find hex, Nat.find_min' hex h, Nat.find_spec hex, fun j hj => Nat.find_min hex hj⟩

end Walk

theorem IsDistance.unique {a : M α} {j k u v : ℕ} (hj : IsDistance a j u v)
    (hk : IsDistance a k u v) : j = k := by
  rcases lt_trichotomy j k with h | h | h
  · exact absurd hj.1 (hk.2 j h)
  · exact h
  · exact absurd hk.1 (hj.2 k h)

namespace HopRule

def Holds (rule : HopRule) (a : M α) (i u v : ℕ) : Prop :=
  if rule.distinct then IsDistance a i u v else Walk a i u v

theorem Holds.walk {rule : HopRule} {a : M α} {i u v : ℕ} (h : rule.Holds a i u v) :
    Walk a i u v := by
  unfold Holds at h
  split at h
  · exact h.1
  · exact h

/-- A frontier stands at the walks of `k` edges: it reaches their ends, and it has seen the ends of
all walks up to there. -/
structure Frontier.StandsAt (f : Frontier) (a : M α) (k : ℕ) : Prop where
  reach_length : f.reach.length = numNodes a
  seen_length : f.seen.length = numNodes a
  mem_reach : ∀ {u : ℕ} {r : List ℕ}, f.reach[u]? = some r → ∀ v, v ∈ r ↔ Walk a k u v
  mem_seen : ∀ {u : ℕ} {s : List ℕ}, f.seen[u]? = some s →
    ∀ v, v ∈ s ↔ ∃ j ≤ k, Walk a j u v

theorem Frontier.standsAt_start (a : M α) : (Frontier.start (numNodes a)).StandsAt a 0 where
  reach_length := by simp [Frontier.start]
  seen_length := by simp [Frontier.start]
  mem_reach {u r} hr v := by
    obtain ⟨hu, rfl⟩ := List.getElem?_eq_some_iff.1 hr
    have hlt : u < numNodes a := by simpa [Frontier.start] using hu
    simp [Frontier.start, Walk.zero_iff, hlt, eq_comm]
  mem_seen {u s} hs v := by
    obtain ⟨hu, rfl⟩ := List.getElem?_eq_some_iff.1 hs
    have hlt : u < numNodes a := by simpa [Frontier.start] using hu
    simp [Frontier.start, Walk.zero_iff, hlt, eq_comm]

theorem mem_successors {a : M α} {w v : ℕ} (hw : w < numNodes a) :
    v ∈ (successors a).getD w [] ↔ (w, v) ∈ pattern a := by
  simp [successors, hw, row, pattern, and_assoc, and_left_comm, and_comm]

variable [LawfulBacking M] {a : M α}

theorem mem_stepReach (ha : Square a) {reach : List ℕ} {k u v : ℕ}
    (h : ∀ w, w ∈ reach ↔ Walk a k u w) :
    v ∈ stepReach (numNodes a) (successors a) reach ↔ Walk a (k + 1) u v := by
  simp only [stepReach, List.mem_filter, List.mem_range, List.any_eq_true, List.contains_iff_mem]
  rw [Walk.succ_iff]
  constructor
  · rintro ⟨-, w, hw, hv⟩
    have hwalk := (h w).1 hw
    exact ⟨w, hwalk, (mem_successors (hwalk.ends_lt ha).2).1 hv⟩
  · rintro ⟨w, hwalk, he⟩
    exact ⟨((hwalk.step he).ends_lt ha).2, w, (h w).2 hwalk,
      (mem_successors (hwalk.ends_lt ha).2).2 he⟩

/-- One edge further a frontier stands at the walks of one more edge. -/
theorem Frontier.StandsAt.next (ha : Square a) {f : Frontier} {k : ℕ} (h : f.StandsAt a k) :
    (f.next (numNodes a) (successors a)).StandsAt a (k + 1) := by
  have hreach : ∀ {u : ℕ} {r : List ℕ},
      (f.reach.map (stepReach (numNodes a) (successors a)))[u]? = some r →
        ∀ v, v ∈ r ↔ Walk a (k + 1) u v := by
    intro u r hr v
    rw [List.getElem?_map] at hr
    obtain ⟨r', hr', rfl⟩ := Option.map_eq_some_iff.1 hr
    exact mem_stepReach ha (h.mem_reach hr')
  refine ⟨?_, ?_, hreach, fun {u s} hs v => ?_⟩
  · simp [Frontier.next, h.reach_length]
  · simp [Frontier.next, h.reach_length, h.seen_length]
  · obtain ⟨s', r, hs', hr, rfl⟩ := List.getElem?_zipWith_eq_some.1 hs
    rw [List.mem_append, h.mem_seen hs', hreach hr]
    constructor
    · rintro (⟨j, hj, hw⟩ | hw)
      · exact ⟨j, by omega, hw⟩
      · exact ⟨k + 1, le_rfl, hw⟩
    · rintro ⟨j, hj, hw⟩
      rcases Nat.le_succ_iff.1 hj with hj | rfl
      · exact Or.inl ⟨j, hj, hw⟩
      · exact Or.inr hw

omit [LawfulBacking M] in
theorem holds_zero_iff (rule : HopRule) {u v : ℕ} :
    rule.Holds a 0 u v ↔ u = v ∧ u < numNodes a := by
  unfold Holds
  split <;> simp [IsDistance, Walk.zero_iff]

omit [LawfulBacking M] in
theorem holds_succ_iff (rule : HopRule) {k u v : ℕ} : rule.Holds a (k + 1) u v ↔
    Walk a (k + 1) u v ∧ ¬ (rule.distinct = true ∧ ∃ j ≤ k, Walk a j u v) := by
  unfold Holds
  cases rule.distinct with
  | false => simp
  | true => simp [IsDistance]

section Numbers

variable [Scalar α]

/-- A hop takes what the next frontier reaches and the frontier before has not seen. -/
theorem mem_hopEntries (rule : HopRule) (ha : Square a) {f : Frontier} {k : ℕ} (h : f.StandsAt a k)
    (e : Edge α) :
    e ∈ rule.hopEntries (f.next (numNodes a) (successors a)).reach f.seen ↔
      e.value = 1 ∧ rule.Holds a (k + 1) e.src e.dst := by
  have hnext := h.next ha
  obtain ⟨u, v, x⟩ := e
  simp only [hopEntries, List.mem_flatMap, Prod.exists, List.mem_zipIdx_iff_getElem?,
    List.getElem?_zip_eq_some, rowEntries, List.mem_map, List.mem_filter, Edge.mk.injEq]
  rw [holds_succ_iff]
  constructor
  · rintro ⟨r, s, w, ⟨hr, hs⟩, z, ⟨hz, hkeep⟩, rfl, rfl, rfl⟩
    rw [← hnext.mem_reach hr, ← h.mem_seen hs]
    exact ⟨rfl, hz, by simpa [imp_iff_not_or] using hkeep⟩
  · rintro ⟨rfl, hwalk, hkeep⟩
    have hlt := (hwalk.ends_lt ha).1
    have hr := List.getElem?_eq_getElem (hnext.reach_length.symm ▸ hlt)
    have hs := List.getElem?_eq_getElem (h.seen_length.symm ▸ hlt)
    rw [← h.mem_seen hs] at hkeep
    exact ⟨_, _, u, ⟨hr, hs⟩, v, ⟨(hnext.mem_reach hr v).2 hwalk,
      by simpa [imp_iff_not_or] using hkeep⟩, rfl, rfl, rfl⟩

omit [EdgeMatrix M] [LawfulBacking M] in
theorem length_entriesFrom (rule : HopRule) (n : ℕ) (successors : List (List ℕ)) (count : ℕ)
    (f : Frontier) :
    (entriesFrom (α := α) rule n successors count f).length = count := by
  induction count generalizing f with
  | zero => rfl
  | succ count ih => simp [entriesFrom, ih]

/-- The entries of all hops behind a frontier. -/
theorem mem_entriesFrom (rule : HopRule) (ha : Square a) {f : Frontier} {k : ℕ} (h : f.StandsAt a k)
    {count i : ℕ} {es : List (Edge α)}
    (hes : (entriesFrom rule (numNodes a) (successors a) count f)[i]? = some es) (e : Edge α) :
    e ∈ es ↔ e.value = 1 ∧ rule.Holds a (k + 1 + i) e.src e.dst := by
  induction count generalizing f k i with
  | zero => simp [entriesFrom] at hes
  | succ count ih =>
    cases i with
    | zero =>
      obtain rfl : rule.hopEntries (f.next _ _).reach f.seen = es := by
        simpa [entriesFrom] using hes
      exact mem_hopEntries rule ha h e
    | succ i =>
      rw [entriesFrom, List.getElem?_cons_succ] at hes
      rw [ih (h.next ha) hes, Nat.add_right_comm k 1 1, Nat.add_assoc (k + 1), Nat.add_comm 1 i]

structure IsHop (rule : HopRule) (a : M α) (i : ℕ) (hop : M α) : Prop where
  square : Square hop
  nodes : numNodes hop = numNodes a
  ones : ∀ e ∈ edges hop, e.value = 1
  mem_pattern : ∀ u v, (u, v) ∈ pattern hop ↔ rule.Holds a i u v

theorem isHop_ofEdges (hone : Scalar.isFinite (1 : α) = true) (rule : HopRule) (ha : Square a)
    {i : ℕ} {es : List (Edge α)}
    (hes : ∀ e : Edge α, e ∈ es ↔ e.value = 1 ∧ rule.Holds a i e.src e.dst) :
    Yields (ofEdges (numNodes a) es : Outcome α (M α)) (rule.IsHop a i) := by
  have hfit : ∀ e ∈ es, e.Fits (numNodes a) := by
    intro e he
    obtain ⟨hvalue, hholds⟩ := (hes e).1 he
    have hlt := hholds.walk.ends_lt ha
    exact ⟨hlt.1, hlt.2, hvalue ▸ hone⟩
  obtain ⟨hop, hok, hsquare, -, hnodes, hedges⟩ := ofEdges_ok (M := M) hfit
  refine ⟨hop, hok, hsquare, hnodes, fun e he => ?_, fun u v => ?_⟩
  · exact ((hes e).1 (SparseMatrix.mem_of_mem_inRowOrder (hedges ▸ he))).1
  · rw [pattern_eq_map_ends, hedges, SparseMatrix.mem_ends_inRowOrder, List.mem_map]
    constructor
    · rintro ⟨e, he, hends⟩
      obtain ⟨rfl, rfl⟩ := Prod.mk.inj hends
      exact ((hes e).1 he).2
    · intro hholds
      exact ⟨⟨u, v, 1⟩, (hes _).2 ⟨rfl, hholds⟩, rfl⟩

/-- Every hop is built, and it is the one that its number says. -/
theorem build_isHop (hone : Scalar.isFinite (1 : α) = true) (rule : HopRule) (ha : Square a) :
    Yields (rule.build a) fun set => set.size = rule.maxHop + 1 ∧
      ∀ i hop, set.hop? i = some hop → rule.IsHop a i hop := by
  have hfirst : Yields (ofEdges (numNodes a) ((List.range (numNodes a)).map fun i => ⟨i, i, 1⟩) :
      Outcome α (M α)) (rule.IsHop a 0) := by
    refine isHop_ofEdges hone rule ha fun e => ?_
    obtain ⟨u, v, x⟩ := e
    rw [holds_zero_iff]
    simp only [List.mem_map, List.mem_range, Edge.mk.injEq]
    constructor
    · rintro ⟨i, hi, rfl, rfl, rfl⟩
      exact ⟨rfl, rfl, hi⟩
    · rintro ⟨rfl, rfl, hu⟩
      exact ⟨u, hu, rfl, rfl, rfl⟩
  have hrest : Yields ((rule.entriesFrom (numNodes a) (successors a) rule.maxHop
      (.start (numNodes a))).mapM (ofEdges (M := M) (numNodes a))) fun hops =>
        hops.length = rule.maxHop ∧ ∀ i hop, hops[i]? = some hop → rule.IsHop a (i + 1) hop := by
    refine (Yields.mapM_getElem? (P := fun i => rule.IsHop a (i + 1)) fun i es hes => ?_).mono
      fun hops h => ⟨h.1.trans (length_entriesFrom ..), h.2⟩
    refine isHop_ofEdges hone rule ha fun e => ?_
    rw [mem_entriesFrom rule ha (Frontier.standsAt_start a) hes, Nat.zero_add, Nat.add_comm 1 i]
  refine hfirst.bind fun first h => hrest.bind fun rest hr => yields_pure ⟨?_, fun i hop hi => ?_⟩
  · simp [HopSet.size, hr.1]
  · cases i with
    | zero =>
      obtain rfl : first = hop := by simpa [HopSet.hop?] using hi
      exact h
    | succ i => exact hr.2 i hop (by simpa [HopSet.hop?] using hi)

/-- The hops of a graph, whatever its backing: they live on its nodes and hold ones, and hop `i` has
the pairs that a walk of `i` edges joins. With distinct hops it has those of them that no shorter
walk joins, so that no pair is in two hops and every pair that a walk of at most `maxHop` edges
joins is in one. -/
theorem build_eq_walks (hone : Scalar.isFinite (1 : α) = true) (rule : HopRule) (ha : Square a) :
    ∃ set, rule.build a = .ok set ∧ set.size = rule.maxHop + 1 ∧
      (∀ hop ∈ set.hops, Square hop ∧ numNodes hop = numNodes a ∧ ∀ e ∈ edges hop, e.value = 1) ∧
      (∀ i hop, set.hop? i = some hop → ∀ u v,
        (u, v) ∈ pattern hop ↔ if rule.distinct then IsDistance a i u v else Walk a i u v) ∧
      (rule.distinct = true →
        set.hops.Pairwise (fun hop hop' => (pattern hop).Disjoint (pattern hop')) ∧
        ∀ u v, (∃ hop ∈ set.hops, (u, v) ∈ pattern hop) ↔ ∃ k ≤ rule.maxHop, Walk a k u v) := by
  obtain ⟨set, hbuild, hsize, hhops⟩ := build_isHop hone rule ha
  have hget : ∀ i (hi : i < set.hops.length), rule.IsHop a i set.hops[i] :=
    fun i hi => hhops i _ (List.getElem?_eq_getElem hi)
  refine ⟨set, hbuild, hsize, fun hop hmem => ?_, fun i hop hi => (hhops i hop hi).mem_pattern,
    fun hdistinct => ?_⟩
  · obtain ⟨i, hi, rfl⟩ := List.getElem_of_mem hmem
    exact ⟨(hget i hi).square, (hget i hi).nodes, (hget i hi).ones⟩
  have hdist : ∀ i (hi : i < set.hops.length) u v,
      (u, v) ∈ pattern set.hops[i] ↔ IsDistance a i u v := fun i hi u v => by
    rw [(hget i hi).mem_pattern, Holds, if_pos hdistinct]
  constructor
  · refine List.pairwise_iff_getElem.2 fun i j hi hj hij => ?_
    rintro ⟨u, v⟩ hui huj
    rw [hdist] at hui huj
    exact hij.ne (hui.unique huj)
  · intro u v
    constructor
    · rintro ⟨hop, hmem, huv⟩
      obtain ⟨i, hi, rfl⟩ := List.getElem_of_mem hmem
      have hlt : i < set.size := hi
      exact ⟨i, by omega, ((hdist i hi u v).1 huv).1⟩
    · rintro ⟨k, hk, hwalk⟩
      obtain ⟨j, hj, hshort⟩ := hwalk.exists_isDistance
      have hlt : j < set.hops.length := by
        change j < set.size
        omega
      exact ⟨_, List.getElem_mem hlt, (hdist j hlt u v).2 hshort⟩

/-- On two nodes that point at each other, the third hop is empty when hops are distinct and joins
different nodes otherwise. -/
theorem build_eq_walks_exchange :
    Scalar.isFinite (1 : Float32) = true ∧
    (∃ set, build ⟨3, true⟩ (SparseMatrix.exchange (1 : Float32) 1) = .ok set ∧
      set.hops.Pairwise fun hop hop' => (pattern hop).Disjoint (pattern hop')) ∧
    ∃ set, build ⟨3, false⟩ (SparseMatrix.exchange (1 : Float32) 1) = .ok set ∧ set.size = 4 ∧
      ∀ hop, set.hop? 3 = some hop → ((0, 1) ∈ pattern hop ↔
        Walk (SparseMatrix.exchange (1 : Float32) 1) 3 0 1) := by
  have hone : Scalar.isFinite (1 : Float32) = true := by decide +kernel
  have hsquare := SparseMatrix.square_exchange (1 : Float32) 1
  obtain ⟨set, hset, -, -, -, hdistinct⟩ := build_eq_walks hone ⟨3, true⟩ hsquare
  obtain ⟨all, hall, hsize, -, hwalks, -⟩ := build_eq_walks hone ⟨3, false⟩ hsquare
  exact ⟨hone, ⟨set, hset, (hdistinct rfl).1⟩, all, hall, hsize,
    fun hop hhop => hwalks 3 hop hhop 0 1⟩

end Numbers

end HopRule

end NeuralFlow
