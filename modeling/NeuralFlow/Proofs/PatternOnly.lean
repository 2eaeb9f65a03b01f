import Mathlib
import NeuralFlow.Proofs.Canonical
import NeuralFlow.Proofs.FinalFlow

/-! Only patterns matter. A model puts its own values on the edges of the graph and of the hops before it
reads any, so what is stored there never reaches a result. This holds for any numbers: the two runs
compute the same terms, and no law of arithmetic is used. -/

namespace NeuralFlow

open EdgeMatrix LawfulBacking

structure SameEdges {M : Type → Type} [EdgeMatrix M] [LawfulBacking M] {α : Type} (a b : M α) :
    Prop where
  square : Square a ∧ Square b
  nodes : numNodes a = numNodes b
  pattern : pattern a = pattern b

/-- Two instances that differ at most in what is stored on the edges of the graph and of the hops, and
in capacities that are not used. -/
structure SamePatterns {M : Type → Type} [EdgeMatrix M] [LawfulBacking M] {α : Type}
    (c : Settings α) (i j : FlowInstance M α) : Prop where
  adjacency : SameEdges i.adjacency j.adjacency
  demands : i.demands = j.demands
  hops : List.Forall₂ SameEdges i.hops.hops j.hops.hops
  embeddings : i.embeddings = j.embeddings
  features : i.features = j.features
  capacities : c.useCapacities = true → i.capacities = j.capacities

variable {M : Type → Type} [EdgeMatrix M] [LawfulBacking M] [CanonicalBacking M] {α : Type}
  [Scalar α]

/-- A visit that is told the ends of the edges only gives the same matrix or the same failure. -/
theorem SameEdges.withValuesM_eq {a b : M α} (h : SameEdges a b) (f : ℕ → ℕ → Outcome α α) :
    withValuesM a (fun u v _ => f u v) = withValuesM b fun u v _ => f u v := by
  have hvisit : ∀ c : M α, (edges c).mapM (fun e => f e.src e.dst) =
      (EdgeMatrix.pattern c).mapM fun p => f p.1 p.2 := by
    intro c
    rw [EdgeMatrix.pattern, List.mapM_map]
    rfl
  rw [withValuesM, withValuesM, hvisit, hvisit, ← h.pattern]
  cases hvalues : (EdgeMatrix.pattern a).mapM fun p => f p.1 p.2 with
  | error e => rfl
  | ok values =>
    have hlen : values.length = (edges a).length :=
      (ensures_length_mapM values hvalues).trans (length_pattern a)
    rw [ok_bind, ok_bind, refill_congr h.square.1 h.square.2 h.nodes h.pattern hlen]

/-! Message passing. -/

namespace HopAttention

variable (a : HopAttention α)

theorem headMessage_eq {hop hop' : M α} (h : SameEdges hop hop') (p : Projections α) (head : ℕ) :
    a.headMessage hop p head = a.headMessage hop' p head := by
  simp only [headMessage, scores, h.withValuesM_eq]

theorem hopMessage_eq {hop hop' : M α} (h : SameEdges hop hop') (p : Projections α) :
    a.hopMessage p hop = a.hopMessage p hop' := by
  have hheads : a.headMessage hop p = a.headMessage hop' p := funext (headMessage_eq a h p)
  rw [hopMessage, hopMessage, hheads]

theorem apply_eq {s t : HopSet M α} (h : List.Forall₂ SameEdges s.hops t.hops) (x : Grid α) :
    a.apply x s = a.apply x t := by
  have hmessages : ∀ p : Projections α, s.hops.mapM (a.hopMessage p) =
      t.hops.mapM (a.hopMessage p) := by
    intro p
    generalize s.hops = hops at h ⊢
    generalize t.hops = hops' at h ⊢
    induction h with
    | nil => rfl
    | cons hhop _ ih => rw [List.mapM_cons, List.mapM_cons, hopMessage_eq a hhop, ih]
  simp only [apply, hmessages]

end HopAttention

/-! Weights and ascent. -/

theorem WeightRule.weights_eq (rule : WeightRule α) {a b : M α} (h : SameEdges a b)
    (scores : List α) : rule.weights a scores = rule.weights b scores := by
  simp only [weights, edgeScores, h.nodes, h.withValuesM_eq]

namespace DualAscent

variable {a b : M α} (h : SameEdges a b)

include h

theorem respond_eq (cost : CostFunction α) (potentials : List α) :
    respond cost a potentials = respond cost b potentials := by
  simp only [respond, h.withValuesM_eq]

theorem solve_eq (d : DualAscent α) (demands initial : List α) :
    d.solve a demands initial = d.solve b demands initial := by
  have hadvance : d.advance a demands = d.advance b demands :=
    funext fun s => by rw [advance, advance, respond_eq h]
  rw [solve, solve, h.nodes, hadvance]
  simp only [respond_eq h]

end DualAscent

namespace FlowModel

variable (m : FlowModel α) {i j : FlowInstance M α}

theorem encode_eq (h : SamePatterns m.settings i j) : m.encode i = m.encode j := by
  have hinputs : nodeInputs i = nodeInputs j := by
    rw [nodeInputs, nodeInputs, h.embeddings, h.features]
  have hround : m.round i.hops = m.round j.hops :=
    funext fun s => by rw [round, round, m.attention.apply_eq h.hops]
  have hnodes : i.numNodes = j.numNodes := h.adjacency.nodes
  have hsize : i.hops.size = j.hops.size := h.hops.length_eq
  rw [encode, encode, encodeRounds, encodeRounds, hinputs, hround, hnodes, hsize]

omit [CanonicalBacking M] in
theorem price_eq (h : SamePatterns m.settings i j) (flow : M α) :
    price m.settings i.capacities flow = price m.settings j.capacities flow := by
  cases huse : m.settings.useCapacities with
  | false => rw [price_unused m.settings huse, price_unused m.settings huse]
  | true => rw [h.capacities huse]

/-- On two accepted instances that differ at most in what is stored on the edges of the graph and of the
hops, and in capacities that are not used, a model says exactly the same; and it says something on both,
if it was drawn. -/
theorem evaluate_eq_of_samePatterns (h : SamePatterns m.settings i j)
    (hi : i.check m.settings = .ok ()) (hj : j.check m.settings = .ok ()) :
    m.evaluate i = m.evaluate j ∧
    (m.Drawn m.settings → i.hops.OnNodes i.hops.numNodes →
      (m.settings.useCapacities = true → ∀ capacities, i.capacities = some capacities →
        Square capacities) →
      ∃ e, m.evaluate i = .ok e ∧ m.evaluate j = .ok e) := by
  have hsame : m.evaluate i = m.evaluate j := by
    rw [evaluate, evaluate]
    simp only [hi, hj, m.encode_eq h, m.settings.weightRule.weights_eq h.adjacency, h.demands,
      m.price_eq h, DualAscent.solve_eq h.adjacency]
  refine ⟨hsame, fun hdrawn hhops hcap => ?_⟩
  obtain ⟨e, he, -⟩ := evaluate_yields_of_used hdrawn h.adjacency.square.1 hhops hcap hi
  exact ⟨e, he, hsame ▸ he⟩

end FlowModel

/-! Other values on the same edges. -/

omit [CanonicalBacking M] in
theorem sameEdges_map {a : M α} (h : Square a) (f : α → α) : SameEdges a (EdgeMatrix.map a f) where
  square := ⟨h, square_withValues h _⟩
  nodes := (numNodes_withValues a _).symm
  pattern := (pattern_withValues h _).symm

def FlowInstance.restored (i : FlowInstance M α) (f : α → α) : FlowInstance M α :=
  { i with
    adjacency := EdgeMatrix.map i.adjacency f
    hops := ⟨i.hops.hops.map fun hop => EdgeMatrix.map hop f⟩
    capacities := none }

omit [CanonicalBacking M] in
theorem samePatterns_restored {c : Settings α} (huse : c.useCapacities = false) {i : FlowInstance M α}
    (ha : Square i.adjacency) (hh : i.hops.OnNodes i.hops.numNodes) (f : α → α) :
    SamePatterns c i (i.restored f) where
  adjacency := sameEdges_map ha f
  demands := rfl
  hops := List.forall₂_map_right_iff.2
    (List.forall₂_same.2 fun hop hmem => sameEdges_map (hh.square hop hmem).1 f)
  embeddings := rfl
  features := rfl
  capacities := by
    rw [huse]
    exact nofun

namespace FlowModel

noncomputable def smallUncapped : Settings ℝ := { smallSettings with useCapacities := false }

theorem evaluate_eq_of_samePatterns_small : ∃ (m : FlowModel ℝ) (e : Evaluation SparseMatrix ℝ),
    draw (pure 1) smallUncapped () = .ok m ∧
    smallInstance.check smallUncapped = .ok () ∧
    (smallInstance.restored (3 * · + 4)).check smallUncapped = .ok () ∧
    SamePatterns smallUncapped smallInstance (smallInstance.restored (3 * · + 4)) ∧
    m.evaluate smallInstance = .ok e ∧ m.evaluate (smallInstance.restored (3 * · + 4)) = .ok e := by
  have hvalid : smallUncapped.validate = .ok () := smallSettings_valid
  obtain ⟨m, hm, hdrawn⟩ := draw_yields (pure 1) hvalid smallSettings_headsFit ()
  have hsettings := hdrawn.settings_eq
  have hi : smallInstance.check smallUncapped = .ok () :=
    FlowInstance.check_eq_ok_iff.2 { smallInstance_accepted with
      capacities := nofun
      positive := nofun }
  have hj : (smallInstance.restored (3 * · + 4)).check smallUncapped = .ok () :=
    FlowInstance.check_eq_ok_iff.2 { smallInstance_accepted with
      capacities := nofun
      positive := nofun }
  have hon := smallInstance_assembled.onNodes
  have hsame : SamePatterns smallUncapped smallInstance (smallInstance.restored (3 * · + 4)) :=
    samePatterns_restored rfl smallInstance_assembled.adjacency hon _
  have hboth := evaluate_eq_of_samePatterns m (hsettings.symm ▸ hsame) (hsettings.symm ▸ hi)
    (hsettings.symm ▸ hj)
  obtain ⟨e, he, he'⟩ := hboth.2 (hsettings.symm ▸ hdrawn) hon
    fun _ => smallInstance_assembled.capacities
  exact ⟨m, e, hm, hi, hj, hsame, he, he'⟩

end FlowModel

end NeuralFlow
