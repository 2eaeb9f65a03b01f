import Mathlib
import NeuralFlow.Proofs.Conservation
import NeuralFlow.Proofs.Cost
import NeuralFlow.Proofs.Outcome

/-! The ascent of the potentials. It keeps one potential for each node, and what it reports is the
bound at the potentials where it ends. In exact arithmetic the bound is a sum of least costs, one
for each edge, so it lies below the cost of every flow that takes part. -/

namespace NeuralFlow.DualAscent

open EdgeMatrix LawfulBacking

variable {M : Type → Type} [EdgeMatrix M] [LawfulBacking M]

section Run

variable {α : Type} [Scalar α]

def difference (potentials : List α) (u v : ℕ) : α := potentials.getD u 0 - potentials.getD v 0

/-- The flow that the edges choose at potentials. -/
def flowAt (cost : CostFunction α) (a : M α) (potentials : List α) : M α :=
  EdgeMatrix.map (withValues a fun u v _ => difference potentials u v) (chosenFlow cost)

theorem respond_ok (cost : CostFunction α) {a : M α} (h : Square a) {potentials : List α}
    (hp : potentials.length = numNodes a) :
    respond cost a potentials = .ok
      { differences := withValues a fun u v _ => difference potentials u v
        flow := flowAt cost a potentials } := by
  have hvisit : withValuesM a (m := Outcome α) (fun u v _ => do
      let src ← orFault .indexOutOfRange potentials[u]?
      let dst ← orFault .indexOutOfRange potentials[v]?
      return src - dst) = .ok (withValues a fun u v _ => difference potentials u v) := by
    refine withValuesM_ok fun e he => ?_
    obtain ⟨hu, hv⟩ := ends_lt h e he
    rw [← hp] at hu hv
    simp only [List.getElem?_eq_getElem hu, List.getElem?_eq_getElem hv, orFault_some, difference,
      List.getD_eq_getElem _ _ hu, List.getD_eq_getElem _ _ hv]
    rfl
  rw [respond, hvisit]
  rfl

theorem onPattern_flowAt (cost : CostFunction α) {a : M α} (h : Square a) (potentials : List α) :
    OnPattern a (flowAt cost a potentials) := by
  have hdiff := onPattern_withValues h fun u v _ => difference potentials u v
  exact hdiff.trans (onPattern_withValues hdiff.square fun _ _ x => chosenFlow cost x)

theorem edges_flowAt (cost : CostFunction α) {a : M α} (h : Square a) (potentials : List α) :
    edges (flowAt cost a potentials) = (edges a).map fun e =>
      { e with value := chosenFlow cost (difference potentials e.src e.dst) } := by
  rw [flowAt, EdgeMatrix.map, edges_withValues (square_withValues h _), edges_withValues h,
    List.map_map]
  rfl

theorem length_gradient {flow : M α} (h : Square flow) {demands : List α}
    (hd : demands.length = numNodes flow) : (gradient flow demands).length = numNodes flow := by
  simp [gradient, length_colSums h, length_rowSums h, hd]

theorem length_gradient_flowAt (cost : CostFunction α) {a : M α} (h : Square a) {demands : List α}
    (hd : demands.length = numNodes a) (potentials : List α) :
    (gradient (flowAt cost a potentials) demands).length = numNodes a := by
  have hon := onPattern_flowAt cost h potentials
  rw [length_gradient hon.square (hd.trans hon.nodes.symm), hon.nodes]

/-- One round keeps a potential and a velocity for each node. -/
theorem advance_yields (d : DualAscent α) {a : M α} (h : Square a) {demands : List α}
    (hd : demands.length = numNodes a) {s : State α}
    (hs : s.potentials.length = numNodes a ∧ s.velocity.length = numNodes a) :
    Yields (d.advance a demands s) fun t =>
      t.potentials.length = numNodes a ∧ t.velocity.length = numNodes a := by
  have hg := length_gradient_flowAt d.cost h hd s.potentials
  rw [advance, respond_ok d.cost h hs.1]
  exact ⟨_, rfl, by simp [hs.1, hs.2, hg], by simp [hs.2, hg]⟩

omit [Scalar α] in
theorem checkLengths_ok {n : ℕ} {demands potentials : List α} (hd : demands.length = n)
    (hp : potentials.length = n) : checkLengths n demands potentials = .ok () := by
  simp [checkLengths, hd, hp]

/-- What a solution reports follows from its potentials alone. -/
structure Solution.Reports (cost : CostFunction α) (a : M α) (demands : List α)
    (s : Solution M α) : Prop where
  length_eq : s.potentials.length = numNodes a
  respond_eq : respond cost a s.potentials = .ok s.response
  cost_eq : s.cost = lagrangian cost s.response demands s.potentials
  gradientNorm_eq : s.gradientNorm = Scalar.sqrt
    (Scalar.dot (gradient s.response.flow demands) (gradient s.response.flow demands))

def State.atRest (potentials : List α) : State α where
  potentials
  velocity := List.replicate potentials.length 0

/-- An ascent from a potential for each node succeeds, and all it reports is taken from where its rounds
end. -/
theorem exists_solve_eq (d : DualAscent α) {a : M α} (h : Square a) {demands initial : List α}
    (hd : demands.length = numNodes a) (hi : initial.length = numNodes a) :
    ∃ last r, iterate (d.advance a demands) d.rounds (State.atRest initial) = .ok last ∧
      last.potentials.length = numNodes a ∧ respond d.cost a last.potentials = .ok r ∧
      d.solve a demands initial = .ok {
        potentials := last.potentials
        response := r
        cost := lagrangian d.cost r demands last.potentials
        gradientNorm := Scalar.sqrt (Scalar.dot (gradient r.flow demands) (gradient r.flow demands))
        rounds := d.rounds } := by
  obtain ⟨last, hlast, hlen, -⟩ := Yields.iterate (fun s hs => advance_yields d h hd hs) d.rounds
    (b := State.atRest initial) (by simp [State.atRest, hi])
  have hr := respond_ok d.cost h hlen
  refine ⟨last, _, hlast, hlen, hr, ?_⟩
  rw [State.atRest] at hlast
  rw [solve, checkLengths_ok hd hi, ok_bind, hlast, ok_bind, hr, ok_bind]
  rfl

theorem solve_reports (d : DualAscent α) {a : M α} (h : Square a) {demands initial : List α}
    (hd : demands.length = numNodes a) (hi : initial.length = numNodes a) :
    Yields (d.solve a demands initial) (Solution.Reports d.cost a demands) := by
  obtain ⟨last, r, -, hlen, hr, hsolve⟩ := exists_solve_eq d h hd hi
  exact ⟨_, hsolve, hlen, hr, rfl, rfl⟩

/-- The reported cost is the bound at the last potentials. -/
theorem solve_yields (d : DualAscent α) {a : M α} (h : Square a) {demands initial : List α}
    (hd : demands.length = numNodes a) (hi : initial.length = numNodes a) :
    Yields (d.solve a demands initial) fun s => s.potentials.length = numNodes a ∧
      bound d.cost a demands s.potentials = .ok s.cost := by
  refine (solve_reports d h hd hi).mono fun s hs => ⟨hs.length_eq, ?_⟩
  rw [bound, checkLengths_ok hd hs.length_eq, ok_bind, hs.respond_eq, ok_bind, hs.cost_eq]
  rfl

end Run

variable {K : Type} [ExactScalar K]

theorem flowAt_nonneg (cost : CostFunction K) {a : M K} (h : Square a) (potentials : List K) :
    ∀ e ∈ edges (flowAt cost a potentials), 0 ≤ e.value := by
  rw [edges_flowAt cost h, List.forall_mem_map]
  exact fun e _ => chosenFlow_nonneg cost _

def leastCost (cost : CostFunction K) (price : K) : K :=
  cost.apply (chosenFlow cost price) - price * chosenFlow cost price

/-- The value of potentials: the least costs of the edges, and the prices of the demands. -/
def value (cost : CostFunction K) (a : M K) (demands potentials : List K) : K :=
  ((pattern a).map fun p => leastCost cost (difference potentials p.1 p.2)).sum +
    ∑ w ∈ Finset.range (numNodes a), potentials.getD w 0 * demands.getD w 0

theorem bound_eq_value (cost : CostFunction K) {a : M K} (h : Square a)
    {demands potentials : List K} (hd : demands.length = numNodes a)
    (hp : potentials.length = numNodes a) :
    bound cost a demands potentials = .ok (value cost a demands potentials) := by
  have hdiff := square_withValues h fun u v _ => difference potentials u v
  rw [bound, checkLengths_ok hd hp, ok_bind, respond_ok cost h hp, ok_bind]
  refine congrArg Except.ok ?_
  rw [lagrangian, value, ← hd, dot_eq_sum_range (hp.trans hd.symm)]
  congr 1
  rw [sumEdges, Exact.runningSum_eq_sum, edges_flowAt cost h, List.map_map, pattern, List.map_map]
  congr 1
  refine List.map_congr_left fun e he => ?_
  have hmem : ({ e with value := difference potentials e.src e.dst } : Edge K) ∈
      edges (withValues a fun u v _ => difference potentials u v) := by
    rw [edges_withValues h]
    exact List.mem_map.2 ⟨e, he, rfl⟩
  have hget := get?_edge hdiff _ hmem
  simp only [Function.comp_apply, hget, Option.getD_some, leastCost]

omit [EdgeMatrix M] [LawfulBacking M] [ExactScalar K] in
theorem ensures_checkLengths (n : ℕ) (demands potentials : List K) :
    Ensures (checkLengths n demands potentials) fun _ =>
      demands.length = n ∧ potentials.length = n := by
  intro _ h
  unfold checkLengths at h
  split_ifs at h with hd hp
  exact ⟨not_not.1 hd, not_not.1 hp⟩

/-- An ascent reports the value of its last potentials. -/
theorem ensures_value (d : DualAscent K) {a : M K} (h : Square a) (demands initial : List K) :
    Ensures (d.solve a demands initial) fun s => s.cost = value d.cost a demands s.potentials := by
  intro s hs
  obtain ⟨_, hlengths, -⟩ := exists_of_bind_eq_ok hs
  obtain ⟨hd, hi⟩ := ensures_checkLengths _ _ _ _ hlengths
  obtain ⟨s', hs', hp, hbound⟩ := solve_yields d h hd hi
  obtain rfl : s = s' := Except.ok.inj (hs.symm.trans hs')
  rw [bound_eq_value d.cost h hd hp] at hbound
  exact (Except.ok.inj hbound).symm

variable {N : Type → Type} [EdgeMatrix N] [LawfulBacking N]

/-- What flows into a node less what flows out, plus its demand. -/
def slope (flow : N K) (demands : List K) (w : ℕ) : K :=
  inflow flow w - outflow flow w + demands.getD w 0

omit [LawfulBacking N] in
theorem conserves_iff_slope {flow : N K} {demands : List K}
    (hd : demands.length = numNodes flow) :
    Flow.Conserves flow demands ↔ ∀ w < numNodes flow, slope flow demands w = 0 := by
  rw [Flow.conserves_iff hd]
  refine forall₂_congr fun w _ => ?_
  rw [slope]
  exact ⟨fun h => by linarith, fun h => by linarith⟩

/-- Costs less prices on the edges, and the prices of the demands: the cost of the flow, and what its
imbalances are worth. -/
theorem sum_priced (cost : CostFunction K) {flow : N K} (hf : Square flow)
    (demands potentials : List K) :
    ((edges flow).map fun e =>
        cost.apply e.value - difference potentials e.src e.dst * e.value).sum +
      ∑ w ∈ Finset.range (numNodes flow), potentials.getD w 0 * demands.getD w 0 =
    cost.total flow +
      ∑ w ∈ Finset.range (numNodes flow), potentials.getD w 0 * slope flow demands w := by
  have htotal : cost.total flow = ((edges flow).map fun e => cost.apply e.value).sum := by
    rw [CostFunction.total, sumEdges, Exact.runningSum_eq_sum]
  have hprices := sum_differences hf fun w => potentials.getD w 0
  have hslopes : ∑ w ∈ Finset.range (numNodes flow), potentials.getD w 0 * slope flow demands w =
      ∑ w ∈ Finset.range (numNodes flow), potentials.getD w 0 * demands.getD w 0 -
        ∑ w ∈ Finset.range (numNodes flow),
          potentials.getD w 0 * (outflow flow w - inflow flow w) := by
    rw [← Finset.sum_sub_distrib]
    refine Finset.sum_congr rfl fun w _ => ?_
    rw [slope]
    ring
  rw [hslopes, ← hprices, Exact.sum_map_sub, htotal]
  simp only [difference]
  ring

/-- The value of potentials is the cost of the flow that they make the edges choose, with its imbalances
paid for. -/
theorem value_eq (cost : CostFunction K) {a : M K} (h : Square a) (demands potentials : List K) :
    value cost a demands potentials = cost.total (flowAt cost a potentials) +
      ∑ w ∈ Finset.range (numNodes a),
        potentials.getD w 0 * slope (flowAt cost a potentials) demands w := by
  have hon := onPattern_flowAt cost h potentials
  rw [← hon.nodes, ← sum_priced cost hon.square, edges_flowAt cost h, hon.nodes, List.map_map, value,
    pattern, List.map_map]
  rfl

/-- The gradient lists what each node is short of. -/
theorem gradient_eq {N : Type → Type} [EdgeMatrix N] [ExactBacking N] {flow : N K} (hf : Square flow)
    (hc : Cleared flow) {demands : List K} (hd : demands.length = numNodes flow) :
    gradient flow demands = (List.range (numNodes flow)).map (slope flow demands) := by
  rw [gradient, ExactBacking.colSums_eq hf hc, ExactBacking.rowSums_eq hf hc, List.zipWith_map,
    List.zipWith_self]
  refine List.ext_getElem (by simp [hd]) fun w hw hw' => ?_
  have hlt : w < demands.length := by simpa [hd] using hw'
  simp [slope, hlt]

theorem gradient_flowAt {N : Type → Type} [EdgeMatrix N] [ExactBacking N] (cost : CostFunction K)
    {a : N K} (h : Square a) {demands : List K} (hd : demands.length = numNodes a)
    (potentials : List K) : gradient (flowAt cost a potentials) demands =
      (List.range (numNodes a)).map (slope (flowAt cost a potentials) demands) := by
  have hon := onPattern_flowAt cost h potentials
  rw [gradient_eq hon.square hon.cleared (hd.trans hon.nodes.symm), hon.nodes]

variable [LawfulLibrary K]

omit [LawfulBacking M] in
/-- No flow on the pattern costs less than the value of potentials, when its imbalances are paid for
at their prices. -/
theorem value_le {cost : CostFunction K} (hc : cost.Admissible) {a : M K} {flow : N K}
    (hf : Square flow) (hn : numNodes flow = numNodes a) (hpat : pattern flow = pattern a)
    (hpos : ∀ e ∈ edges flow, 0 ≤ e.value) (demands potentials : List K) :
    value cost a demands potentials ≤ cost.total flow +
      ∑ w ∈ Finset.range (numNodes a), potentials.getD w 0 * slope flow demands w := by
  have hedges : ((pattern a).map fun p => leastCost cost (difference potentials p.1 p.2)).sum ≤
      ((edges flow).map fun e =>
        cost.apply e.value - difference potentials e.src e.dst * e.value).sum := by
    rw [← hpat, pattern, List.map_map]
    refine List.sum_le_sum fun e he => ?_
    -- edge by edge, the chosen flow costs least at the price of the edge
    exact chosenFlow_least hc _ (hpos e he)
  rw [← hn, ← sum_priced cost hf, hn]
  exact add_le_add_left hedges _

omit [LawfulBacking M] in
/-- The value of potentials bounds the cost of every flow that conserves. -/
theorem value_le_total {cost : CostFunction K} (hc : cost.Admissible) {a : M K} {flow : N K}
    (hf : Square flow) (hn : numNodes flow = numNodes a) (hpat : pattern flow = pattern a)
    (hpos : ∀ e ∈ edges flow, 0 ≤ e.value) {demands : List K} (hcons : Flow.Conserves flow demands)
    (potentials : List K) : value cost a demands potentials ≤ cost.total flow := by
  have hle := value_le hc hf hn hpat hpos demands potentials
  have hpaid : ∑ w ∈ Finset.range (numNodes a), potentials.getD w 0 * slope flow demands w = 0 := by
    refine Finset.sum_eq_zero fun w hw => ?_
    have hlt : w < numNodes flow := hn ▸ Finset.mem_range.1 hw
    rw [(conserves_iff_slope hcons.length_eq).1 hcons w hlt, mul_zero]
  rwa [hpaid, add_zero] at hle

end NeuralFlow.DualAscent
