import Mathlib
import NeuralFlow.Proofs.Backing.Sparse
import NeuralFlow.Proofs.DualAscent

/-! Only differences of potentials count. An amount added to all potentials changes no difference, so all
rounds move shifted potentials as they move the others. What flows out of nodes flows into nodes, so
when the demands balance the moves add up to nothing, and the sum of the potentials stays. -/

namespace NeuralFlow.DualAscent

open EdgeMatrix LawfulBacking

variable {M : Type → Type} [EdgeMatrix M] {K : Type} [ExactScalar K]

def State.shift (s : State K) (c : K) : State K :=
  { s with potentials := s.potentials.map (· + c) }

theorem atRest_shift (potentials : List K) (c : K) :
    State.atRest (potentials.map (· + c)) = (State.atRest potentials).shift c := by
  simp [State.atRest, State.shift]

/-- The edges respond to differences of potentials only. -/
theorem respond_shift (cost : CostFunction K) (a : M K) (potentials : List K) (c : K) :
    respond cost a (potentials.map (· + c)) = respond cost a potentials := by
  have hvisit : (fun u v (_ : K) => do
        let src ← orFault .indexOutOfRange (potentials.map (· + c))[u]?
        let dst ← orFault .indexOutOfRange (potentials.map (· + c))[v]?
        return src - dst : ℕ → ℕ → K → Outcome K K) =
      fun u v _ => do
        let src ← orFault .indexOutOfRange potentials[u]?
        let dst ← orFault .indexOutOfRange potentials[v]?
        return src - dst := by
    funext u v _
    rw [List.getElem?_map, List.getElem?_map]
    cases potentials[u]? with
    | none => rfl
    | some x =>
      cases potentials[v]? with
      | none => rfl
      | some y => exact congrArg Except.ok (add_sub_add_right_eq_sub x y c)
  rw [respond, respond, hvisit]

theorem agree_advance_shift (d : DualAscent K) (a : M K) (demands : List K) (c : K) {s t : State K}
    (h : t = s.shift c) :
    Agree (fun s' t' => t' = s'.shift c) (d.advance a demands s) (d.advance a demands t) := by
  subst h
  rw [advance, advance, State.shift, respond_shift]
  refine (Agree.refl _).bind fun r r' hr => .ok ?_
  subst hr
  simp only [State.shift, List.zipWith_map_left, List.map_zipWith, add_right_comm]

/-- A run from shifted potentials is the run from the others, shifted. -/
theorem iterate_advance_shift (d : DualAscent K) (a : M K) (demands : List K) (c : K) {k : ℕ}
    {s t : State K} (h : iterate (d.advance a demands) k s = .ok t) :
    iterate (d.advance a demands) k (s.shift c) = .ok (t.shift c) := by
  have hruns := Agree.iterate (R := fun s t => t = s.shift c)
    (fun _ _ hst => agree_advance_shift d a demands c hst) k (b := s) rfl
  obtain ⟨t', ht', rfl⟩ := hruns.yields h
  exact ht'

/-- A shift is worth itself at every demand. -/
theorem dot_shift {potentials demands : List K} (h : potentials.length = demands.length) (c : K) :
    Scalar.dot (potentials.map (· + c)) demands =
      Scalar.dot potentials demands + c * demands.sum := by
  rw [dot_eq_sum_range h, dot_eq_sum_range (by simpa using h), ← sum_getD, Finset.mul_sum,
    ← Finset.sum_add_distrib]
  refine Finset.sum_congr rfl fun w hw => ?_
  have hlt : w < potentials.length := h ▸ Finset.mem_range.1 hw
  rw [List.getD_eq_getElem _ _ (by simpa using hlt), List.getD_eq_getElem _ _ hlt,
    List.getElem_map, add_mul]

theorem lagrangian_shift (cost : CostFunction K) (r : Response M K) {demands potentials : List K}
    (h : potentials.length = demands.length) (hbalanced : demands.sum = 0) (c : K) :
    lagrangian cost r demands (potentials.map (· + c)) =
      lagrangian cost r demands potentials := by
  rw [lagrangian, lagrangian, dot_shift h, hbalanced, mul_zero, add_zero]

/-! The sum of the potentials. -/

/-- A state for `n` nodes with a given sum of the potentials, whose last moves add up to nothing. -/
structure State.Level (n : ℕ) (total : K) (s : State K) : Prop where
  length_potentials : s.potentials.length = n
  length_velocity : s.velocity.length = n
  sum_potentials : s.potentials.sum = total
  sum_velocity : s.velocity.sum = 0

theorem level_atRest {n : ℕ} {potentials : List K} (h : potentials.length = n) :
    (State.atRest potentials).Level n potentials.sum where
  length_potentials := h
  length_velocity := by simp [State.atRest, h]
  sum_potentials := rfl
  sum_velocity := by simp [State.atRest]

variable [ExactBacking M]

/-- Flows cancel in the sum of the gradient, and the demands are left. -/
theorem sum_gradient_flowAt (cost : CostFunction K) {a : M K} (h : Square a) {demands : List K}
    (hd : demands.length = numNodes a) (potentials : List K) :
    (gradient (flowAt cost a potentials) demands).sum = demands.sum := by
  have hon := onPattern_flowAt cost h potentials
  have hcancel := sum_outflow_eq_sum_inflow hon.square
  rw [hon.nodes] at hcancel
  rw [gradient_flowAt cost h hd, sum_map_range]
  simp only [slope, Finset.sum_add_distrib, Finset.sum_sub_distrib]
  rw [hcancel, sub_self, zero_add, ← hd, sum_getD]

theorem level_advance (d : DualAscent K) {a : M K} (h : Square a) {demands : List K}
    (hd : demands.length = numNodes a) (hbalanced : demands.sum = 0) {total : K} {s : State K}
    (hs : s.Level (numNodes a) total) :
    Yields (d.advance a demands s) (State.Level (numNodes a) total) := by
  have hlen := length_gradient_flowAt d.cost h hd s.potentials
  have hsum := sum_gradient_flowAt d.cost h hd s.potentials
  -- momentum keeps a part of moves that add up to nothing, and the gradient adds nothing to them
  have hmove : (List.zipWith (fun v g => d.momentum * v + d.step * g) s.velocity
      (gradient (flowAt d.cost a s.potentials) demands)).sum = 0 := by
    rw [Exact.sum_zipWith_scaled (hs.length_velocity.trans hlen.symm), hs.sum_velocity, hsum,
      hbalanced, mul_zero, mul_zero, add_zero]
  obtain ⟨t, ht, hp, hv⟩ := advance_yields d h hd ⟨hs.length_potentials, hs.length_velocity⟩
  have hmoved := ht
  rw [advance, respond_ok d.cost h hs.length_potentials] at hmoved
  cases hmoved
  refine ⟨_, ht, hp, hv, ?_, hmove⟩
  rw [Exact.sum_zipWith_add (hs.length_potentials.trans hv.symm), hs.sum_potentials, hmove,
    add_zero]

/-- An ascent for demands that balance keeps the sum of its potentials. An amount added to all of them at
the start is added to all of them at the end, and nothing else that is reported changes. -/
theorem solve_shifted (ascent : DualAscent K) {adjacency : M K} (ha : Square adjacency)
    {demands initial : List K} (hd : demands.length = numNodes adjacency)
    (hi : initial.length = numNodes adjacency) (hbalanced : demands.sum = 0) (c : K) :
    Yields (ascent.solve adjacency demands initial) fun s =>
      s.potentials.sum = initial.sum ∧
      ascent.solve adjacency demands (initial.map (· + c)) =
        .ok { s with potentials := s.potentials.map (· + c) } := by
  have hi' : (initial.map (· + c)).length = numNodes adjacency := by simpa using hi
  obtain ⟨last, r, hrun, hlen, hr, hsolve⟩ := exists_solve_eq ascent ha hd hi
  obtain ⟨last', r', hrun', -, hr', hsolve'⟩ := exists_solve_eq ascent ha hd hi'
  have hlevel : last.Level (numNodes adjacency) initial.sum :=
    (Yields.iterate (fun s hs => level_advance ascent ha hd hbalanced hs) ascent.rounds
      (level_atRest hi)).ensures _ hrun
  rw [atRest_shift, iterate_advance_shift ascent adjacency demands c hrun, Except.ok.injEq] at hrun'
  subst hrun'
  rw [State.shift, respond_shift, hr, Except.ok.injEq] at hr'
  subst hr'
  refine ⟨_, hsolve, hlevel.sum_potentials, ?_⟩
  rw [hsolve', State.shift, lagrangian_shift _ _ (hlen.trans hd.symm) hbalanced]

/-- Three rounds from the potentials `5` and `5` lead where three rounds from `0` and `0` lead, but `5`
higher. -/
theorem solve_shifted_exchange :
    ∃ s, solve ⟨⟨.cubic, 1⟩, 3, 0.5, 0.9⟩ (SparseMatrix.exchange (1 : ℝ) 1) [1, -1] [0, 0] = .ok s ∧
      s.potentials.sum = 0 ∧
      solve ⟨⟨.cubic, 1⟩, 3, 0.5, 0.9⟩ (SparseMatrix.exchange (1 : ℝ) 1) [1, -1] [5, 5] =
        .ok { s with potentials := s.potentials.map (· + 5) } := by
  have hd : ([1, -1] : List ℝ).length = numNodes (SparseMatrix.exchange (1 : ℝ) 1) := rfl
  have hi : ([0, 0] : List ℝ).length = numNodes (SparseMatrix.exchange (1 : ℝ) 1) := rfl
  obtain ⟨s, hs, hsum, hshift⟩ := solve_shifted ⟨⟨.cubic, 1⟩, 3, 0.5, 0.9⟩
    (SparseMatrix.square_exchange (1 : ℝ) 1) hd hi (by norm_num) 5
  refine ⟨s, hs, by simpa using hsum, ?_⟩
  rw [← hshift]
  norm_num

end NeuralFlow.DualAscent
