import Mathlib
import NeuralFlow.Proofs.FlowWeights
import NeuralFlow.Proofs.Single.Threshold

/-! Flow weights in single precision. Finite scores of nodes may have pairs that are infinite, and scores
may be so large that one is nothing beside them; then a row can be undefined or all zero. A row is sound
exactly if its scores are admitted, and rows of moderate scores are. -/

namespace NeuralFlow

open EdgeMatrix LawfulBacking Single

namespace Normalization

/-- What the scores of a row need for sound proportions: softmax a finite largest score, sparsemax a score
above the threshold and a finite sum of what is kept. -/
def Admits : Normalization Float32 → List Float32 → Prop
  | .softmax, zs => ∃ z ∈ zs, z.isFinite = true ∧ ∀ w ∈ zs, w ≤ z
  | .sparsemax epsilon, zs => (∃ z ∈ zs, Simplex.threshold zs < z) ∧
      (kept epsilon (Simplex.project zs)).isFinite = true

def DropsLess : Normalization Float32 → Prop
  | .softmax => True
  | .sparsemax epsilon => 0 < epsilon ∧ epsilon < 1

variable {n : ℕ} {B : ℚ} {zs : List Float32} {exp : Float32 → Float32}

theorem sound_normalizeRow_iff (hexp : LawfulExp exp) {normalization : Normalization Float32}
    (hdrops : normalization.DropsLess) (hne : zs ≠ []) (hz : ∀ z ∈ zs, IsNumber z) :
    Sound (@normalizeRow Float32 (withExp exp) normalization zs) ↔ normalization.Admits zs := by
  cases normalization with
  | softmax => exact sound_softmax_iff hexp hne hz
  | sparsemax epsilon =>
    change Sound (@Simplex.sparsemax Float32 (withExp exp) epsilon zs) ↔ _
    rw [sparsemax_withExp]
    exact sound_sparsemax_iff hdrops.1 hdrops.2

theorem admits_of_moderate (h : Moderate zs.length B) (hzs : ∀ z ∈ zs, IsNumber z ∧ |val z| ≤ B)
    (normalization : Normalization Float32) : normalization.Admits zs := by
  have hne : zs ≠ [] := List.length_pos_iff.1 h.pos
  cases normalization with
  | softmax =>
    obtain ⟨x, xs, rfl⟩ := List.exists_cons_of_ne_nil hne
    obtain ⟨hmem, hle⟩ := maximum_spec fun z hz => (hzs z hz).1
    obtain ⟨hnumber, hB⟩ := hzs _ hmem
    exact ⟨_, hmem, isFinite_of_le h hnumber hB,
      fun w hw => le_iff.2 ⟨⟨(hzs w hw).1, hnumber⟩, hle w hw⟩⟩
  | sparsemax epsilon =>
    exact ⟨exists_threshold_lt h le_rfl hne hzs, isFinite_kept h le_rfl hne hzs epsilon⟩

end Normalization

namespace WeightRule

variable {M : Type → Type} [EdgeMatrix M] [LawfulBacking M]

def scoresAt {α : Type} [Scalar α] (rule : WeightRule α) (adjacency : M α) (scores : List α) (u : ℕ) :
    List α :=
  (row adjacency u).map fun e => rule.pairing.pair (scores.getD u 0) (scores.getD e.dst 0)

theorem isNumber_pair {x y : Float32} (hx : x.isFinite = true) (hy : y.isFinite = true)
    (pairing : ScorePairing) : IsNumber (pairing.pair x y) := by
  cases pairing with
  | product => exact (rounds_mul hx hy).isNumber
  | sum => exact (rounds_add hx hy).isNumber

theorem isNumber_scoresAt (rule : WeightRule Float32) {adjacency : M Float32} (h : Square adjacency)
    {scores : List Float32} (hl : scores.length = numNodes adjacency)
    (hfinite : ∀ s ∈ scores, s.isFinite = true) {u : ℕ} :
    ∀ z ∈ rule.scoresAt adjacency scores u, IsNumber z := by
  have hscore : ∀ v < numNodes adjacency, (scores.getD v 0).isFinite = true := fun v hv => by
    rw [List.getD_eq_getElem _ _ (hl.symm ▸ hv)]
    exact hfinite _ (List.getElem_mem _)
  simp only [scoresAt, List.forall_mem_map]
  intro e he
  obtain ⟨hmem, rfl⟩ := mem_row_iff.1 he
  obtain ⟨hu, hv⟩ := ends_lt h e hmem
  exact isNumber_pair (hscore _ hu) (hscore _ hv) rule.pairing

/-- The weights of a row are its normalized scores. -/
theorem weights_rows {α : Type} [Scalar α] (rule : WeightRule α) {adjacency : M α}
    (h : Square adjacency) {scores : List α} (hl : scores.length = numNodes adjacency) :
    ∃ w, rule.weights adjacency scores = .ok w ∧ pattern w = pattern adjacency ∧
      ∀ u < numNodes adjacency, row adjacency u ≠ [] →
        (row w u).map Edge.value = rule.normalization.normalizeRow (rule.scoresAt adjacency scores u) := by
  have hon := onPattern_withValues h (atEnds scores scores rule.pairing.pair)
  have hnormal := hon.trans (rule.onPattern_normalize hon.square hon.cleared)
  refine ⟨_, rule.weights_ok h hl, hnormal.pattern, fun u hu hne => ?_⟩
  rw [rule.map_value_row_normalize hon.square hon.cleared (hon.nodes.symm ▸ hu)
    (by rwa [row_withValues h, ne_eq, List.map_eq_nil_iff]), row_withValues h, List.map_map, scoresAt]
  refine congrArg _ (List.map_congr_left fun e he => ?_)
  obtain ⟨hmem, rfl⟩ := mem_row_iff.1 he
  obtain ⟨hsrc, hdst⟩ := ends_lt h e hmem
  rw [← hl] at hsrc hdst
  simp [atEnds, hsrc, hdst]

/-- With finite scores there are weights, and a row with edges is finite, between zero and one, and not all
zero exactly if its paired scores are admitted. Rows of moderate scores are, and then the search for the
support admits at least one of them. -/
theorem weights_sound_iff {exp : Float32 → Float32} (hexp : LawfulExp exp) {rule : WeightRule Float32}
    (hdrops : rule.normalization.DropsLess) {adjacency : M Float32} (h : Square adjacency)
    {scores : List Float32} (hl : scores.length = numNodes adjacency)
    (hfinite : ∀ s ∈ scores, s.isFinite = true) :
    ∃ w, @weights Float32 (withExp exp) M _ rule adjacency scores = .ok w ∧
      pattern w = pattern adjacency ∧ ∀ u < numNodes adjacency, row adjacency u ≠ [] →
        (Sound ((row w u).map Edge.value) ↔
          rule.normalization.Admits (rule.scoresAt adjacency scores u)) ∧
        ∀ B, Moderate (row adjacency u).length B →
          (∀ z ∈ rule.scoresAt adjacency scores u, |val z| ≤ B) →
          Sound ((row w u).map Edge.value) ∧
            1 ≤ (Simplex.support (Simplex.sortFalling (rule.scoresAt adjacency scores u))).count := by
  obtain ⟨w, hw, hpattern, hrow⟩ := @weights_rows M _ _ Float32 (withExp exp) rule adjacency h scores hl
  refine ⟨w, hw, hpattern, fun u hu hne => ?_⟩
  have hnumber := rule.isNumber_scoresAt h hl hfinite (u := u)
  obtain ⟨zs, hzs⟩ : ∃ zs, rule.scoresAt adjacency scores u = zs := ⟨_, rfl⟩
  have hvalues : (row w u).map Edge.value =
      @Normalization.normalizeRow Float32 (withExp exp) rule.normalization zs := hzs ▸ hrow u hu hne
  have hlen : zs.length = (row adjacency u).length := by rw [← hzs, scoresAt, List.length_map]
  have hne' : zs ≠ [] := List.length_pos_iff.1 (hlen ▸ List.length_pos_iff.2 hne)
  rw [hzs] at hnumber ⊢
  have hiff := Normalization.sound_normalizeRow_iff hexp hdrops hne' hnumber
  rw [hvalues]
  refine ⟨hiff, fun B hmoderate hsize => ?_⟩
  have hall : ∀ z ∈ zs, IsNumber z ∧ |val z| ≤ B := fun z hz => ⟨hnumber z hz, hsize z hz⟩
  rw [← hlen] at hmoderate
  exact ⟨hiff.2 (Normalization.admits_of_moderate hmoderate hall _),
    (support_sortFalling hmoderate le_rfl hne' hall fun z hz => le_of_abs_le (hall z hz).2).2⟩

def roughExp (x : Float32) : Float32 := if x == 0 then 1 else if x ≤ 0 then 0 else x

theorem lawful_roughExp : LawfulExp roughExp where
  zero x hx hzero := by
    rw [roughExp, if_pos (beq_iff.2 ⟨⟨hx, isNumber_zero⟩, hzero⟩), val_one]
  nonpos x hx hle := by
    rw [roughExp]
    split_ifs with hzero hneg
    · exact ⟨isNumber_one, by rw [val_one]; norm_num⟩
    · exact ⟨isNumber_zero, by rw [val_zero]; norm_num⟩
    · exact absurd (le_iff.2 ⟨⟨hx, isNumber_zero⟩, hle⟩) hneg
  undefined x hx := by
    rw [roughExp, if_neg fun h => hx (beq_iff.1 h).1.1, if_neg fun h => hx (le_iff.1 h).1.1]
    exact hx

/-- Between two nodes that point at each other sparsemax loses the only weight of each row beside a large
negative score, and softmax beside an infinite product; moderate scores make sound rows. -/
theorem weights_sound_iff_lost :
    (∃ w, @weights Float32 (withExp roughExp) SparseMatrix _ ⟨.sparsemax 1e-5, .sum⟩
        (SparseMatrix.exchange 1 1) [-1e20, 0] = .ok w ∧ ¬ Sound ((row w 0).map Edge.value)) ∧
    (∃ w, @weights Float32 (withExp roughExp) SparseMatrix _ ⟨.softmax, .product⟩
        (SparseMatrix.exchange 1 1) [1e20, 1e20] = .ok w ∧ ¬ Sound ((row w 0).map Edge.value)) ∧
    ∃ w, @weights Float32 (withExp roughExp) SparseMatrix _ ⟨.sparsemax 1e-5, .sum⟩
        (SparseMatrix.exchange 1 1) [2, -3] = .ok w ∧ Sound ((row w 0).map Edge.value) := by
  have hsquare := SparseMatrix.square_exchange (1 : Float32) 1
  have hsparsemax : (WeightRule.mk (.sparsemax (1e-5 : Float32)) .sum).normalization.DropsLess :=
    ⟨by decide +kernel, by decide +kernel⟩
  have hsoftmax : (WeightRule.mk (.softmax : Normalization Float32) .product).normalization.DropsLess :=
    trivial
  refine ⟨?_, ?_, ?_⟩
  · obtain ⟨w, hw, -, hrow⟩ := weights_sound_iff lawful_roughExp hsparsemax hsquare
      (show ([-1e20, 0] : List Float32).length = 2 from rfl) (by decide +kernel)
    refine ⟨w, hw, fun hsound => ?_⟩
    obtain ⟨⟨z, hz, hlt⟩, -⟩ := (hrow 0 (by decide) (by decide)).1.1 hsound
    obtain rfl : z = -1e20 + 0 := List.mem_singleton.1 hz
    exact absurd hlt (by decide +kernel)
  · obtain ⟨w, hw, -, hrow⟩ := weights_sound_iff lawful_roughExp hsoftmax hsquare
      (show ([1e20, 1e20] : List Float32).length = 2 from rfl) (by decide +kernel)
    refine ⟨w, hw, fun hsound => ?_⟩
    obtain ⟨z, hz, hfinite, -⟩ := (hrow 0 (by decide) (by decide)).1.1 hsound
    obtain rfl : z = 1e20 * 1e20 := List.mem_singleton.1 hz
    exact absurd hfinite (by decide +kernel)
  · obtain ⟨w, hw, -, hrow⟩ := weights_sound_iff lawful_roughExp hsparsemax hsquare
      (show ([2, -3] : List Float32).length = 2 from rfl) (by decide +kernel)
    have hmoderate : Moderate 1 1 := ⟨le_rfl, le_rfl, by norm_num⟩
    refine ⟨w, hw, ((hrow 0 (by decide) (by decide)).2 1 hmoderate ?_).1⟩
    intro z hz
    obtain rfl : z = 2 + -3 := List.mem_singleton.1 hz
    have hunpack : (2 + -3 : Float32).toModel.unpack =
        .finite .negative 8388608 (-23) (by norm_num) := by with_unfolding_all rfl
    rw [val, hunpack, Binary.value, Binary.signed]
    norm_num

end WeightRule

end NeuralFlow
