import Mathlib
import NeuralFlow.FlowModel
import NeuralFlow.Proofs.Aligned

/-! Layers in two runs. Affine layers and gates work on every line on its own, so lines that are aligned
stay aligned. Only the message of a head looks at other nodes; what attention makes of such messages is
again made line by line, so it takes what is known of the messages of heads as a premise. -/

namespace NeuralFlow

open EdgeMatrix Grid

variable {n : ℕ} {R : ℕ → ℕ → Prop} {α : Type} [Scalar α]

theorem Affine.aligned_apply (layer : Affine α) {x y : Grid α} (h : AlignedLines n R x y) :
    Agree (AlignedLines n R) (layer.apply x) (layer.apply y) :=
  (Agree.orFault_rel (h.timesTransposed? layer.weights)).bind fun _ _ hsums =>
    Agree.orFault_rel (hsums.combine?_ofLine layer.offsets _)

theorem Perceptron.aligned_run (final : Bool) (layers : List (Affine α)) {x y : Grid α}
    (h : AlignedLines n R x y) : Agree (AlignedLines n R) (run final layers x) (run final layers y) := by
  induction layers generalizing x y with
  | nil => exact .ok h
  | cons layer layers ih =>
    refine (layer.aligned_apply h).bind fun x' y' h' => ih ?_
    split_ifs
    · exact h'.map _
    · exact h'

namespace GatedCell

theorem aligned_plus {x y x' y' : Grid α} (h : AlignedLines n R x y) (k : AlignedLines n R x' y') :
    Agree (AlignedLines n R) (plus x x') (plus y y') := Agree.orFault_rel (h.combine? k _)

theorem aligned_times {x y x' y' : Grid α} (h : AlignedLines n R x y) (k : AlignedLines n R x' y') :
    Agree (AlignedLines n R) (times x x') (times y y') := Agree.orFault_rel (h.combine? k _)

theorem aligned_respond (forMessage forState : Affine α) {message message' state state' : Grid α}
    (hm : AlignedLines n R message message') (hs : AlignedLines n R state state') :
    Agree (AlignedLines n R) (respond forMessage forState message state)
      (respond forMessage forState message' state') :=
  (forMessage.aligned_apply hm).bind fun _ _ ha => (forState.aligned_apply hs).bind fun _ _ hb =>
    aligned_plus ha hb

theorem aligned_apply (cell : GatedCell α) {message message' state state' : Grid α}
    (hm : AlignedLines n R message message') (hs : AlignedLines n R state state') :
    Agree (AlignedLines n R) (cell.apply message state) (cell.apply message' state') := by
  refine (aligned_respond _ _ hm hs).bind fun update update' hu => ?_
  refine (aligned_respond _ _ hm hs).bind fun reset reset' hr => ?_
  refine (aligned_times (hr.map _) hs).bind fun seen seen' hseen => ?_
  refine (aligned_respond _ _ hm hseen).bind fun candidate candidate' hc => ?_
  refine (aligned_times ((hu.map _).map _) hs).bind fun kept kept' hkept => ?_
  exact (aligned_times (hu.map _) (hc.map _)).bind fun moved moved' hmoved =>
    aligned_plus hkept hmoved

end GatedCell

namespace HopAttention

structure Projections.Aligned (n : ℕ) (R : ℕ → ℕ → Prop) (p q : Projections α) : Prop where
  query : AlignedLines n R p.query q.query
  key : AlignedLines n R p.key q.key
  value : AlignedLines n R p.value q.value

variable {p q : Projections α}

theorem aligned_project (a : HopAttention α) {x y : Grid α} (h : AlignedLines n R x y) :
    Agree (Projections.Aligned n R) (a.project x) (a.project y) :=
  (a.query.aligned_apply h).bind fun _ _ hquery => (a.key.aligned_apply h).bind fun _ _ hkey =>
    (a.value.aligned_apply h).bind fun _ _ hvalue => .ok ⟨hquery, hkey, hvalue⟩

omit [Scalar α] in
theorem aligned_head (h : Projections.Aligned n R p q) (lo hi : ℕ) :
    Agree (Projections.Aligned n R) (p.head lo hi) (q.head lo hi) :=
  (Agree.orFault_rel (h.query.columns? lo hi)).bind fun _ _ hquery =>
    (Agree.orFault_rel (h.key.columns? lo hi)).bind fun _ _ hkey =>
      (Agree.orFault_rel (h.value.columns? lo hi)).bind fun _ _ hvalue =>
        .ok ⟨hquery, hkey, hvalue⟩

theorem aligned_join {messages messages' : List (Grid α)}
    (h : List.Forall₂ (AlignedLines n R) messages messages') :
    Agree (AlignedLines n R) (join n messages) (join n messages') :=
  Agree.foldlM h (fun _ _ _ _ hjoined hm => Agree.orFault_rel (hjoined.beside? hm)) (.zeros 0)

theorem aligned_average (width : ℕ) {messages messages' : List (Grid α)}
    (h : List.Forall₂ (AlignedLines n R) messages messages') :
    Agree (AlignedLines n R) (average n width messages) (average n width messages') := by
  unfold average
  split_ifs
  · exact .error
  · refine (Agree.foldlM (R := AlignedLines n R) h (fun _ _ _ _ hsum hm =>
      Agree.orFault_rel (hsum.update? hm _)) (.zeros width)).bind fun sum sum' hsum => ?_
    rw [h.length_eq]
    exact .ok (hsum.map _)

variable {M : Type → Type} [EdgeMatrix M]

/-- Heads whose messages are aligned make messages of hops that are. -/
theorem aligned_hopMessage (a : HopAttention α) {hop hop' : M α} (hp : p.query.rows = n)
    (hq : q.query.rows = n) (hhead : ∀ head, Agree (AlignedLines n R) (a.headMessage hop p head)
      (a.headMessage hop' q head)) :
    Agree (AlignedLines n R) (a.hopMessage p hop) (a.hopMessage q hop') := by
  refine (Agree.collect hhead 0 a.heads).bind fun messages messages' hm => ?_
  rw [hp, hq]
  cases a.merge with
  | average => exact aligned_average a.headWidth hm
  | concat =>
    cases a.output with
    | none => exact aligned_average a.headWidth hm
    | some output => exact (aligned_join hm).bind fun _ _ hjoined => output.aligned_apply hjoined

theorem aligned_hopLogits (a : HopAttention α) {x y : Grid α} (h : AlignedLines n R x y) :
    Agree (Aligned n R) (a.hopLogits x) (a.hopLogits y) :=
  (a.hopScore.aligned_apply h).bind fun _ _ hscores => Agree.orFault_rel (hscores.column? 0)

theorem aligned_hopShares (a : HopAttention α) {messages messages' : List (Grid α)}
    (h : List.Forall₂ (AlignedLines n R) messages messages') :
    Agree (AlignedLines n R) (a.hopShares n messages) (a.hopShares n messages') := by
  refine (Agree.mapM h fun _ _ hm => a.aligned_hopLogits hm).bind fun logits logits' hlogits => .ok ?_
  have hcolumns := AlignedLines.ofColumns hlogits
  exact ⟨hcolumns.cols, hcolumns.lines.map _⟩

omit [Scalar α] in
/-- Lists are related with their positions. -/
theorem forall₂_zipIdx {β γ : Type} {T : β → γ → Prop} {xs : List β} {ys : List γ}
    (h : List.Forall₂ T xs ys) (first : ℕ) :
    List.Forall₂ (fun x y : _ × ℕ => T x.1 y.1 ∧ x.2 = y.2) (xs.zipIdx first) (ys.zipIdx first) := by
  induction h generalizing first with
  | nil => exact .nil
  | cons hxy _ ih => exact .cons ⟨hxy, rfl⟩ (ih (first + 1))

theorem aligned_mix {shares shares' : Grid α} (hs : AlignedLines n R shares shares') (width : ℕ)
    {messages messages' : List (Grid α)} (h : List.Forall₂ (AlignedLines n R) messages messages') :
    Agree (AlignedLines n R) (mix shares n width messages) (mix shares' n width messages') := by
  refine (Agree.foldlM (R := AlignedLines n R) (forall₂_zipIdx h 0) ?_ (.zeros width)).bind
    fun _ _ hsum => .ok (hsum.map _)
  rintro sum sum' ⟨message, i⟩ ⟨message', j⟩ hsum ⟨hmessage, hij⟩
  obtain rfl : i = j := hij
  refine (Agree.orFault_rel (hs.columns? i (i + 1))).bind fun _ _ hweights => ?_
  refine (Agree.orFault_rel (AlignedLines.combine? hmessage hweights _)).bind
    fun _ _ hweighted => Agree.orFault_rel (hsum.update? hweighted _)

/-- The hops of two runs side by side: heads that see projections aligned along one relation send
messages that are aligned along another one. -/
def CarriesHeads (n : ℕ) (R S : ℕ → ℕ → Prop) (hop hop' : M α) : Prop :=
  ∀ (a : HopAttention α) (p q : Projections α) (head : ℕ), Projections.Aligned n R p q →
    Agree (AlignedLines n S) (a.headMessage hop p head) (a.headMessage hop' q head)

theorem aligned_apply (a : HopAttention α) {S : ℕ → ℕ → Prop} {x y : Grid α}
    (h : AlignedLines n R x y) {s t : HopSet M α}
    (hst : List.Forall₂ (CarriesHeads n R S) s.hops t.hops) :
    Agree (fun sent sent' => AlignedLines n S sent.message sent'.message ∧
      AlignedLines n S sent.shares sent'.shares) (a.apply x s) (a.apply y t) := by
  refine (a.aligned_project h).bind fun p q hp => ?_
  refine (Agree.mapM hst fun hop hop' hhop => a.aligned_hopMessage hp.query.rows_left
    hp.query.rows_right fun head => hhop a p q head hp).bind fun messages messages' hm => ?_
  rw [h.rows_left, h.rows_right, h.cols]
  refine (a.aligned_hopShares hm).bind fun shares shares' hs => ?_
  exact (aligned_mix hs _ hm).bind fun message message' hmessage => .ok ⟨hmessage, hs⟩

end HopAttention

namespace FlowModel

structure NodeState.Aligned (n : ℕ) (R : ℕ → ℕ → Prop) (s t : NodeState α) : Prop where
  encoding : AlignedLines n R s.encoding t.encoding
  shares : AlignedLines n R s.shares t.shares

variable {M : Type → Type} [EdgeMatrix M]

/-- A round leaves aligned what its hops carry. -/
theorem aligned_round (m : FlowModel α) {S : ℕ → ℕ → Prop} (hle : ∀ u v, S u v → R u v)
    {hops hops' : HopSet M α}
    (h : List.Forall₂ (HopAttention.CarriesHeads n R S) hops.hops hops'.hops) {s t : NodeState α}
    (hst : AlignedLines n R s.encoding t.encoding) :
    Agree (NodeState.Aligned n S) (m.round hops s) (m.round hops' t) :=
  (m.attention.aligned_apply hst h).bind fun _ _ hsent =>
    (m.cell.aligned_apply hsent.1 (hst.of_le hle)).bind fun _ _ hnext => .ok ⟨hnext, hsent.2⟩

omit [Scalar α] [EdgeMatrix M] in
theorem aligned_nodeInputs {i j : FlowInstance M α}
    (he : AlignedLines n R i.embeddings j.embeddings)
    (hf : AlignedLines n R i.features j.features) :
    Agree (AlignedLines n R) (nodeInputs i) (nodeInputs j) := by
  have hjoined := he.beside? hf
  unfold nodeInputs
  generalize i.embeddings.beside? i.features = inputs at hjoined ⊢
  generalize j.embeddings.beside? j.features = inputs' at hjoined ⊢
  cases hjoined with
  | some h => exact .ok h
  | none => exact .error

theorem aligned_decode (decoder : Perceptron α) {x y : Grid α} (h : AlignedLines n R x y) :
    Agree (Aligned n R) (decode decoder x) (decode decoder y) :=
  (Perceptron.aligned_run _ _ h).bind fun _ _ houtput => Agree.orFault_rel (houtput.column? 0)

end FlowModel

end NeuralFlow
