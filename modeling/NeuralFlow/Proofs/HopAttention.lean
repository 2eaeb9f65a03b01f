import Mathlib
import NeuralFlow.Layer.HopAttention
import NeuralFlow.Proofs.Hops
import NeuralFlow.Proofs.Layers

/-! Shapes in attention. With heads that fit into the columns of the projections every hop sends a
message of the width of the encoding; with heads that do not fit no hop sends any. -/

namespace NeuralFlow.HopAttention

open EdgeMatrix LawfulBacking Grid

variable {α : Type} [Scalar α] {M : Type → Type} [EdgeMatrix M] [LawfulBacking M]

structure Fits (a : HopAttention α) (width : ℕ) : Prop where
  query : a.query.Fits width (a.heads * a.headWidth)
  key : a.key.Fits width (a.heads * a.headWidth)
  value : a.value.Fits width (a.heads * a.headWidth)
  merge : (a.merge = .concat ∧ ∃ output, a.output = some output ∧
      output.Fits (a.heads * a.headWidth) width) ∨
    (a.merge = .average ∧ a.headWidth = width ∧ 0 < width)
  hopScore : a.hopScore.Fits width 1

structure Projections.Shaped (p : Projections α) (rows cols : ℕ) : Prop where
  query : p.query.Shaped rows cols
  key : p.key.Shaped rows cols
  value : p.value.Shaped rows cols

theorem Fits.project {a : HopAttention α} {width rows : ℕ} (h : a.Fits width) {x : Grid α}
    (hx : x.Shaped rows width) :
    Yields (a.project x) (·.Shaped rows (a.heads * a.headWidth)) :=
  (h.query.apply hx).bind fun _ hq => (h.key.apply hx).bind fun _ hk =>
    (h.value.apply hx).bind fun _ hv => yields_pure ⟨hq, hk, hv⟩

omit [Scalar α] in
theorem Projections.Shaped.head {p : Projections α} {rows cols lo hi : ℕ} (h : p.Shaped rows cols)
    (hhi : hi ≤ cols) : Yields (p.head lo hi) (·.Shaped rows (hi - lo)) :=
  (yields_orFault (h.query.columns? hhi)).bind fun _ hq =>
    (yields_orFault (h.key.columns? hhi)).bind fun _ hk =>
      (yields_orFault (h.value.columns? hhi)).bind fun _ hv => yields_pure ⟨hq, hk, hv⟩

theorem scores_yields {hop : M α} (hh : Square hop) {p : Projections α} {cols : ℕ}
    (hp : p.Shaped (numNodes hop) cols) (scale : α) :
    Yields (scores hop p scale) (OnPattern hop) := by
  refine withValuesM_yields hh fun e he => ?_
  obtain ⟨hu, hv⟩ := ends_lt hh e he
  have hquery : e.src < p.query.lines.length := hu.trans_eq hp.query.rows_eq.symm
  have hkey : e.dst < p.key.lines.length := hv.trans_eq hp.key.rows_eq.symm
  rw [List.getElem?_eq_getElem hquery, List.getElem?_eq_getElem hkey]
  exact ⟨_, rfl⟩

theorem headMessage_yields {a : HopAttention α} {hop : M α} (hh : Square hop) {p : Projections α}
    (hp : p.Shaped (numNodes hop) (a.heads * a.headWidth)) {head : ℕ} (hhead : head < a.heads) :
    Yields (a.headMessage hop p head) (·.Shaped (numNodes hop) a.headWidth) := by
  have hroom : (head + 1) * a.headWidth ≤ a.heads * a.headWidth := Nat.mul_le_mul_right _ hhead
  have hwidth : (head + 1) * a.headWidth - head * a.headWidth = a.headWidth := by
    rw [Nat.succ_mul, Nat.add_sub_cancel_left]
  refine (hp.head hroom).bind fun own hown => ?_
  rw [hwidth] at hown
  refine (scores_yields hh hown _).bind fun raw hraw => ?_
  have hweights := hraw.trans (onPattern_mapRows hraw.square hraw.cleared fun _ _ row =>
    Simplex.softmax row)
  have hmean : Yields (times (mapRows raw fun _ _ row => Simplex.softmax row) own.value)
      (·.Shaped (numNodes hop) a.headWidth) := by
    obtain ⟨mean, hmean, hrows, hcols⟩ :=
      times_shape hweights.square (hown.value.rows_eq.trans hweights.nodes.symm)
    exact ⟨mean, hmean, hrows.trans hweights.nodes, hcols.trans hown.value.cols_eq⟩
  refine hmean.bind fun mean hshape => ?_
  rw [hp.query.rows_eq]
  exact yields_orFault hshape.stretchLines?

theorem join_yields {rows width : ℕ} {messages : List (Grid α)}
    (h : ∀ m ∈ messages, m.Shaped rows width) :
    Yields (join rows messages) (·.Shaped rows (messages.length * width)) := by
  refine Yields.foldlM (P := fun seen (g : Grid α) => g.Shaped rows (seen.length * width)) ?_ ?_
  · intro seen m joined hseen hjoined
    have hm : m ∈ messages := hseen.subset (by simp)
    have hnext := hjoined.beside? (h m hm)
    rw [← Nat.succ_mul] at hnext
    rw [List.length_append, List.length_singleton]
    exact yields_orFault hnext
  · rw [List.length_nil, Nat.zero_mul]
    exact shaped_zeros rows 0

theorem average_yields {rows width : ℕ} (hw : 0 < width) {messages : List (Grid α)}
    (h : ∀ m ∈ messages, m.Shaped rows width) :
    Yields (average rows width messages) (·.Shaped rows width) := by
  have hsum : Yields (messages.foldlM
      (fun sum m => (orFault .shapesDiffer (sum.update? (· + ·) m) : Outcome α (Grid α)))
        (.zeros rows width)) (·.Shaped rows width) := by
    refine Yields.foldlM (P := fun _ (g : Grid α) => g.Shaped rows width) ?_ (shaped_zeros rows width)
    intro seen m sum hseen hs
    exact yields_orFault (hs.update? (h m (hseen.subset (by simp))))
  rw [average, if_neg (by omega)]
  exact hsum.bind fun sum hs => yields_pure (hs.map _)

theorem hopMessage_yields {a : HopAttention α} {width : ℕ} (h : a.Fits width) {hop : M α}
    (hh : Square hop) {p : Projections α}
    (hp : p.Shaped (numNodes hop) (a.heads * a.headWidth)) :
    Yields (a.hopMessage p hop) (·.Shaped (numNodes hop) width) := by
  have hcollect : Yields (collect (a.headMessage hop p) 0 a.heads) fun messages =>
      messages.length = a.heads ∧ ∀ m ∈ messages, m.Shaped (numNodes hop) a.headWidth :=
    Yields.collect fun i _ hi => headMessage_yields hh hp (by omega)
  refine hcollect.bind fun messages hmessages => ?_
  obtain ⟨hlen, hall⟩ := hmessages
  rw [hp.query.rows_eq]
  rcases h.merge with ⟨hmerge, output, hout, hfit⟩ | ⟨hmerge, hwidth, hpos⟩
  · rw [hmerge, hout]
    have hjoin := join_yields hall
    rw [hlen] at hjoin
    exact hjoin.bind fun joined hj => hfit.apply hj
  · rw [hmerge]
    rw [hwidth] at hall ⊢
    exact average_yields hpos hall

theorem hopShares_yields {a : HopAttention α} {width rows : ℕ} (h : a.Fits width)
    {messages : List (Grid α)} (hm : ∀ m ∈ messages, m.Shaped rows width) :
    Yields (a.hopShares rows messages) (·.Shaped rows messages.length) := by
  have hlogits : Yields (messages.mapM a.hopLogits) fun ls =>
      ls.length = messages.length ∧ ∀ l ∈ ls, l.length = rows := by
    refine Yields.mapM fun m hmem => ?_
    exact (h.hopScore.apply (hm m hmem)).bind fun y hy =>
      yields_orFault (hy.column? Nat.zero_lt_one)
  refine hlogits.bind fun ls hls => yields_pure ⟨?_, hls.1⟩
  rw [rows_mapLines]
  exact (shaped_ofColumns rows ls).rows_eq

theorem mix_yields {shares : Grid α} {rows width : ℕ} {messages : List (Grid α)}
    (hs : shares.Shaped rows messages.length) (hm : ∀ m ∈ messages, m.Shaped rows width) :
    Yields (mix shares rows width messages) (·.Shaped rows width) := by
  have hsum : Yields (messages.zipIdx.foldlM (addHop shares) (.zeros rows width))
      (·.Shaped rows width) := by
    refine Yields.foldlM (P := fun _ (g : Grid α) => g.Shaped rows width) ?_ (shaped_zeros rows width)
    rintro seen ⟨m, i⟩ sum hseen hsum
    have hmem : (m, i) ∈ messages.zipIdx := hseen.subset (by simp)
    have hget : messages[i]? = some m := List.mem_zipIdx_iff_getElem?.1 hmem
    obtain ⟨hi, -⟩ := List.getElem?_eq_some_iff.1 hget
    have hshape := hm m (List.mem_of_getElem? hget)
    have hcolumn : Yields (orFault (α := α) .indexOutOfRange (shares.columns? i (i + 1)))
        (·.Shaped rows (i + 1 - i)) := yields_orFault (hs.columns? hi)
    refine hcolumn.bind fun weights hw => ?_
    have hcommon : commonLength width (i + 1 - i) = some width := by
      rw [Nat.add_sub_cancel_left, commonLength_one]
    refine (yields_orFault (combine?_of_commonLength (r := rows) (c := width) ?_ ?_)).bind
      fun weighted hweighted => yields_orFault (hsum.update? hweighted)
    · rw [hshape.rows_eq, hw.rows_eq, commonLength_self]
    · rw [hshape.cols_eq, hw.cols_eq, hcommon]
  exact hsum.bind fun sum h => yields_pure (h.map _)

theorem messages_yields {a : HopAttention α} {width n : ℕ} (h : a.Fits width)
    {hops : HopSet M α} (hh : hops.OnNodes n) {p : Projections α}
    (hp : p.Shaped n (a.heads * a.headWidth)) :
    Yields (hops.hops.mapM (a.hopMessage p)) fun ms =>
      ms.length = hops.size ∧ ∀ m ∈ ms, m.Shaped n width := by
  refine Yields.mapM fun hop hmem => ?_
  obtain ⟨hsquare, rfl⟩ := hh.square hop hmem
  exact hopMessage_yields h hsquare hp

theorem Fits.apply {a : HopAttention α} {width n : ℕ} (h : a.Fits width) {hops : HopSet M α}
    (hh : hops.OnNodes n) {x : Grid α} (hx : x.Shaped n width) :
    Yields (a.apply x hops) fun sent =>
      sent.message.Shaped n width ∧ sent.shares.Shaped n hops.size := by
  refine (h.project hx).bind fun p hp => (messages_yields h hh hp).bind fun ms hms => ?_
  obtain ⟨hlen, hall⟩ := hms
  rw [hx.rows_eq, hx.cols_eq]
  refine (hopShares_yields h hall).bind fun shares hs => ?_
  exact (mix_yields hs hall).bind fun message hm => yields_pure ⟨hm, hlen ▸ hs⟩

end NeuralFlow.HopAttention
