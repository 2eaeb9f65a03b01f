import Mathlib
import NeuralFlow.EdgeMatrix.Sparse

/-! Lists of edges in row order: by source and then by target, with no position twice. Such a list is
fixed by its members, so two backings that hold the same edges list them alike. Loose edges are taken
into row order one by one, and a later edge takes the place of one at the same position. -/

namespace NeuralFlow

variable {α : Type}

namespace Edge

def ends (e : Edge α) : ℕ × ℕ := (e.src, e.dst)

def Before (d e : Edge α) : Prop := d.src < e.src ∨ d.src = e.src ∧ d.dst < e.dst

theorem ends_eq_iff {d e : Edge α} : d.ends = e.ends ↔ d.src = e.src ∧ d.dst = e.dst := by
  simp [ends]

theorem before_iff {d e : Edge α} : Before d e ↔ SparseMatrix.precedes d e = true := by
  simp [Before, SparseMatrix.precedes]

theorem Before.irrefl (e : Edge α) : ¬ Before e e := by
  rintro (h | ⟨-, h⟩) <;> exact lt_irrefl _ h

instance : Std.Irrefl (Before (α := α)) := ⟨Before.irrefl⟩

theorem Before.trans {d e f : Edge α} (h : Before d e) (k : Before e f) : Before d f := by
  unfold Before at *; omega

theorem Before.ends_ne {d e : Edge α} (h : Before d e) : d.ends ≠ e.ends := by
  rw [Ne, ends_eq_iff]; unfold Before at h; omega

theorem before_or_before {d e : Edge α} (h : d.ends ≠ e.ends) : Before d e ∨ Before e d := by
  rw [Ne, ends_eq_iff] at h; unfold Before; omega

/-- The order looks at positions only. -/
theorem before_congr {d d' e e' : Edge α} (hd : d.ends = d'.ends) (he : e.ends = e'.ends) :
    Before d e ↔ Before d' e' := by
  rw [ends_eq_iff] at hd he; unfold Before; omega

/-- Positions and values make up edges. -/
theorem eq_of_ends_values {es fs : List (Edge α)} (hends : es.map ends = fs.map ends)
    (hvalues : es.map value = fs.map value) : es = fs := by
  induction es generalizing fs with
  | nil => exact (List.map_eq_nil_iff.1 hends.symm).symm
  | cons e es ih =>
    cases fs with
    | nil => cases hends
    | cons f fs =>
      rw [List.map_cons, List.map_cons, List.cons.injEq] at hends hvalues
      obtain ⟨hsrc, hdst⟩ := ends_eq_iff.1 hends.1
      have hef : e = f := by
        cases e
        cases f
        simp_all
      rw [hef, ih hends.2 hvalues.2]

end Edge

open Edge

def RowOrdered (es : List (Edge α)) : Prop := es.Pairwise Before

theorem RowOrdered.eq_of_mem_iff {es fs : List (Edge α)} (he : RowOrdered es) (hf : RowOrdered fs)
    (h : ∀ e, e ∈ es ↔ e ∈ fs) : es = fs := by
  have : Std.Antisymm (Before (α := α)) :=
    ⟨fun d _ h k => absurd (h.trans k) (Before.irrefl d)⟩
  exact List.Pairwise.eq_of_mem_iff he hf h

theorem RowOrdered.ends_nodup {es : List (Edge α)} (h : RowOrdered es) : (es.map ends).Nodup := by
  rw [List.Nodup, List.pairwise_map]
  exact h.imp Before.ends_ne

/-- No position is listed twice. -/
theorem RowOrdered.ends_injective {es : List (Edge α)} (h : RowOrdered es) {d e : Edge α}
    (hd : d ∈ es) (he : e ∈ es) (hde : d.ends = e.ends) : d = e :=
  List.inj_on_of_nodup_map h.ends_nodup hd he hde

/-- Row order is a property of the positions alone. -/
theorem RowOrdered.of_ends_eq {es fs : List (Edge α)} (h : RowOrdered es)
    (he : fs.map ends = es.map ends) : RowOrdered fs := by
  let lex (p q : ℕ × ℕ) : Prop := p.1 < q.1 ∨ p.1 = q.1 ∧ p.2 < q.2
  have hmap : ∀ gs : List (Edge α), RowOrdered gs ↔ (gs.map ends).Pairwise lex := fun gs => by
    rw [List.pairwise_map]; rfl
  rw [hmap, he, ← hmap]
  exact h

/-- Lists in row order with the same positions list them alike. -/
theorem RowOrdered.ends_eq {es fs : List (Edge α)} (he : RowOrdered es) (hf : RowOrdered fs)
    (h : ∀ p, p ∈ es.map ends ↔ p ∈ fs.map ends) : es.map ends = fs.map ends := by
  have hmark : ∀ {gs : List (Edge α)}, RowOrdered gs →
      RowOrdered (gs.map fun e => ({ e with value := () } : Edge Unit)) := fun hg => by
    rw [RowOrdered, List.pairwise_map]; exact hg
  have heq := (hmark he).eq_of_mem_iff (hmark hf) fun ⟨u, v, _⟩ => by
    have := h (u, v)
    simpa [ends] using this
  have hends := congrArg (List.map ends) heq
  rw [List.map_map, List.map_map] at hends
  exact hends

/-- The edges of one row. -/
theorem RowOrdered.filter {es : List (Edge α)} (h : RowOrdered es) (p : Edge α → Bool) :
    RowOrdered (es.filter p) := List.Pairwise.filter p h

/-- The same edges in another order, those at one position in the same one. -/
def Reordered (es fs : List (Edge α)) : Prop :=
  ∀ p, es.filter (·.ends == p) = fs.filter (·.ends == p)

theorem Reordered.perm {es fs : List (Edge α)} (h : Reordered es fs) : es.Perm fs := by
  classical
  rw [List.perm_iff_count]
  intro e
  have hcount : ∀ gs : List (Edge α), (gs.filter (·.ends == e.ends)).count e = gs.count e :=
    fun gs => List.count_filter (by simp)
  rw [← hcount es, h, hcount]

/-! New values for a list of edges. -/

def setValues (es : List (Edge α)) (new : List α) : List (Edge α) :=
  List.zipWith (fun e x => { e with value := x }) es new

theorem ends_setValues {es : List (Edge α)} {new : List α} (h : new.length = es.length) :
    (setValues es new).map ends = es.map ends := by
  induction es generalizing new with
  | nil => simp [setValues]
  | cons e es ih =>
    cases new with
    | nil => simp at h
    | cons x new =>
      have hlen : new.length = es.length := by simpa using h
      have := ih hlen
      simp only [setValues, List.zipWith_cons_cons, List.map_cons] at this ⊢
      rw [this]
      rfl

theorem values_setValues {es : List (Edge α)} {new : List α} (h : new.length = es.length) :
    (setValues es new).map Edge.value = new := by
  induction es generalizing new with
  | nil => simpa [setValues, eq_comm] using h
  | cons e es ih =>
    cases new with
    | nil => simp at h
    | cons x new =>
      have hlen : new.length = es.length := by simpa using h
      have := ih hlen
      simp only [setValues, List.zipWith_cons_cons, List.map_cons] at this ⊢
      rw [this]

theorem setValues_map (es : List (Edge α)) (f : Edge α → α) :
    setValues es (es.map f) = es.map fun e => { e with value := f e } := by
  induction es with
  | nil => rfl
  | cons e es ih =>
    simp only [setValues, List.map_cons, List.zipWith_cons_cons] at ih ⊢
    rw [ih]

theorem setValues_append (es fs : List (Edge α)) (new : List α) :
    setValues (es ++ fs) new = setValues es new ++ setValues fs (new.drop es.length) := by
  induction es generalizing new with
  | nil => simp [setValues]
  | cons e es ih =>
    cases new with
    | nil => simp [setValues]
    | cons x new =>
      have := ih new
      simp only [setValues, List.cons_append, List.zipWith_cons_cons, List.length_cons,
        List.drop_succ_cons] at this ⊢
      rw [this]

/-! Rows of a list in row order. -/

/-- The targets in one row of a list in row order rise. -/
theorem RowOrdered.pairwise_dst {es : List (Edge α)} (h : RowOrdered es) (u : ℕ) :
    ((es.filter (·.src == u)).map Edge.dst).Pairwise (· < ·) := by
  rw [List.pairwise_map]
  refine (h.filter _).imp_of_mem fun {d e} hd he hde => ?_
  have hds : d.src = u := by simpa using (List.mem_filter.1 hd).2
  have hes : e.src = u := by simpa using (List.mem_filter.1 he).2
  unfold Edge.Before at hde
  omega

/-- In a list in row order the edges of lower rows come first. -/
theorem RowOrdered.take_countP {es : List (Edge α)} (h : RowOrdered es) (r : ℕ) :
    es.take (es.countP (·.src < r)) = es.filter (·.src < r) ∧
      es.drop (es.countP (·.src < r)) = es.filter (r ≤ ·.src) := by
  induction es with
  | nil => simp
  | cons e es ih =>
    obtain ⟨he, hes⟩ := List.pairwise_cons.1 h
    by_cases hr : e.src < r
    · have hnot : ¬ r ≤ e.src := by omega
      simp [hr, hnot, ih hes]
    · have hall : ∀ d ∈ es, ¬ d.src < r := fun d hd => by
        have := he d hd
        unfold Before at this
        omega
      have hzero : es.countP (·.src < r) = 0 := by
        rw [List.countP_eq_zero]; simpa using hall
      have hle : r ≤ e.src := by omega
      have hempty : es.filter (·.src < r) = [] := by simpa [List.filter_eq_nil_iff] using hall
      have hself : es.filter (r ≤ ·.src) = es := by
        rw [List.filter_eq_self]; intro d hd; have := hall d hd; simp; omega
      simp [hr, hle, hzero, hempty, hself]

/-- The slots from the first to the last edge of a row hold that row. -/
theorem RowOrdered.slots_eq_row {es : List (Edge α)} (h : RowOrdered es) (r : ℕ) :
    (es.drop (es.countP (·.src < r))).take (es.countP (·.src < r + 1) - es.countP (·.src < r)) =
      es.filter (·.src == r) := by
  have hfst := (h.take_countP (r + 1)).1
  have hsnd := ((h.filter (·.src < r + 1)).take_countP r).2
  have hcount : (es.filter (·.src < r + 1)).countP (·.src < r) = es.countP (·.src < r) := by
    rw [List.countP_filter]
    apply List.countP_congr
    intro e _
    simp only [Bool.and_eq_true, decide_eq_true_eq]
    omega
  rw [← List.drop_take, hfst, ← hcount, hsnd, List.filter_filter]
  apply List.filter_congr
  intro e _
  rw [Bool.eq_iff_iff]
  simp only [Bool.and_eq_true, decide_eq_true_eq, beq_iff_eq]
  omega

theorem RowOrdered.getElem?_row {es : List (Edge α)} (h : RowOrdered es) {r k : ℕ}
    (hk : k < (es.filter (·.src == r)).length) :
    es[es.countP (·.src < r) + k]? = (es.filter (·.src == r))[k]? := by
  rw [← h.slots_eq_row, List.length_take] at hk
  rw [← h.slots_eq_row, List.getElem?_take_of_lt (by omega), List.getElem?_drop]

/-- The rows one after another are the whole list. -/
theorem RowOrdered.flatMap_rows {es : List (Edge α)} (h : RowOrdered es) {n : ℕ}
    (hn : ∀ e ∈ es, e.src < n) : ((List.range n).flatMap fun u => es.filter (·.src == u)) = es := by
  refine RowOrdered.eq_of_mem_iff ?_ h fun e => ?_
  · rw [RowOrdered, List.pairwise_flatMap]
    refine ⟨fun u _ => h.filter _, List.pairwise_lt_range.imp ?_⟩
    intro u v huv d hd e he
    simp only [List.mem_filter, beq_iff_eq] at hd he
    left
    omega
  · simp only [List.mem_flatMap, List.mem_range, List.mem_filter, beq_iff_eq]
    exact ⟨fun ⟨_, _, he, _⟩ => he, fun he => ⟨e.src, hn e he, he, rfl⟩⟩

/-! Taking edges into row order. -/

namespace SparseMatrix

/-- Takes an entry into a list in row order. An entry at the same position gives way to it. -/
def insertEntry (e : Edge α) : List (Edge α) → List (Edge α)
  | [] => [e]
  | d :: rest =>
    if precedes e d then e :: d :: rest
    else if precedes d e then d :: insertEntry e rest
    else e :: rest

def inRowOrder (entries : List (Edge α)) : List (Edge α) :=
  entries.foldl (fun placed e => insertEntry e placed) []

theorem mem_insertEntry {es : List (Edge α)} (h : RowOrdered es) (e d : Edge α) :
    d ∈ insertEntry e es ↔ d = e ∨ d ∈ es ∧ d.ends ≠ e.ends := by
  induction es with
  | nil => simp [insertEntry]
  | cons c es ih =>
    obtain ⟨hc, hes⟩ := List.pairwise_cons.1 h
    unfold insertEntry
    split_ifs with hec hce
    · -- the new entry comes first: every position in the list lies behind it
      rw [← before_iff] at hec
      have hne : ∀ b ∈ c :: es, b.ends ≠ e.ends := by
        intro b hb
        rcases List.mem_cons.1 hb with rfl | hb
        · exact hec.ends_ne.symm
        · exact (hec.trans (hc b hb)).ends_ne.symm
      rw [List.mem_cons]
      exact ⟨fun hd => hd.imp_right fun hd => ⟨hd, hne d hd⟩, fun hd => hd.imp_right And.left⟩
    · rw [← before_iff] at hce
      rw [List.mem_cons, ih hes, List.mem_cons]
      constructor
      · rintro (rfl | rfl | ⟨hd, hne⟩)
        · exact Or.inr ⟨Or.inl rfl, hce.ends_ne⟩
        · exact Or.inl rfl
        · exact Or.inr ⟨Or.inr hd, hne⟩
      · rintro (rfl | ⟨rfl | hd, hne⟩)
        · exact Or.inr (Or.inl rfl)
        · exact Or.inl rfl
        · exact Or.inr (Or.inr ⟨hd, hne⟩)
    · -- neither comes first, so the new entry takes the place of the old one
      rw [← before_iff] at hec hce
      have heq : c.ends = e.ends := by
        by_contra hne
        exact (before_or_before hne).elim hce hec
      rw [List.mem_cons, List.mem_cons]
      constructor
      · rintro (rfl | hd)
        · exact Or.inl rfl
        · exact Or.inr ⟨Or.inr hd, heq ▸ (hc d hd).ends_ne.symm⟩
      · rintro (rfl | ⟨rfl | hd, hne⟩)
        · exact Or.inl rfl
        · exact absurd heq hne
        · exact Or.inr hd

theorem rowOrdered_insertEntry {es : List (Edge α)} (h : RowOrdered es) (e : Edge α) :
    RowOrdered (insertEntry e es) := by
  induction es with
  | nil => simp [insertEntry, RowOrdered]
  | cons c es ih =>
    obtain ⟨hc, hes⟩ := List.pairwise_cons.1 h
    unfold insertEntry
    split_ifs with hec hce
    · rw [← before_iff] at hec
      refine List.pairwise_cons.2 ⟨fun b hb => ?_, h⟩
      rcases List.mem_cons.1 hb with rfl | hb
      · exact hec
      · exact hec.trans (hc b hb)
    · rw [← before_iff] at hce
      refine List.pairwise_cons.2 ⟨fun b hb => ?_, ih hes⟩
      rcases (mem_insertEntry hes e b).1 hb with rfl | ⟨hb, -⟩
      · exact hce
      · exact hc b hb
    · rw [← before_iff] at hec hce
      have heq : c.ends = e.ends := by
        by_contra hne
        exact (before_or_before hne).elim hce hec
      exact List.pairwise_cons.2 ⟨fun b hb => (before_congr heq rfl).1 (hc b hb), hes⟩

theorem inRowOrder_append_singleton (es : List (Edge α)) (e : Edge α) :
    inRowOrder (es ++ [e]) = insertEntry e (inRowOrder es) := by
  simp [inRowOrder]

theorem rowOrdered_inRowOrder (es : List (Edge α)) : RowOrdered (inRowOrder es) := by
  induction es using List.reverseRecOn with
  | nil => simp [inRowOrder, RowOrdered]
  | append_singleton es e ih =>
    rw [inRowOrder_append_singleton]
    exact rowOrdered_insertEntry ih e

/-- Of the edges at a position the last one is kept. -/
theorem mem_inRowOrder {es : List (Edge α)} {d : Edge α} :
    d ∈ inRowOrder es ↔ (es.filter (·.ends == d.ends)).getLast? = some d := by
  -- from the right end, because the edge that is taken in last stays
  induction es using List.reverseRecOn with
  | nil => simp [inRowOrder]
  | append_singleton es e ih =>
    rw [inRowOrder_append_singleton, mem_insertEntry (rowOrdered_inRowOrder es), ih,
      List.filter_append]
    by_cases he : e.ends = d.ends
    · simp [he, eq_comm]
    · have hne : d ≠ e := fun h => he (congrArg ends h.symm)
      simp [he, hne, Ne.symm he]

theorem mem_of_mem_inRowOrder {es : List (Edge α)} {d : Edge α} (h : d ∈ inRowOrder es) :
    d ∈ es :=
  List.mem_of_mem_filter (List.mem_of_getLast? (mem_inRowOrder.1 h))

/-- No position is lost. -/
theorem exists_mem_inRowOrder {es : List (Edge α)} {d : Edge α} (h : d ∈ es) :
    ∃ e ∈ inRowOrder es, e.ends = d.ends := by
  have hd : d ∈ es.filter (·.ends == d.ends) := by simpa using h
  obtain ⟨e, he⟩ := Option.isSome_iff_exists.1 (List.getLast?_isSome.2 (List.ne_nil_of_mem hd))
  have hends : e.ends = d.ends := by simpa using (List.mem_filter.1 (List.mem_of_getLast? he)).2
  exact ⟨e, mem_inRowOrder.2 (by rwa [hends]), hends⟩

theorem mem_ends_inRowOrder {es : List (Edge α)} {p : ℕ × ℕ} :
    p ∈ (inRowOrder es).map ends ↔ p ∈ es.map ends := by
  simp only [List.mem_map]
  constructor
  · rintro ⟨e, he, rfl⟩
    exact ⟨e, mem_of_mem_inRowOrder he, rfl⟩
  · rintro ⟨e, he, rfl⟩
    exact exists_mem_inRowOrder he

/-- What is kept depends on the edges at each position alone, in their order. -/
theorem inRowOrder_congr {es fs : List (Edge α)} (h : Reordered es fs) :
    inRowOrder es = inRowOrder fs :=
  (rowOrdered_inRowOrder es).eq_of_mem_iff (rowOrdered_inRowOrder fs) fun d => by
    rw [mem_inRowOrder, mem_inRowOrder, h]

/-- Where no position is given twice all edges are kept. -/
theorem inRowOrder_perm {es : List (Edge α)} (h : (es.map ends).Nodup) : (inRowOrder es).Perm es := by
  have hnodup := (rowOrdered_inRowOrder es).ends_nodup
  rw [List.perm_ext_iff_of_nodup hnodup.of_map h.of_map]
  intro d
  constructor
  · exact mem_of_mem_inRowOrder
  · intro hd
    obtain ⟨e, he, hends⟩ := exists_mem_inRowOrder hd
    rwa [List.inj_on_of_nodup_map h (mem_of_mem_inRowOrder he) hd hends] at he

end SparseMatrix

end NeuralFlow
