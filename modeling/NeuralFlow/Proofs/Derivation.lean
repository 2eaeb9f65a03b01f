import Mathlib
import NeuralFlow.Proofs.Backing

/-! Matrices that come about by operations. A derivation names a source and the operations on it,
with functions that may carry a state from call to call; running it in a backing also notes every
call. Whatever the functions do, an operation gives its receiver new values and nothing else. -/

namespace NeuralFlow

open EdgeMatrix LawfulBacking

inductive Call (α : Type) where
  | edge (src dst : ℕ) (value : α)
  | value (x : α)
  | pair (x y : α)
  | row (node : ℕ) (ends : List ℕ) (values : List α)

/-- The state of the functions, and the calls so far. -/
abbrev History (σ α : Type) := σ × List (Call α)

def noted {σ α β : Type} (call : Call α) (f : StateM σ β) : StateM (History σ α) β := fun history =>
  let (b, state) := f.run history.1
  (b, (state, history.2 ++ [call]))

abbrev Traced (σ α β : Type) := Outcome α β × History σ α

def Traced.andThen {σ α β γ : Type} (x : Traced σ α β) (f : β → History σ α → Traced σ α γ) :
    Traced σ α γ :=
  match x with
  | (.ok b, history) => f b history
  | (.error e, history) => (.error e, history)

inductive Operation (σ α : Type) where
  | withValues (f : ℕ → ℕ → α → StateM σ α)
  | map (f : α → StateM σ α)
  | scaleRows (factors : List α)
  | reverse
  | mapRows (f : ℕ → List ℕ → List α → StateM σ (List α))

inductive Derivation (β σ α : Type) where
  | source (b : β)
  | apply (op : Operation σ α) (receiver : Derivation β σ α)
  | zipMap (f : α → α → StateM σ α) (receiver other : Derivation β σ α)

/-- The derivation whose matrix the last operation is applied to. -/
def Derivation.receiver? {β σ α : Type} : Derivation β σ α → Option (Derivation β σ α)
  | .source _ => none
  | .apply _ receiver => some receiver
  | .zipMap _ receiver _ => some receiver

variable {M : Type → Type} [EdgeMatrix M] {β σ α : Type} [Scalar α]

def visited (visit : StateM (History σ α) (M α)) (history : History σ α) : Traced σ α (M α) :=
  let (a, history) := visit.run history
  (.ok a, history)

namespace Operation

def run (a : M α) (history : History σ α) : Operation σ α → Traced σ α (M α)
  | .withValues f => visited (withValuesM a fun u v x => noted (.edge u v x) (f u v x)) history
  | .map f => visited (withValuesM a fun _ _ x => noted (.value x) (f x)) history
  | .scaleRows factors => (EdgeMatrix.scaleRows a factors, history)
  | .reverse => (.ok (EdgeMatrix.reverse a), history)
  | .mapRows f =>
    visited (mapRowsM a fun u ends values => noted (.row u ends values) (f u ends values)) history

end Operation

def zipped (f : α → α → StateM σ α) (a b : M α) (history : History σ α) : Traced σ α (M α) :=
  match zipMapM a b fun x y => noted (.pair x y) (f x y) with
  | .ok visit => visited visit history
  | .error e => (.error e, history)

namespace Derivation

def run (build : β → Outcome α (M α)) : Derivation β σ α → History σ α → Traced σ α (M α)
  | .source b, history => (build b, history)
  | .apply op receiver, history => (receiver.run build history).andThen fun a history =>
      op.run a history
  | .zipMap f receiver other, history => (receiver.run build history).andThen fun a history =>
      (other.run build history).andThen fun b history => zipped f a b history

end Derivation

/-! What a visit gives. -/

section Visits

variable {H γ δ : Type}

omit [Scalar α] in
/-- A list of visits gives a result for each element. -/
theorem forall₂_mapM {P : γ → δ → Prop} {f : γ → StateM H δ}
    (hf : ∀ x history, P x ((f x).run history).1) (xs : List γ) (history : H) :
    List.Forall₂ P xs ((xs.mapM f).run history).1 := by
  induction xs generalizing history with
  | nil => exact .nil
  | cons x xs ih =>
    rw [List.mapM_cons]
    exact .cons (hf x history) (ih _)

theorem length_mapM (f : γ → StateM H δ) (xs : List γ) (history : H) :
    ((xs.mapM f).run history).1.length = xs.length :=
  (forall₂_mapM (P := fun _ _ => True) (fun _ _ => trivial) xs history).length_eq.symm

end Visits

def visitRow {m : Type → Type} [Monad m] (f : ℕ → List ℕ → List α → m (List α)) (u : ℕ) :
    List (Edge α) → m (List α)
  | [] => return []
  | es =>
    let values := es.map Edge.value
    return fitTo values (← f u (es.map Edge.dst) values)

omit [Scalar α] in
theorem length_visitRow {H : Type} (f : ℕ → List ℕ → List α → StateM H (List α)) (u : ℕ)
    (es : List (Edge α)) (history : H) :
    ((visitRow f u es).run history).1.length = es.length := by
  cases es with
  | nil => rfl
  | cons e es => exact (length_fitTo _ _).trans (List.length_map _)

/-- A visit of the rows works out all new values before they are stored. -/
theorem run_mapRowsM {H : Type} (a : M α) (f : ℕ → List ℕ → List α → StateM H (List α))
    (history : H) :
    (mapRowsM a f).run history =
      (((List.range (numNodes a)).mapM fun u => visitRow f u (row a u)).run history).map
        (fun rows => overwrite a rows.flatten) id := by
  have hvisit : ∀ u, visitRow f u (row a u) = (match row a u with
      | [] => return []
      | es =>
        let values := es.map Edge.value
        return fitTo values (← f u (es.map Edge.dst) values)) := fun u => by
    cases row a u <;> rfl
  simp only [hvisit]
  rfl

structure SameGraph (a b : M α) : Prop where
  nodes : numNodes b = numNodes a
  pattern : pattern b = pattern a

/-- A matrix that differs from another one in the values of its edges, and perhaps in what is
stored elsewhere. -/
inductive Revalued (a : M α) : M α → Prop
  | refill {new : List α} : new.length = (edges a).length → Revalued a (refill a new)
  | overwrite {new : List α} : new.length = (edges a).length → Revalued a (overwrite a new)

section Steps

variable [LawfulBacking M]

theorem Revalued.sameGraph {a b : M α} (ha : Square a) (h : Revalued a b) : SameGraph a b := by
  cases h with
  | refill hn => exact ⟨numNodes_refill a _, pattern_refill ha hn⟩
  | overwrite hn => exact ⟨numNodes_overwrite a _, pattern_overwrite ha hn⟩

theorem Revalued.square {a b : M α} (ha : Square a) (h : Revalued a b) : Square b := by
  cases h with
  | refill _ => exact square_refill _ ha
  | overwrite _ => exact square_overwrite _ ha

omit [LawfulBacking M] in
theorem revalued_withValuesM {H : Type} (a : M α) (f : ℕ → ℕ → α → StateM H α) (history : H) :
    Revalued a ((withValuesM a f).run history).1 :=
  .refill (length_mapM _ _ history)

omit [Scalar α] in
theorem length_visitRows {H : Type} {a : M α} (ha : Square a)
    (f : ℕ → List ℕ → List α → StateM H (List α)) (history : H) :
    (((List.range (numNodes a)).mapM fun u =>
      visitRow f u (row a u)).run history).1.flatten.length = (edges a).length := by
  have hrows := forall₂_mapM (P := fun u (values : List α) => values.length = (row a u).length)
    (fun u history => length_visitRow f u (row a u) history) (List.range (numNodes a)) history
  have hlengths := List.forall₂_map_left_iff.2 (List.forall₂_map_right_iff.2 hrows.flip)
  rw [List.forall₂_eq_eq_eq] at hlengths
  rw [List.length_flatten, hlengths, ← flatMap_row ha, List.length_flatMap]

theorem revalued_mapRowsM {H : Type} {a : M α} (ha : Square a)
    (f : ℕ → List ℕ → List α → StateM H (List α)) (history : H) :
    Revalued a ((mapRowsM a f).run history).1 := by
  rw [run_mapRowsM]
  exact .overwrite (length_visitRows ha f history)

omit [EdgeMatrix M] [Scalar α] [LawfulBacking M] in
theorem ensures_visited {P : M α → Prop} {visit : StateM (History σ α) (M α)}
    {history : History σ α} (h : P (visit.run history).1) :
    Ensures (visited visit history).1 P := ensures_pure h

/-- An operation gives its receiver new values, if it succeeds. -/
theorem Operation.ensures_run (op : Operation σ α) {a : M α} (ha : Square a)
    (history : History σ α) : Ensures (op.run a history).1 (Revalued a) := by
  cases op with
  | withValues f => exact ensures_visited (revalued_withValuesM a _ history)
  | map f => exact ensures_visited (revalued_withValuesM a _ history)
  | scaleRows factors =>
    exact ensures_length_mapM.bind fun values hlen => ensures_pure (.refill hlen)
  | reverse => exact ensures_pure (.refill (List.length_map _))
  | mapRows f => exact ensures_visited (revalued_mapRowsM ha _ history)

theorem ensures_zipped (f : α → α → StateM σ α) {a b : M α} (ha : Square a) (hb : Square b)
    (history : History σ α) : Ensures (zipped f a b history).1 (Revalued a) := by
  unfold zipped zipMapM
  split_ifs with hsame
  · have hpattern := ((sameLayout_iff ha hb).1 hsame).2
    have hlen := length_edges_eq hpattern
    refine ensures_visited (.refill ((length_mapM _ _ history).trans ?_))
    rw [List.length_zip, hlen, Nat.min_self]
  · exact fun _ h => nomatch h

end Steps

omit [Scalar α] in
theorem Traced.ensures_andThen {γ : Type} {x : Traced σ α β} {f : β → History σ α → Traced σ α γ}
    {P : β → Prop} {Q : γ → Prop} (h : Ensures x.1 P)
    (hf : ∀ b history, x.1 = .ok b → P b → Ensures (f b history).1 Q) :
    Ensures (x.andThen f).1 Q := by
  obtain ⟨x, history⟩ := x
  cases x with
  | ok b => exact hf b history rfl (h b rfl)
  | error e => exact fun _ h => nomatch h

namespace Derivation

variable [LawfulBacking M] {build : β → Outcome α (M α)} {P : M α → Prop}

def KeepsReceiver (build : β → Outcome α (M α)) (d : Derivation β σ α) (history : History σ α)
    (b : M α) : Prop :=
  ∀ receiver ∈ d.receiver?, ∃ a, (receiver.run build history).1 = .ok a ∧ SameGraph a b

/-- What the sources have and new values keep, every derived matrix has. -/
theorem ensures_run (hsquare : ∀ a, P a → Square a) (hstep : ∀ a b, P a → Revalued a b → P b)
    (hbuild : ∀ b, Ensures (build b) P) (d : Derivation β σ α) (history : History σ α) :
    Ensures (d.run build history).1 fun b => P b ∧ d.KeepsReceiver build history b := by
  have hkeeps : ∀ {d receiver : Derivation β σ α} {history : History σ α} {a b : M α},
      d.receiver? = some receiver → (receiver.run build history).1 = .ok a → P a → Revalued a b →
      P b ∧ d.KeepsReceiver build history b := by
    intro d receiver history a b hd hrun ha hab
    refine ⟨hstep a b ha hab, fun r hr => ?_⟩
    obtain rfl : receiver = r := by rwa [hd, Option.mem_some_iff] at hr
    exact ⟨a, hrun, hab.sameGraph (hsquare a ha)⟩
  induction d generalizing history with
  | source b => exact (hbuild b).mono fun a ha => ⟨ha, fun _ h => nomatch h⟩
  | apply op receiver ih =>
    refine Traced.ensures_andThen (ih history) fun a h hrun ha => ?_
    exact (op.ensures_run (hsquare a ha.1) h).mono fun b hab => hkeeps rfl hrun ha.1 hab
  | zipMap f receiver other ihr iho =>
    refine Traced.ensures_andThen (ihr history) fun a h hrun ha => ?_
    refine Traced.ensures_andThen (iho h) fun c h' _ hc => ?_
    exact (ensures_zipped f (hsquare a ha.1) (hsquare c hc.1) h').mono fun b hab =>
      hkeeps rfl hrun ha.1 hab

end Derivation

end NeuralFlow
