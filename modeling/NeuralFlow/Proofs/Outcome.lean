import Mathlib
import NeuralFlow.FlowError

/-! Computations that may fail. `Yields` says that one succeeds with a result of some kind, `Ensures`
only that it gives no other result, and `Agree` that two computations fail together or give related
results. What a step does, a run of the step does too. -/

namespace NeuralFlow

variable {α β γ δ ε : Type}

@[simp] theorem ok_bind (b : β) (f : β → Outcome α γ) :
    ((Except.ok b : Outcome α β) >>= f) = f b := rfl

@[simp] theorem error_bind (e : FlowError α) (f : β → Outcome α γ) :
    ((Except.error e : Outcome α β) >>= f) = .error e := rfl

/-- A computation in two steps that succeeds has succeeded in both. -/
theorem exists_of_bind_eq_ok {x : Outcome α β} {f : β → Outcome α γ} {c : γ}
    (h : (x >>= f) = .ok c) : ∃ b, x = .ok b ∧ f b = .ok c := by
  cases x with
  | error e => cases h
  | ok b => exact ⟨b, rfl, h⟩

/-- A computation succeeds, with a result that has the property. -/
def Yields (x : Outcome α β) (P : β → Prop) : Prop := ∃ b, x = .ok b ∧ P b

theorem Yields.mono {x : Outcome α β} {P Q : β → Prop} (h : Yields x P) (hpq : ∀ b, P b → Q b) :
    Yields x Q := by
  obtain ⟨b, hb, hP⟩ := h
  exact ⟨b, hb, hpq b hP⟩

theorem Yields.bind {x : Outcome α β} {f : β → Outcome α γ} {P : β → Prop} {Q : γ → Prop}
    (h : Yields x P) (hf : ∀ b, P b → Yields (f b) Q) : Yields (x >>= f) Q := by
  obtain ⟨b, rfl, hP⟩ := h
  exact hf b hP

theorem yields_pure {b : β} {P : β → Prop} (h : P b) : Yields (pure b : Outcome α β) P :=
  ⟨b, rfl, h⟩

theorem yields_orFault {cause : Fault} {o : Option β} {P : β → Prop}
    (h : ∃ b, o = some b ∧ P b) : Yields (orFault cause o : Outcome α β) P := by
  obtain ⟨b, rfl, hP⟩ := h
  exact ⟨b, rfl, hP⟩

/-- What is a size at all is the exact one. -/
theorem wordSize_eq_ok_iff {n : ℕ} {w : UInt64} :
    (wordSize n : Outcome α UInt64) = .ok w ↔ w.toNat = n := by
  unfold wordSize
  constructor
  · intro h
    split_ifs at h with hlt
    cases h
    exact UInt64.toNat_ofNat_of_lt' hlt
  · rintro rfl
    rw [if_pos w.toNat_lt_size, UInt64.ofNat_toNat]

theorem wordSize_yields {n : ℕ} (h : n < UInt64.size) :
    Yields (wordSize n : Outcome α UInt64) (·.toNat = n) :=
  ⟨.ofNat n, if_pos h, UInt64.toNat_ofNat_of_lt' h⟩

theorem wordSize_overflows {n : ℕ} (h : ¬ n < UInt64.size) :
    (wordSize n : Outcome α UInt64) = .error (.fault .overflow) := if_neg h

theorem Yields.iterate {step : β → Outcome α β} {P : β → Prop}
    (hstep : ∀ b, P b → Yields (step b) P) (k : ℕ) {b : β} (hb : P b) :
    Yields (iterate step k b) P := by
  induction k generalizing b with
  | zero => exact ⟨b, rfl, hb⟩
  | succ k ih => exact (hstep b hb).bind fun c hc => ih hc

theorem Yields.mapM {xs : List γ} {f : γ → Outcome α β} {P : β → Prop}
    (h : ∀ x ∈ xs, Yields (f x) P) :
    Yields (xs.mapM f) fun ys => ys.length = xs.length ∧ ∀ y ∈ ys, P y := by
  induction xs with
  | nil => exact ⟨[], rfl, rfl, by simp⟩
  | cons x xs ih =>
    obtain ⟨y, hy, hP⟩ := h x (by simp)
    obtain ⟨ys, hys, hlen, hall⟩ := ih fun z hz => h z (by simp [hz])
    refine ⟨y :: ys, ?_, by simp [hlen], by simpa [hP] using hall⟩
    rw [List.mapM_cons, hy, ok_bind, hys]
    rfl

theorem Yields.mapM_getElem? {xs : List γ} {f : γ → Outcome α β} {P : ℕ → β → Prop}
    (h : ∀ i x, xs[i]? = some x → Yields (f x) (P i)) :
    Yields (xs.mapM f) fun ys => ys.length = xs.length ∧ ∀ i y, ys[i]? = some y → P i y := by
  induction xs generalizing P with
  | nil => exact ⟨[], rfl, rfl, by simp⟩
  | cons x xs ih =>
    obtain ⟨y, hy, hP⟩ := h 0 x rfl
    obtain ⟨ys, hys, hlen, hall⟩ := ih (P := fun i => P (i + 1)) fun i z hz => h (i + 1) z hz
    refine ⟨y :: ys, ?_, by simp [hlen], fun i z hz => ?_⟩
    · rw [List.mapM_cons, hy, ok_bind, hys]
      rfl
    · cases i with
      | zero =>
        obtain rfl : y = z := by simpa using hz
        exact hP
      | succ i => exact hall i z (by simpa using hz)

theorem Yields.collect {f : ℕ → Outcome α β} {P : β → Prop} {first count : ℕ}
    (h : ∀ i, first ≤ i → i < first + count → Yields (f i) P) :
    Yields (collect f first count) fun bs => bs.length = count ∧ ∀ b ∈ bs, P b := by
  induction count generalizing first with
  | zero => exact ⟨[], rfl, rfl, by simp⟩
  | succ count ih =>
    obtain ⟨b, hb, hP⟩ := h first le_rfl (by omega)
    obtain ⟨bs, hbs, hlen, hall⟩ := @ih (first + 1) fun i hi hi' => h i (by omega) (by omega)
    refine ⟨b :: bs, ?_, by simp [hlen], by simpa [hP] using hall⟩
    rw [NeuralFlow.collect, hb, ok_bind, hbs]
    rfl

theorem Yields.foldlM {xs : List γ} {f : β → γ → Outcome α β} {P : List γ → β → Prop}
    (hstep : ∀ seen x b, seen ++ [x] <+: xs → P seen b → Yields (f b x) (P (seen ++ [x])))
    {b : β} (hb : P [] b) : Yields (xs.foldlM f b) (P xs) := by
  suffices h : ∀ rest seen b, seen ++ rest = xs → P seen b → Yields (rest.foldlM f b) (P xs) from
    h xs [] b rfl hb
  intro rest
  induction rest with
  | nil =>
    rintro seen b rfl hP
    exact ⟨b, rfl, by simpa using hP⟩
  | cons x rest ih =>
    intro seen b hxs hP
    have hseen : (seen ++ [x]) ++ rest = xs := by simpa using hxs
    rw [List.foldlM_cons]
    exact (hstep seen x b ⟨rest, hseen⟩ hP).bind fun c hc => ih _ c hseen hc

theorem mapM_ok {xs : List γ} {f : γ → Outcome α β} {g : γ → β}
    (h : ∀ x ∈ xs, f x = .ok (g x)) : xs.mapM f = .ok (xs.map g) := by
  induction xs with
  | nil => rfl
  | cons x xs ih =>
    rw [List.mapM_cons, h x (by simp), ih fun y hy => h y (by simp [hy])]
    rfl

/-- Every result of a computation has the property. -/
def Ensures (x : Outcome α β) (P : β → Prop) : Prop := ∀ b, x = .ok b → P b

theorem Ensures.mono {x : Outcome α β} {P Q : β → Prop} (h : Ensures x P)
    (hpq : ∀ b, P b → Q b) : Ensures x Q := fun b hb => hpq b (h b hb)

theorem Ensures.bind {x : Outcome α β} {f : β → Outcome α γ} {P : β → Prop} {Q : γ → Prop}
    (h : Ensures x P) (hf : ∀ b, P b → Ensures (f b) Q) : Ensures (x >>= f) Q := by
  intro c hc
  cases x with
  | error e => cases hc
  | ok b => exact hf b (h b rfl) c hc

/-- What follows a failure is not run. -/
theorem Ensures.bind_of_fails {x : Outcome α β} {f : β → Outcome α γ} {Q : γ → Prop}
    (h : Ensures x fun _ => False) : Ensures (x >>= f) Q :=
  h.bind fun _ hfalse => hfalse.elim

/-- A computation that succeeds has no other result. -/
theorem Yields.ensures {x : Outcome α β} {P : β → Prop} (h : Yields x P) : Ensures x P := by
  obtain ⟨b, rfl, hP⟩ := h
  rintro _ ⟨⟩
  exact hP

theorem ensures_all (x : Outcome α β) : Ensures x fun _ => True := fun _ _ => trivial

/-- A computation without results fails. -/
theorem Ensures.exists_error {x : Outcome α β} (h : Ensures x fun _ => False) :
    ∃ e, x = .error e := by
  cases x with
  | ok b => exact (h b rfl).elim
  | error e => exact ⟨e, rfl⟩

theorem ensures_pure {b : β} {P : β → Prop} (h : P b) : Ensures (pure b : Outcome α β) P := by
  intro c hc
  cases hc
  exact h

theorem ensures_throw (e : FlowError α) :
    Ensures (throw e : Outcome α β) fun _ => False := fun _ h => nomatch h

theorem ensures_wordSize (n : ℕ) : Ensures (wordSize n : Outcome α UInt64) (·.toNat = n) :=
  fun _ h => wordSize_eq_ok_iff.1 h

theorem ensures_orFault {cause : Fault} {o : Option β} {P : β → Prop}
    (h : ∀ b, o = some b → P b) : Ensures (orFault cause o : Outcome α β) P := by
  intro b hb
  cases o with
  | none => cases hb
  | some c =>
    cases hb
    exact h b rfl

theorem Ensures.mapM {xs : List γ} {f : γ → Outcome α β} {P : γ → β → Prop}
    (h : ∀ x ∈ xs, Ensures (f x) (P x)) :
    Ensures (xs.mapM f) fun ys => ∀ y ∈ ys, ∃ x, P x y := by
  induction xs with
  | nil => exact ensures_pure (by simp)
  | cons x xs ih =>
    rw [List.mapM_cons]
    refine (h x (by simp)).bind fun y hy => ?_
    refine (ih fun z hz => h z (by simp [hz])).bind fun ys hys => ensures_pure ?_
    exact List.forall_mem_cons.2 ⟨⟨x, hy⟩, hys⟩

theorem Ensures.foldlM {xs : List γ} {f : β → γ → Outcome α β} {P : β → Prop}
    (hstep : ∀ b x, P b → Ensures (f b x) P) {b : β} (hb : P b) : Ensures (xs.foldlM f b) P := by
  induction xs generalizing b with
  | nil => exact ensures_pure hb
  | cons x xs ih =>
    rw [List.foldlM_cons]
    exact (hstep b x hb).bind fun c hc => ih hc

theorem Ensures.iterate {step : β → Outcome α β} {P : β → Prop}
    (hstep : ∀ b, P b → Ensures (step b) P) (k : ℕ) {b : β} (hb : P b) :
    Ensures (NeuralFlow.iterate step k b) P := by
  induction k generalizing b with
  | zero => exact ensures_pure hb
  | succ k ih => exact (hstep b hb).bind fun c hc => ih hc

theorem ensures_length_mapM {xs : List γ} {f : γ → Outcome α β} :
    Ensures (xs.mapM f) (·.length = xs.length) := by
  induction xs with
  | nil => exact ensures_pure rfl
  | cons x xs ih =>
    rw [List.mapM_cons]
    exact (ensures_all _).bind fun y _ => ih.bind fun ys hys => ensures_pure (by simp [hys])

/-- Two computations fail together or give related results. -/
inductive Agree (R : β → γ → Prop) : Outcome α β → Outcome α γ → Prop
  | ok {b : β} {c : γ} : R b c → Agree R (.ok b) (.ok c)
  | error {e f : FlowError α} : Agree R (.error e) (.error f)

namespace Agree

theorem exists_ok_iff {R : β → γ → Prop} {x : Outcome α β} {y : Outcome α γ} (h : Agree R x y) :
    (∃ b, x = .ok b) ↔ ∃ c, y = .ok c := by
  cases h with
  | ok _ => exact ⟨fun _ => ⟨_, rfl⟩, fun _ => ⟨_, rfl⟩⟩
  | error => exact ⟨fun ⟨_, h⟩ => (nomatch h), fun ⟨_, h⟩ => (nomatch h)⟩

/-- Where the one computation succeeds, the other one does. -/
theorem yields {R : β → γ → Prop} {x : Outcome α β} {y : Outcome α γ} (h : Agree R x y) {b : β}
    (hx : x = .ok b) : Yields y (R b) := by
  subst hx
  cases h with
  | ok hR => exact ⟨_, rfl, hR⟩

theorem yields_left {R : β → γ → Prop} {x : Outcome α β} {y : Outcome α γ} (h : Agree R x y) {c : γ}
    (hy : y = .ok c) : Yields x (R · c) := by
  subst hy
  cases h with
  | ok hR => exact ⟨_, rfl, hR⟩

theorem mono {R S : β → γ → Prop} {x : Outcome α β} {y : Outcome α γ} (h : Agree R x y)
    (hrs : ∀ b c, R b c → S b c) : Agree S x y := by
  cases h with
  | ok hR => exact .ok (hrs _ _ hR)
  | error => exact .error

theorem bind {R : β → γ → Prop} {S : δ → ε → Prop} {x : Outcome α β} {y : Outcome α γ}
    {f : β → Outcome α δ} {g : γ → Outcome α ε} (h : Agree R x y)
    (hf : ∀ b c, R b c → Agree S (f b) (g c)) : Agree S (x >>= f) (y >>= g) := by
  cases h with
  | ok hR => exact hf _ _ hR
  | error => exact .error

/-- A computation agrees with itself, and its results have what it ensures. -/
theorem self {x : Outcome α β} {P : β → Prop} (h : Ensures x P) :
    Agree (fun b c => b = c ∧ P b) x x := by
  cases x with
  | ok b => exact .ok ⟨rfl, h b rfl⟩
  | error e => exact .error

theorem refl (x : Outcome α β) : Agree Eq x x := by
  cases x with
  | ok b => exact .ok rfl
  | error e => exact .error

theorem mapM {T : δ → ε → Prop} {R : β → γ → Prop} {xs : List δ} {ys : List ε}
    {f : δ → Outcome α β} {g : ε → Outcome α γ} (h : List.Forall₂ T xs ys)
    (hf : ∀ x y, T x y → Agree R (f x) (g y)) :
    Agree (List.Forall₂ R) (xs.mapM f) (ys.mapM g) := by
  induction h with
  | nil => exact .ok .nil
  | cons hxy _ ih =>
    rw [List.mapM_cons, List.mapM_cons]
    exact (hf _ _ hxy).bind fun b c hbc => ih.bind fun bs cs hbs => .ok (.cons hbc hbs)

/-- Two values that may be missing agree if they are there or missing together. -/
theorem orFault {cause : Fault} {o : Option β} {o' : Option γ} (h : o.isSome = o'.isSome) :
    Agree (fun _ _ => True) (NeuralFlow.orFault cause o : Outcome α β)
      (NeuralFlow.orFault cause o' : Outcome α γ) := by
  cases o <;> cases o' <;> first | exact .error | exact .ok trivial | simp at h

theorem orFault_rel {cause : Fault} {R : β → γ → Prop} {o : Option β} {o' : Option γ}
    (h : Option.Rel R o o') :
    Agree R (NeuralFlow.orFault cause o : Outcome α β) (NeuralFlow.orFault cause o' : Outcome α γ) := by
  cases h with
  | some hR => exact .ok hR
  | none => exact .error

theorem foldlM {T : δ → ε → Prop} {R : β → γ → Prop} {xs : List δ} {ys : List ε}
    {f : β → δ → Outcome α β} {g : γ → ε → Outcome α γ} (h : List.Forall₂ T xs ys)
    (hf : ∀ b c x y, R b c → T x y → Agree R (f b x) (g c y)) {b : β} {c : γ} (hbc : R b c) :
    Agree R (xs.foldlM f b) (ys.foldlM g c) := by
  induction h generalizing b c with
  | nil => exact .ok hbc
  | cons hxy _ ih =>
    rw [List.foldlM_cons, List.foldlM_cons]
    exact (hf _ _ _ _ hbc hxy).bind fun b' c' h' => ih h'

/-- Two computations for every element of one list. -/
theorem mapM_same {R : β → γ → Prop} (xs : List δ) {f : δ → Outcome α β} {g : δ → Outcome α γ}
    (h : ∀ x, Agree R (f x) (g x)) : Agree (List.Forall₂ R) (xs.mapM f) (xs.mapM g) := by
  have hsame : List.Forall₂ (fun x y : δ => x = y) xs xs := List.forall₂_same.2 fun _ _ => rfl
  exact mapM hsame fun x y hxy => hxy ▸ h x

theorem collect {R : β → γ → Prop} {f : ℕ → Outcome α β} {g : ℕ → Outcome α γ}
    (h : ∀ i, Agree R (f i) (g i)) (first count : ℕ) :
    Agree (List.Forall₂ R) (NeuralFlow.collect f first count)
      (NeuralFlow.collect g first count) := by
  induction count generalizing first with
  | zero => exact .ok .nil
  | succ count ih =>
    exact (h first).bind fun b c hbc => (ih (first + 1)).bind fun bs cs hbs => .ok (.cons hbc hbs)

/-- A relation for each number of steps that are left: what a step leads to has one step less. -/
theorem iterate_down {R : ℕ → β → γ → Prop} {f : β → Outcome α β} {g : γ → Outcome α γ}
    (h : ∀ k b c, R (k + 1) b c → Agree (R k) (f b) (g c)) (k : ℕ) {b : β} {c : γ} (hbc : R k b c) :
    Agree (R 0) (NeuralFlow.iterate f k b) (NeuralFlow.iterate g k c) := by
  induction k generalizing b c with
  | zero => exact .ok hbc
  | succ k ih => exact (h k b c hbc).bind fun b' c' h' => ih h'

theorem iterate {R : β → γ → Prop} {f : β → Outcome α β} {g : γ → Outcome α γ}
    (h : ∀ b c, R b c → Agree R (f b) (g c)) (k : ℕ) {b : β} {c : γ} (hbc : R b c) :
    Agree R (NeuralFlow.iterate f k b) (NeuralFlow.iterate g k c) :=
  iterate_down (R := fun _ => R) (fun _ => h) k hbc

end Agree

end NeuralFlow
