import Mathlib
import NeuralFlow.Json.Number
import NeuralFlow.Proofs.Binary.Packing
import NeuralFlow.Proofs.Decimal.Shortest

/-! Numbers in JSON text. The text of a literal is read as the literal, whatever follows; the digits of a
natural number are read as the number, and a positive decimal is written as a literal with its value. -/

namespace NeuralFlow.Json

/-! Digits and their values. -/

section Digits

variable {c : Char} {n : ℕ}

theorem isDigit_of_mem_digits (hc : c ∈ Layout.digits n) : isDigit c = true :=
  Nat.isDigit_of_mem_toDigits (by norm_num) (by norm_num) hc

theorem digits_ne_nil (n : ℕ) : Layout.digits n ≠ [] :=
  List.ne_nil_of_length_pos Nat.length_toDigits_pos

theorem isDigit_of_mem_replicate {k : ℕ} (hc : c ∈ List.replicate k '0') : isDigit c = true := by
  rw [List.eq_of_mem_replicate hc]
  decide

def valueFrom (n : ℕ) (cs : List Char) : ℕ := cs.foldl (fun n c => n * 10 + digitValue c) n

@[simp] theorem valueFrom_nil (n : ℕ) : valueFrom n [] = n := rfl

@[simp] theorem valueFrom_cons (n : ℕ) (c : Char) (cs : List Char) :
    valueFrom n (c :: cs) = valueFrom (n * 10 + digitValue c) cs := by
  simp only [valueFrom, List.foldl_cons]

theorem valueFrom_append (n : ℕ) (cs ds : List Char) :
    valueFrom n (cs ++ ds) = valueFrom (valueFrom n cs) ds :=
  List.foldl_append

theorem valueFrom_replicate_zero (n k : ℕ) : valueFrom n (List.replicate k '0') = n * 10 ^ k := by
  induction k generalizing n with
  | zero => simp
  | succ k ih =>
    rw [List.replicate_succ, valueFrom_cons, ih, show digitValue '0' = 0 from rfl, pow_succ]
    ring

theorem valueFrom_digits (n : ℕ) : valueFrom 0 (Layout.digits n) = n := by
  have h := Nat.ofDigitChars_toDigits (b := 10) (n := n) (by norm_num) (by norm_num)
  rw [Nat.ofDigitChars_eq_foldl] at h
  simpa only [valueFrom, digitValue, Nat.mul_comm, Layout.digits] using h

/-- A positive number has no leading zero. -/
theorem head_digits (hn : 0 < n) : ∃ c cs, Layout.digits n = c :: cs ∧ c ≠ '0' := by
  induction n using Nat.strong_induction_on with
  | _ n ih =>
    rw [Layout.digits, Nat.toDigits_eq_if (by norm_num)]
    split_ifs with hlt
    · refine ⟨_, [], rfl, ?_⟩
      interval_cases n <;> decide
    · obtain ⟨c, cs, hcs, hc⟩ := ih (n / 10) (by omega) (by omega)
      rw [Layout.digits] at hcs
      exact ⟨c, cs ++ [(n % 10).digitChar], by rw [hcs, List.cons_append], hc⟩

theorem lt_ten_pow_length_digits (n : ℕ) : n < 10 ^ (Layout.digits n).length :=
  (Nat.length_toDigits_le_iff (by norm_num) Nat.length_toDigits_pos).1 le_rfl

end Digits

/-! The parts of a literal. -/

def NoDigit (s : List Char) : Prop := ∀ c ∈ s.head?, isDigit c = false

def NoPoint (s : List Char) : Prop := ∀ c ∈ s.head?, c ≠ '.'

/-- A text that does not go on with a part of a literal. -/
def Ends (s : List Char) : Prop := ∀ c ∈ s.head?, isDigit c = false ∧ c ≠ '.' ∧ c ≠ 'e' ∧ c ≠ 'E'

theorem ends_nil : Ends [] := nofun

/-- Digits before the point, of which the first is not zero, or a single zero. -/
structure Whole (ds : List Char) : Prop where
  ne_nil : ds ≠ []
  digit : ∀ c ∈ ds, isDigit c = true
  zero : ds.head? = some '0' → ds = ['0']

namespace Literal

def fractionChars (ds : List Char) : List Char := if ds = [] then [] else '.' :: ds

def exponentChars : Option ℤ → List Char
  | none => []
  | some e => 'e' :: (if e < 0 then '-' else '+') :: Layout.digits e.natAbs

def chars (l : Literal) : List Char := l.whole ++ fractionChars l.fraction ++ exponentChars l.exponent

structure Proper (l : Literal) : Prop where
  whole : Whole l.whole
  fraction : ∀ c ∈ l.fraction, isDigit c = true

end Literal

open Literal

section Parts

variable {ds s : List Char} {n k : ℕ}

theorem takeWhile_isDigit (hds : ∀ c ∈ ds, isDigit c = true) (hs : NoDigit s) :
    (ds ++ s).takeWhile isDigit = ds := by
  rw [List.takeWhile_append_of_pos hds]
  cases s with
  | nil => simp
  | cons c s => simp [hs c rfl]

theorem dropWhile_isDigit (hds : ∀ c ∈ ds, isDigit c = true) (hs : NoDigit s) :
    (ds ++ s).dropWhile isDigit = s := by
  rw [List.dropWhile_append_of_pos hds]
  cases s with
  | nil => rfl
  | cons c s => simp [hs c rfl]

theorem whole_digits (n : ℕ) : Whole (Layout.digits n) where
  ne_nil := digits_ne_nil n
  digit _ := isDigit_of_mem_digits
  zero h := by
    rcases Nat.eq_zero_or_pos n with rfl | hn
    · rfl
    · obtain ⟨c, cs, hcs, hc⟩ := head_digits hn
      rw [hcs] at h
      exact absurd (Option.some.inj h) hc

theorem whole_take (hn : 0 < n) (hk : 0 < k) : Whole ((Layout.digits n).take k) := by
  obtain ⟨c, cs, hcs, hc⟩ := head_digits hn
  obtain ⟨k, rfl⟩ := Nat.exists_eq_succ_of_ne_zero hk.ne'
  refine ⟨by simp [hcs], fun b hb => isDigit_of_mem_digits (List.mem_of_mem_take hb), fun h => ?_⟩
  rw [hcs] at h
  exact absurd (Option.some.inj h) hc

theorem whole_padded (hn : 0 < n) (k : ℕ) : Whole (Layout.digits n ++ List.replicate k '0') := by
  obtain ⟨c, cs, hcs, hc⟩ := head_digits hn
  refine ⟨by simp [digits_ne_nil], fun b hb => (List.mem_append.1 hb).elim isDigit_of_mem_digits
    isDigit_of_mem_replicate, fun h => ?_⟩
  rw [hcs] at h
  exact absurd (Option.some.inj h) hc

theorem readIntegerDigits_append (hds : Whole ds) (hs : NoDigit s) :
    readIntegerDigits (ds ++ s) = .ok (ds, s) := by
  have htake := takeWhile_isDigit hds.digit hs
  have hdrop := dropWhile_isDigit hds.digit hs
  obtain ⟨c, cs, rfl⟩ := List.exists_cons_of_ne_nil hds.ne_nil
  have hc := hds.digit c (by simp)
  have hzero := hds.zero
  by_cases hc0 : c = '0'
  · subst hc0
    obtain rfl : cs = [] := by simpa using hzero rfl
    cases s with
    | nil => simp [readIntegerDigits, isDigit]
    | cons b s => simp [readIntegerDigits, hs b rfl]
  · simp only [List.cons_append] at htake hdrop ⊢
    rw [readIntegerDigits]
    · simp only [hc, if_true, htake, hdrop]
    · rintro b t rfl
      exact fun _ => hc0 rfl

theorem readFraction_append (hds : ∀ c ∈ ds, isDigit c = true) (hs : NoDigit s) (hpoint : NoPoint s) :
    readFraction (fractionChars ds ++ s) = .ok (ds, s) := by
  have htake := takeWhile_isDigit hds hs
  have hdrop := dropWhile_isDigit hds hs
  cases ds with
  | nil =>
    rw [fractionChars, if_pos rfl, List.nil_append, readFraction]
    rintro t rfl
    exact hpoint '.' rfl rfl
  | cons c cs =>
    simp only [List.cons_append] at htake hdrop
    simp [fractionChars, readFraction, readFractionDigits, hds c (by simp), htake, hdrop]

theorem readExponent_append (e : Option ℤ) (hs : Ends s) :
    readExponent (exponentChars e ++ s) = .ok (e, s) := by
  cases e with
  | none =>
    rw [exponentChars, List.nil_append, readExponent]
    · rintro t rfl
      exact (hs 'e' rfl).2.2.1 rfl
    · rintro t rfl
      exact (hs 'E' rfl).2.2.2 rfl
  | some e =>
    have hdigit := fun c => isDigit_of_mem_digits (n := e.natAbs) (c := c)
    have htake := takeWhile_isDigit hdigit fun c hc => (hs c hc).1
    have hdrop := dropWhile_isDigit hdigit fun c hc => (hs c hc).1
    have hvalue : digitsValue (Layout.digits e.natAbs) = e.natAbs := valueFrom_digits _
    obtain ⟨c, cs, hcs⟩ := List.exists_cons_of_ne_nil (digits_ne_nil e.natAbs)
    rw [hcs] at htake hdrop hvalue hdigit
    simp only [List.cons_append] at htake hdrop
    simp only [exponentChars, hcs, List.cons_append, readExponent]
    split_ifs with hneg
    · simp only [readExponentDigits, hdigit c (by simp), if_true, htake, hdrop, hvalue, bind,
        Except.bind, pure, Except.pure]
      rw [Int.ofNat_natAbs_of_nonpos hneg.le, neg_neg]
    · simp only [readExponentDigits, hdigit c (by simp), if_true, htake, hdrop, hvalue,
        Bool.false_eq_true, if_false, bind, Except.bind, pure, Except.pure]
      rw [Int.natAbs_of_nonneg (not_lt.1 hneg)]

end Parts

/-! Whole literals. -/

def minusChars (minus : Bool) : List Char := if minus then ['-'] else []

/-- A text that is read as a literal with or without a minus, whatever follows. -/
def Lexes (text : List Char) (minus : Bool) (l : Literal) : Prop :=
  ∀ rest, Ends rest → readSigned (text ++ rest) = .ok ((minus, l), rest)

section Whole

variable {l : Literal} {s : List Char}

theorem Literal.Proper.readLiteral_chars (h : l.Proper) (hs : Ends s) :
    readLiteral (l.chars ++ s) = .ok (l, s) := by
  have hexponent : NoDigit (exponentChars l.exponent ++ s) ∧
      NoPoint (exponentChars l.exponent ++ s) := by
    cases l.exponent with
    | none => exact ⟨fun c hc => (hs c hc).1, fun c hc => (hs c hc).2.1⟩
    | some e =>
      constructor
      all_goals
        rintro c ⟨⟩
        decide
  have hfraction : NoDigit (fractionChars l.fraction ++ (exponentChars l.exponent ++ s)) := by
    by_cases hnil : l.fraction = []
    · simpa [fractionChars, hnil] using hexponent.1
    · rw [fractionChars, if_neg hnil]
      rintro c ⟨⟩
      decide
  rw [Literal.chars, List.append_assoc, List.append_assoc]
  simp only [readLiteral, readIntegerDigits_append h.whole hfraction,
    readFraction_append h.fraction hexponent.1 hexponent.2, readExponent_append l.exponent hs, bind,
    Except.bind, pure, Except.pure]

theorem Literal.Proper.lexes (h : l.Proper) (minus : Bool) :
    Lexes (minusChars minus ++ l.chars) minus l := by
  intro rest hrest
  have hread := h.readLiteral_chars hrest
  cases minus with
  | true =>
    simp only [minusChars, if_true, List.cons_append, List.nil_append, readSigned, hread, bind,
      Except.bind, pure, Except.pure]
  | false =>
    -- a digit comes first, and no minus
    obtain ⟨c, cs, hwhole⟩ := List.exists_cons_of_ne_nil h.whole.ne_nil
    have hc : c ≠ '-' := by
      rintro rfl
      exact absurd (h.whole.digit '-' (by simp [hwhole])) (by decide)
    obtain ⟨tail, htail⟩ : ∃ tail, l.chars ++ rest = c :: tail := ⟨_, by simp [chars, hwhole]; rfl⟩
    rw [htail] at hread
    rw [minusChars, if_neg Bool.false_ne_true, List.nil_append, htail]
    simp [readSigned, hc, hread, bind, Except.bind, pure, Except.pure]

end Whole

/-! Values of literals. -/

namespace Literal

def word (l : Literal) : ℕ := digitsValue (l.whole ++ l.fraction)

def scale (l : Literal) : ℤ := l.exponent.getD 0 - l.fraction.length

def value (l : Literal) : ℚ := l.word * 10 ^ l.scale

def Fractional (l : Literal) : Prop := l.fraction ≠ [] ∨ l.exponent ≠ none

theorem Fractional.integer?_eq_none {l : Literal} (h : l.Fractional) (minus : Bool) :
    l.integer? minus = none := by
  obtain ⟨whole, fraction, exponent⟩ := l
  cases fraction with
  | cons c cs => rfl
  | nil =>
    cases exponent with
    | some e => rfl
    | none => exact (h.elim (· rfl) (· rfl)).elim

/-- The literals of a decimal: its digits and its exponent, or, if it is whole and not too large, all
digits and a zero after the point. -/
def Spells (l : Literal) (d : Decimal) : Prop :=
  (l.word = d.digits ∧ l.scale = d.exponent) ∨
  (0 ≤ d.exponent ∧ d.digits * 10 ^ (d.exponent.toNat + 1) < 2 ^ 53 ∧
    l.word = d.digits * 10 ^ (d.exponent.toNat + 1) ∧ l.scale = -1)

theorem Spells.value_eq {l : Literal} {d : Decimal} (h : l.Spells d) : l.value = d.value := by
  rcases h with ⟨hword, hscale⟩ | ⟨hwhole, -, hword, hscale⟩
  · rw [value, Decimal.value, hword, hscale]
  · rw [value, Decimal.value, hword, hscale]
    obtain ⟨k, hk⟩ : ∃ k : ℕ, d.exponent = k := ⟨d.exponent.toNat, by omega⟩
    rw [hk, Int.toNat_natCast, zpow_natCast, pow_succ]
    push_cast
    rw [zpow_neg_one]
    ring

end Literal

/-! Decimals. -/

section Decimals

variable {d : Decimal}

/-- A decimal with a point between its digits. -/
theorem exists_literal_split (hd : 0 < d.digits) {k : ℕ} (hk : 0 < k)
    (hsplit : k < (Layout.digits d.digits).length)
    (hexp : d.exponent = k - (Layout.digits d.digits).length) :
    ∃ l : Literal, l.Proper ∧ l.Fractional ∧ l.Spells d ∧
      Layout.jsonSingle.pointed (Layout.digits d.digits) k = l.chars := by
  have hfraction : (Layout.digits d.digits).drop k ≠ [] := by simpa using hsplit
  refine ⟨⟨(Layout.digits d.digits).take k, (Layout.digits d.digits).drop k, none⟩,
    ⟨whole_take hd hk, fun c hc => isDigit_of_mem_digits (List.mem_of_mem_drop hc)⟩,
    Or.inl hfraction, Or.inl ⟨?_, ?_⟩, ?_⟩
  · rw [word, List.take_append_drop]
    exact valueFrom_digits _
  · rw [scale, List.length_drop, Nat.cast_sub hsplit.le, hexp]
    simp
  · simp only [Layout.pointed, chars, fractionChars, exponentChars, if_neg hfraction, if_pos hsplit,
      List.append_nil]

/-- A decimal with zeros between its digits and the point. -/
theorem exists_literal_padded (hd : 0 < d.digits) {k : ℕ} (hk : k ≤ 13)
    (hpadded : ¬ k < (Layout.digits d.digits).length)
    (hexp : d.exponent = k - (Layout.digits d.digits).length) :
    ∃ l : Literal, l.Proper ∧ l.Fractional ∧ l.Spells d ∧
      Layout.jsonSingle.pointed (Layout.digits d.digits) k = l.chars := by
  have hroom : d.digits * 10 ^ (d.exponent.toNat + 1) < 2 ^ 53 := by
    calc d.digits * 10 ^ (d.exponent.toNat + 1)
        < 10 ^ (Layout.digits d.digits).length * 10 ^ (d.exponent.toNat + 1) := by
          gcongr
          exact lt_ten_pow_length_digits _
      _ = 10 ^ ((Layout.digits d.digits).length + (d.exponent.toNat + 1)) := (pow_add _ _ _).symm
      _ ≤ 10 ^ 14 := Nat.pow_le_pow_right (by norm_num) (by omega)
      _ < 2 ^ 53 := by norm_num
  refine ⟨⟨Layout.digits d.digits ++ List.replicate d.exponent.toNat '0', ['0'], none⟩,
    ⟨whole_padded hd _, by simp [isDigit]⟩, Or.inl (by simp),
    Or.inr ⟨by omega, hroom, ?_, rfl⟩, ?_⟩
  · change valueFrom 0 _ = _
    rw [valueFrom_append, valueFrom_append, valueFrom_digits, valueFrom_replicate_zero,
      show ['0'] = List.replicate 1 '0' from rfl, valueFrom_replicate_zero]
    ring
  · rw [Layout.pointed, if_neg hpadded,
      show k - (Layout.digits d.digits).length = d.exponent.toNat by omega]
    simp [chars, fractionChars, exponentChars, Layout.jsonSingle]

/-- A decimal with a point after its `k`th digit. -/
theorem exists_literal_pointed (hd : 0 < d.digits) {k : ℕ} (hk : 0 < k) (hk13 : k ≤ 13)
    (hexp : d.exponent = k - (Layout.digits d.digits).length) :
    ∃ l : Literal, l.Proper ∧ l.Fractional ∧ l.Spells d ∧
      Layout.jsonSingle.pointed (Layout.digits d.digits) k = l.chars := by
  by_cases hsplit : k < (Layout.digits d.digits).length
  · exact exists_literal_split hd hk hsplit hexp
  · exact exists_literal_padded hd hk13 hsplit hexp

/-- A decimal with its leading digit before the point. -/
theorem exists_literal_scientific (hd : 0 < d.digits) {lead : ℤ}
    (hlead : d.exponent + (Layout.digits d.digits).length - 1 = lead) :
    ∃ l : Literal, l.Proper ∧ l.Fractional ∧ l.Spells d ∧
      (if (Layout.digits d.digits).length = 1 then Layout.digits d.digits
        else (Layout.digits d.digits).take 1 ++ '.' :: (Layout.digits d.digits).drop 1) ++
          'e' :: (if lead < 0 then '-' else '+') :: Layout.digits lead.natAbs = l.chars := by
  have hpos : 0 < (Layout.digits d.digits).length := Nat.length_toDigits_pos
  by_cases hone : (Layout.digits d.digits).length = 1
  · refine ⟨⟨Layout.digits d.digits, [], some lead⟩, ⟨whole_digits _, nofun⟩, Or.inr nofun,
      Or.inl ⟨?_, ?_⟩, ?_⟩
    · rw [word, List.append_nil]
      exact valueFrom_digits _
    · simp only [scale, Option.getD_some, List.length_nil]
      omega
    · simp [chars, fractionChars, exponentChars, if_pos hone]
  · have hfraction : (Layout.digits d.digits).drop 1 ≠ [] := by
      rw [ne_eq, List.drop_eq_nil_iff]
      omega
    refine ⟨⟨(Layout.digits d.digits).take 1, (Layout.digits d.digits).drop 1, some lead⟩,
      ⟨whole_take hd one_pos, fun c hc => isDigit_of_mem_digits (List.mem_of_mem_drop hc)⟩,
      Or.inl hfraction, Or.inl ⟨?_, ?_⟩, ?_⟩
    · rw [word, List.take_append_drop]
      exact valueFrom_digits _
    · simp only [scale, Option.getD_some, List.length_drop]
      omega
    · simp only [chars, fractionChars, exponentChars, if_neg hone, if_neg hfraction]

/-- A positive decimal is written as a literal with its value. -/
theorem exists_literal_decimal (hd : 0 < d.digits) : ∃ l : Literal, l.Proper ∧ l.Fractional ∧
    l.Spells d ∧ Layout.jsonSingle.decimal d = l.chars := by
  obtain ⟨lead, hlead⟩ : ∃ lead : ℤ, d.exponent + (Layout.digits d.digits).length - 1 = lead :=
    ⟨_, rfl⟩
  simp only [Layout.decimal, hlead]
  by_cases hpositional : Layout.jsonSingle.positional lead = true
  · have hlead12 : lead ≤ 12 := by
      simp only [Layout.jsonSingle, decide_eq_true_eq] at hpositional
      exact hpositional.2
    rw [if_pos hpositional]
    by_cases hsmall : lead < 0
    · rw [if_pos hsmall]
      refine ⟨⟨['0'], List.replicate (-lead - 1).toNat '0' ++ Layout.digits d.digits, none⟩,
        ⟨whole_digits 0, fun c hc => (List.mem_append.1 hc).elim isDigit_of_mem_replicate
          isDigit_of_mem_digits⟩, Or.inl (by simp [digits_ne_nil]), Or.inl ⟨?_, ?_⟩, ?_⟩
      · change valueFrom 0 _ = _
        rw [valueFrom_append, valueFrom_append, valueFrom_replicate_zero,
          show valueFrom 0 ['0'] = 0 from rfl, Nat.zero_mul, valueFrom_digits]
      · simp only [scale, Option.getD_none, List.length_append, List.length_replicate]
        omega
      · simp [chars, fractionChars, exponentChars, digits_ne_nil]
    · rw [if_neg hsmall]
      exact exists_literal_pointed hd (Nat.succ_pos lead.toNat) (by omega) (by push_cast; omega)
  · rw [if_neg hpositional]
    exact exists_literal_scientific hd hlead

end Decimals

/-! Single precision numbers. -/

section Single

open Float.Model.UnpackedFloat Binary

variable {x : Float32} {s : Sign} {m : ℕ} {q : ℤ} {hm : 0 < m}

theorem sign_eq_minusChars (s : Sign) : Layout.sign s = minusChars (s == .negative) := by
  cases s <;> rfl

theorem lexes_zero (h : x.toModel.unpack = .zero s) :
    Lexes (Layout.jsonSingleChars x) (s == .negative) ⟨['0'], ['0'], none⟩ := by
  have hproper : Literal.Proper ⟨['0'], ['0'], none⟩ := ⟨whole_digits 0, by simp [isDigit]⟩
  rw [Layout.jsonSingleChars, h, Layout.chars, sign_eq_minusChars]
  exact hproper.lexes _

/-- A number is written as a literal of its shortest decimal. -/
theorem exists_lexes_single (h : x.toModel.unpack = .finite s m q hm) :
    ∃ l : Literal, Lexes (Layout.jsonSingleChars x) (s == .negative) l ∧ l.Fractional ∧
      l.Spells ((Decimal.Interval.ofBinary .binary32 m q).shortest .evenDigit) := by
  obtain ⟨hc, hq, -⟩ := of_unpack_eq_finite (by decide) h
  have hfound := (Decimal.closest_shortest hc hq .evenDigit).found hc
  obtain ⟨l, hproper, hfraction, hspells, hchars⟩ := exists_literal_decimal hfound.pos
  refine ⟨l, ?_, hfraction, hspells⟩
  have hlayout : Layout.jsonSingle.format = .binary32 ∧ Layout.jsonSingle.tie = .evenDigit :=
    ⟨rfl, rfl⟩
  rw [Layout.jsonSingleChars, h, Layout.chars, sign_eq_minusChars, hlayout.1, hlayout.2, hchars]
  exact hproper.lexes _

end Single

/-! Values that are read back. -/

/-- The reader takes the written form off a text, with blanks before it, and gives the value. -/
def Reads {β : Type} (reader : Reader β) (written : List Char) (x : β) : Prop :=
  ∀ s rest, Ends rest → dropBlank s = written ++ rest → reader s = .ok (x, rest)

section Format

variable {format : NumberFormat} {s text rest : List Char} {minus : Bool} {l : Literal}
  {number : Number}

/-- Every number starts with a minus or a digit. -/
theorem startsNumber_of_readSigned {c : Char} {result : (Bool × Literal) × List Char}
    (h : readSigned (c :: s) = .ok result) : startsNumber c = true := by
  by_contra hstart
  simp only [startsNumber, Bool.or_eq_true, beq_iff_eq, not_or] at hstart
  obtain ⟨hminus, hdigit⟩ := hstart
  have hzero : c ≠ '0' := by
    rintro rfl
    exact hdigit rfl
  simp [readSigned, readLiteral, readIntegerDigits, hminus, hdigit, hzero, bind, Except.bind] at h

theorem Lexes.readNumberFor_eq (h : Lexes text minus l)
    (hnumber : numberOf format minus l = .ok number) (wanted : String) (hrest : Ends rest)
    (hs : dropBlank s = text ++ rest) : readNumberFor format wanted s = .ok (number, rest) := by
  have hread := h rest hrest
  obtain ⟨t, ht⟩ : ∃ t, text ++ rest = t := ⟨_, rfl⟩
  rw [ht] at hread hs
  cases t with
  | nil => cases hread
  | cons c t =>
    simp only [readNumberFor, hs, startsNumber_of_readSigned hread, if_true, readNumber, hread, hnumber,
      bind, Except.bind, pure, Except.pure]

theorem lexes_digits (n : ℕ) : Lexes (Layout.digits n) false ⟨Layout.digits n, [], none⟩ := by
  have h : Literal.Proper ⟨Layout.digits n, [], none⟩ := ⟨whole_digits n, nofun⟩
  simpa [minusChars, chars, fractionChars, exponentChars] using h.lexes false

theorem readNatBelow_eq {bound n : ℕ} {wanted : String} (hn : n < UInt64.size)
    (hbound : n < bound) (hrest : Ends rest) (hs : dropBlank s = Layout.digits n ++ rest) :
    readNatBelow format bound wanted s = .ok (n, rest) := by
  have hvalue : digitsValue (Layout.digits n) = n := valueFrom_digits n
  have hnumber : numberOf format false ⟨Layout.digits n, [], none⟩ = .ok (.integer n) := by
    simp only [numberOf, integer?, hvalue, hn, if_true]
  simp only [readNatBelow, (lexes_digits n).readNumberFor_eq hnumber wanted hrest hs, bind,
    Except.bind]
  rw [if_pos ⟨Int.natCast_nonneg n, by exact_mod_cast hbound⟩]
  rfl

theorem reads_nat {bound n : ℕ} (wanted : String) (hn : n < UInt64.size) (hbound : n < bound) :
    Reads (readNatBelow format bound wanted) (Layout.digits n) n :=
  fun _ _ hrest hs => readNatBelow_eq hn hbound hrest hs

theorem reads_size (n : UInt64) : Reads (readSize format) (Layout.digits n.toNat) n := by
  intro s rest hrest hs
  simp only [readSize, readNatBelow_eq n.toNat_lt_size n.toNat_lt_size hrest hs, bind, Except.bind,
    pure, Except.pure, UInt64.ofNat_toNat]

theorem reads_seed (n : UInt64) : Reads (readSeed format) (Layout.digits n.toNat) n := by
  intro s rest hrest hs
  simp only [readSeed, readNatBelow_eq n.toNat_lt_size n.toNat_lt_size hrest hs, bind, Except.bind,
    pure, Except.pure, UInt64.ofNat_toNat]

theorem reads_code (n : UInt32) : Reads (readCode format) (Layout.digits n.toNat) n := by
  intro s rest hrest hs
  have hn : n.toNat < UInt64.size := n.toNat_lt_size.trans (by decide)
  simp only [readCode, readNatBelow_eq hn n.toNat_lt_size hrest hs, bind, Except.bind, pure,
    Except.pure, UInt32.ofNat_toNat]

/-- The first number is written as a literal that is read as the second. -/
def Rereads (format : NumberFormat) (x y : Float32) : Prop :=
  ∃ minus l z, Lexes (format.write x) minus l ∧ l.Fractional ∧ format.read l = some z ∧
    Single.ofDouble (if minus then -z else z) = y

theorem Rereads.reads {x y : Float32} (h : Rereads format x y) :
    Reads (readSingle format) (format.write x) y := by
  intro s rest hrest hs
  obtain ⟨minus, l, z, hlexes, hfraction, hread, hy⟩ := h
  have hnumber : numberOf format minus l = .ok (.float (if minus then -z else z)) := by
    simp only [numberOf, hfraction.integer?_eq_none, hread]
  simp only [readSingle, hlexes.readNumberFor_eq hnumber "f32" hrest hs, Number.toSingle, hy, bind,
    Except.bind, pure, Except.pure]

end Format

end NeuralFlow.Json
