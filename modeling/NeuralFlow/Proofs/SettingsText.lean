import Mathlib
import NeuralFlow.Settings.Text
import NeuralFlow.Proofs.Json.NumberFormat
import NeuralFlow.Proofs.Json.QuickFormat
import NeuralFlow.Proofs.Json.Record
import NeuralFlow.Proofs.Settings

/-! Valid settings survive their text up to what the number format makes of the single precision numbers
in them: all other fields are read back by any format. -/

namespace NeuralFlow

open Json

variable {format : NumberFormat}

theorem HeadMerge.reads (merge : HeadMerge) :
    Reads (readVariant format HeadMerge.variants) (Tree.quotedName merge.word) merge := by
  cases merge <;> exact reads_variant (by simp [Plain, HeadMerge.word]) rfl

theorem ScorePairing.reads (pairing : ScorePairing) :
    Reads (readVariant format ScorePairing.variants) (Tree.quotedName pairing.word) pairing := by
  cases pairing <;> exact reads_variant (by simp [Plain, ScorePairing.word]) rfl

theorem CostFamily.reads (family : CostFamily) :
    Reads (readVariant format CostFamily.variants) (Tree.quotedName family.name) family := by
  cases family <;> exact reads_variant (by simp [Plain, CostFamily.name]) rfl

namespace CostFunction

theorem Field.mem_all (f : Field) : f ∈ [name, constant] := by cases f <;> decide

def withConstant (cost : CostFunction Float32) (x : Float32) : CostFunction Float32 :=
  { cost with constant := x }

theorem faithful {cost : CostFunction Float32} {x : Float32} (hx : Rereads format cost.constant x)
    (depth : ℕ) :
    (schema format).Faithful
      (fun f => ((schema format).write f ((schema format).get cost f)).prettyChars depth)
      (cost.withConstant x) where
  ne_nil := List.cons_ne_nil _ _
  complete := Field.mem_all
  plain f := by cases f <;> simp [Plain, schema]
  distinct := (by decide +kernel : ["name", "constant"].Nodup)
  build_get := rfl
  reads
    | .name => cost.family.reads
    | .constant => hx.reads
  solid
    | .name => solid_quotedName _
    | .constant => hx.solid

end CostFunction

namespace Settings

def singles (c : Settings Float32) : List Float32 :=
  [c.dualStep, c.dualMomentum, c.epsilon, c.cost.constant]

def mapSingles (r : Float32 → Float32) (c : Settings Float32) : Settings Float32 :=
  { c with
    dualStep := r c.dualStep
    dualMomentum := r c.dualMomentum
    epsilon := r c.epsilon
    cost := c.cost.withConstant (r c.cost.constant) }

theorem single_le_of_lt {x y : Float32} (h : x < y) : x ≤ y := by
  replace h : x.toModel.unpack.lt y.toModel.unpack = true := of_decide_eq_true h
  refine decide_eq_true (?_ : x.toModel.unpack.le y.toModel.unpack = true)
  rw [Float.Model.UnpackedFloat.lt, beq_iff_eq] at h
  rw [Float.Model.UnpackedFloat.le, h]
  rfl

/-- A number between zero and one is finite. -/
theorem isFinite_of_between {x : Float32} (h0 : 0 ≤ x) (h1 : x < 1) : x.isFinite = true := by
  have hzero : (0 : Float32).toModel.unpack = .zero .positive := rfl
  have hone : (1 : Float32).toModel.unpack = .finite .positive 8388608 (-23) (by norm_num) := rfl
  replace h0 : (0 : Float32).toModel.unpack.le x.toModel.unpack = true := of_decide_eq_true h0
  replace h1 : x.toModel.unpack.lt (1 : Float32).toModel.unpack = true := of_decide_eq_true h1
  rw [hzero] at h0
  rw [hone] at h1
  rw [Float32.isFinite, Float32.Model.isFinite]
  cases hx : x.toModel.unpack with
  | notANumber =>
    rw [hx] at h1
    cases h1
  | infinity sign =>
    rw [hx] at h0 h1
    cases sign
    · cases h0
    · cases h1
  | zero sign => rfl
  | finite sign m q hm => rfl

/-- The single precision numbers of valid settings are finite. -/
theorem isFinite_of_validate {c : Settings Float32} (h : c.validate = .ok ()) :
    ∀ x ∈ c.singles, x.isFinite = true := by
  have hvalid := (c.validate_eq_ok_iff).1 h
  have hcost := hvalid.cost
  rw [CostFunction.validate] at hcost
  split_ifs at hcost with hconstant
  have hfinite : Scalar.isFinite c.cost.constant = true := by simpa using (not_or.1 hconstant).1
  simp only [singles, List.forall_mem_cons]
  exact ⟨hvalid.step.1, isFinite_of_between hvalid.momentum.1 hvalid.momentum.2,
    isFinite_of_between (single_le_of_lt hvalid.epsilon.1) hvalid.epsilon.2, hfinite, nofun⟩

theorem reads_sizes (ns : List UInt64) (depth : ℕ) :
    Reads (readList format (readSize format))
      ((Tree.list (ns.map fun n => .nat n.toNat)).prettyChars depth) ns := by
  rw [Tree.prettyChars_list, List.map_map]
  exact reads_list (blank_newLine _) (blank_newLine _) (fun n _ => reads_size n)
    fun n _ => solid_digits n.toNat

theorem Field.mem_all (f : Field) : f ∈ all := by cases f <;> decide

theorem Field.plain_name (f : Field) : Plain f.name.toList := by cases f <;> simp [Plain, name]

section Fields

variable {c : Settings Float32} {r : Float32 → Float32}
  (hsingles : ∀ x ∈ c.singles, Rereads format x (r x))

include hsingles

/-- Every field is read as the mapped settings have it. -/
theorem Field.reads (f : Field) (depth : ℕ) :
    Reads (f.read format) ((f.write format (f.get c)).prettyChars depth) (f.get (c.mapSingles r)) := by
  simp only [singles, List.forall_mem_cons] at hsingles
  obtain ⟨hstep, hmomentum, hepsilon, hcost, -⟩ := hsingles
  cases f with
  | sparse | distinctHops | useSparsemax | useCapacities | cancelReciprocal => exact reads_bool _
  | rounds | heads | encodingWidth | embeddingWidth | featureWidth | maxHop | flowRounds
  | dualRounds =>
    exact reads_size _
  | seed => exact reads_seed _
  | headMerge => exact c.headMerge.reads
  | encoderHidden | decoderHidden => exact reads_sizes _ depth
  | dualStep => exact hstep.reads
  | dualMomentum => exact hmomentum.reads
  | epsilon => exact hepsilon.reads
  | pairing => exact c.pairing.reads
  | cost =>
    change Reads _ (((CostFunction.schema format).tree c.cost).prettyChars depth) _
    rw [Schema.prettyChars_tree]
    exact (CostFunction.faithful hcost (depth + 1)).reads_record format (blank_newLine _)
      (blank_newLine _) blank_space

theorem Field.solid (f : Field) (depth : ℕ) :
    Solid ((f.write format (f.get c)).prettyChars depth) := by
  simp only [singles, List.forall_mem_cons] at hsingles
  obtain ⟨hstep, hmomentum, hepsilon, hcost, -⟩ := hsingles
  cases f with
  | sparse | distinctHops | useSparsemax | useCapacities | cancelReciprocal => exact solid_bool _
  | rounds | heads | encodingWidth | embeddingWidth | featureWidth | maxHop | flowRounds | dualRounds
  | seed =>
    exact solid_digits _
  | headMerge | pairing => exact solid_quotedName _
  | encoderHidden | decoderHidden =>
    simp only [Field.write, Tree.prettyChars_list]
    exact solid_list _ _ _
  | dualStep => exact hstep.solid
  | dualMomentum => exact hmomentum.solid
  | epsilon => exact hepsilon.solid
  | cost =>
    change Solid (((CostFunction.schema format).tree c.cost).prettyChars depth)
    rw [Schema.prettyChars_tree]
    exact Schema.solid_recordChars ..

theorem faithful : (schema format).Faithful
    (fun f => ((schema format).write f ((schema format).get c f)).prettyChars 1) (c.mapSingles r) where
  ne_nil := List.cons_ne_nil _ _
  complete := Field.mem_all
  plain := Field.plain_name
  distinct := (by decide +kernel : (Field.all.map Field.name).Nodup)
  build_get := rfl
  reads f := Field.reads hsingles f 1
  solid f := Field.solid hsingles f 1

/-- Settings are read back up to what becomes of their single precision numbers. -/
theorem parse_render_map (hvalid : (c.mapSingles r).validate = .ok ()) :
    parse format (c.render format) = .ok (c.mapSingles r) := by
  have hread := (faithful hsingles).parse format (blank_newLine 1) (blank_newLine 0) blank_space
  rw [← Schema.prettyChars_tree] at hread
  simp only [parse, render, Tree.pretty, hread, hvalid]
  rfl

end Fields

/-- The quick format reads all valid settings back. -/
theorem parse_render_quick (c : Settings Float32) (hc : c.validate = .ok ()) :
    parse .quick (c.render .quick) = .ok c :=
  parse_render_map (r := id) (fun x hx => rereads_quick (isFinite_of_validate hc x hx)) hc

/-- What a number becomes meets the same conditions. -/
theorem reread_sound (x : Float32) :
    (x.isFinite = true → (NumberFormat.reread x).isFinite = true) ∧
      (0 ≤ x → 0 ≤ NumberFormat.reread x) ∧ (0 < x → 0 < NumberFormat.reread x) ∧
      (x < 1 → NumberFormat.reread x < 1) ∧ (¬ x ≤ 0 → ¬ NumberFormat.reread x ≤ 0) := by
  rw [NumberFormat.reread]
  split_ifs with hpositive hnegative
  · subst hpositive
    decide +kernel
  · subst hnegative
    decide +kernel
  · exact ⟨id, id, id, id, id⟩

theorem validate_reread {c : Settings Float32} (hc : c.validate = .ok ()) :
    (c.mapSingles NumberFormat.reread).validate = .ok () := by
  have hvalid := (c.validate_eq_ok_iff).1 hc
  obtain ⟨hstepFinite, -, hstep, -⟩ := reread_sound c.dualStep
  obtain ⟨-, hmomentum, -, hmomentumOne, -⟩ := reread_sound c.dualMomentum
  obtain ⟨-, -, hepsilon, hepsilonOne, -⟩ := reread_sound c.epsilon
  obtain ⟨hconstantFinite, -, -, -, hconstant⟩ := reread_sound c.cost.constant
  refine (validate_eq_ok_iff _).2 { hvalid with
    step := ⟨hstepFinite hvalid.step.1, hstep hvalid.step.2⟩
    momentum := ⟨hmomentum hvalid.momentum.1, hmomentumOne hvalid.momentum.2⟩
    epsilon := ⟨hepsilon hvalid.epsilon.1, hepsilonOne hvalid.epsilon.2⟩
    cost := ?_ }
  have hcost := hvalid.cost
  rw [CostFunction.validate] at hcost ⊢
  split_ifs at hcost with hbad
  obtain ⟨hfinite, hpositive⟩ := not_or.1 hbad
  refine if_neg (not_or.2 ⟨?_, hconstant hpositive⟩)
  have hbefore : Scalar.isFinite c.cost.constant = true := by simpa using hfinite
  have hafter : Scalar.isFinite (NumberFormat.reread c.cost.constant) = true := hconstantFinite hbefore
  simpa [mapSingles, CostFunction.withConstant] using hafter

/-- How valid settings come back from their text, if numbers are written as shortest decimals and read as
nearest doubles. They come back as they were unless one of their numbers is read half way between two. If
the nearest of the shortest decimals is written, that is one number, which becomes its neighbour. -/
theorem parse_render (hw : format.Writes Decimal.Shortest) (hr : format.ReadsNearest)
    (c : Settings Float32) (hc : c.validate = .ok ()) :
    ((∀ x ∈ c.singles, ¬ format.Halfway x) → parse format (c.render format) = .ok c) ∧
    (format.Writes Decimal.Closest →
      parse format (c.render format) = .ok (c.mapSingles NumberFormat.reread)) := by
  have hfinite := isFinite_of_validate hc
  refine ⟨fun hhalf => ?_, fun hclosest => ?_⟩
  · exact parse_render_map (r := id)
      (fun x hx => NumberFormat.rereads_self hw hr (hfinite x hx) (hhalf x hx)) hc
  · exact parse_render_map (fun x hx => NumberFormat.rereads hclosest hr (hfinite x hx))
      (validate_reread hc)

def edgeSettings : Settings Float32 :=
  { (default : Settings Float32) with
    sparse := true
    headMerge := .average
    encoderHidden := []
    decoderHidden := [7, 64]
    dualMomentum := .ofBits 0x80000000
    pairing := .sum
    cost := ⟨.exponential, .ofBits 1⟩
    seed := 0xffffffffffffffff }

theorem parse_render_edge :
    NumberFormat.correct.Writes Decimal.Closest ∧ NumberFormat.correct.ReadsNearest ∧
      edgeSettings.validate = .ok () ∧
      (∀ x ∈ edgeSettings.singles, ¬ NumberFormat.correct.Halfway x) ∧
      parse .correct (edgeSettings.render .correct) = .ok edgeSettings := by
  have hvalid : edgeSettings.validate = .ok () := by rfl
  have hwrites := NumberFormat.correct_writes
  have hreads := NumberFormat.correct_readsNearest
  have hordinary : ∀ x ∈ edgeSettings.singles,
      x ≠ .ofBits 0x15ae43fd ∧ x ≠ .ofBits 0x95ae43fd := by decide +kernel
  have hhalf : ∀ x ∈ edgeSettings.singles, ¬ NumberFormat.correct.Halfway x := fun x hx =>
    NumberFormat.not_halfway_of_ne hwrites hreads (hordinary x hx).1 (hordinary x hx).2
  exact ⟨hwrites, hreads, hvalid, hhalf,
    (parse_render (hwrites.mono fun h => h.toShortest) hreads edgeSettings hvalid).1 hhalf⟩

/-- The same settings with a step of `7.038531e-26`. The nearest double to that decimal is half way
between two numbers, of which the step is the odd one. -/
def halfwaySettings : Settings Float32 := { edgeSettings with dualStep := .ofBits 0x15ae43fd }

/-- Correct writing and reading do not bring all settings back. -/
theorem parse_render_halfway :
    NumberFormat.correct.Writes Decimal.Closest ∧ NumberFormat.correct.ReadsNearest ∧
      halfwaySettings.validate = .ok () ∧
      parse .correct (halfwaySettings.render .correct) =
        .ok { halfwaySettings with dualStep := .ofBits 0x15ae43fe } ∧
      parse .correct (halfwaySettings.render .correct) ≠ .ok halfwaySettings := by
  have hvalid : halfwaySettings.validate = .ok () := by rfl
  have hchanged : halfwaySettings.mapSingles NumberFormat.reread =
      { halfwaySettings with dualStep := .ofBits 0x15ae43fe } := by decide +kernel
  have hread := parse_render_map (fun x hx => NumberFormat.rereads NumberFormat.correct_writes
    NumberFormat.correct_readsNearest (isFinite_of_validate hvalid x hx)) (validate_reread hvalid)
  rw [hchanged] at hread
  refine ⟨NumberFormat.correct_writes, NumberFormat.correct_readsNearest, hvalid, hread, fun h => ?_⟩
  have hsame := congrArg Settings.dualStep (Except.ok.inj (hread.symm.trans h))
  exact absurd hsame (by decide +kernel)

end Settings

end NeuralFlow
