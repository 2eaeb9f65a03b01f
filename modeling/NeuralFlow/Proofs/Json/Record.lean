import Mathlib
import NeuralFlow.Json.Record
import NeuralFlow.Proofs.Json.Number

/-! Written words, lists and records are read back. Each value is read from its text, whatever follows,
if its parts are, and a record collects its fields one by one. The indented and the compact form differ
in the blanks between the parts only, so both are cases of one form. -/

namespace NeuralFlow.Json

/-! Blanks. -/

/-- A text that starts with a character that is neither blank nor a mark between values. -/
def Solid (written : List Char) : Prop :=
  ∃ c s, written = c :: s ∧ isBlank c = false ∧ c ≠ ',' ∧ c ≠ ']'

def Blank (gap : List Char) : Prop := ∀ c ∈ gap, isBlank c = true

theorem blank_nil : Blank [] := nofun

theorem blank_space : Blank [' '] := by
  rintro c hc
  rw [List.mem_singleton.1 hc]
  decide

theorem blank_newLine (depth : ℕ) : Blank (Tree.newLine depth) := by
  intro c hc
  rcases List.mem_cons.1 hc with rfl | hc
  · decide
  · rw [List.eq_of_mem_replicate hc]
    decide

section Blank

variable {written gap s rest : List Char} {c : Char}

theorem dropBlank_cons (hc : isBlank c = false) (s : List Char) : dropBlank (c :: s) = c :: s := by
  simp [dropBlank, hc]

theorem Blank.dropBlank_append (h : Blank gap) (s : List Char) : dropBlank (gap ++ s) = dropBlank s :=
  List.dropWhile_append_of_pos h

theorem Blank.dropBlank_cons (h : Blank gap) (hc : isBlank c = false) (s : List Char) :
    dropBlank (gap ++ c :: s) = c :: s :=
  (h.dropBlank_append _).trans (Json.dropBlank_cons hc s)

theorem Solid.dropBlank (h : Solid written) (rest : List Char) :
    dropBlank (written ++ rest) = written ++ rest := by
  obtain ⟨c, s, rfl, hc, -⟩ := h
  exact dropBlank_cons hc _

theorem Reads.apply {β : Type} {reader : Reader β} {x : β} (h : Reads reader written x)
    (hsolid : Solid written) (hrest : Ends rest) : reader (written ++ rest) = .ok (x, rest) :=
  h _ rest hrest (hsolid.dropBlank rest)

theorem ends_comma (s : List Char) : Ends (',' :: s) := by
  rintro c ⟨⟩
  decide

theorem ends_bracket (s : List Char) : Ends (']' :: s) := by
  rintro c ⟨⟩
  decide

theorem ends_brace (s : List Char) : Ends ('\x7d' :: s) := by
  rintro c ⟨⟩
  decide

theorem Blank.ends (h : Blank gap) (hs : Ends s) : Ends (gap ++ s) := by
  cases gap with
  | nil => exact hs
  | cons b gap =>
    rintro c ⟨⟩
    have hblank := h b (by simp)
    simp only [isBlank, Bool.or_eq_true, beq_iff_eq] at hblank
    rcases hblank with ((rfl | rfl) | rfl) | rfl <;> decide

end Blank

theorem Lexes.solid {text : List Char} {minus : Bool} {l : Literal} (h : Lexes text minus l) :
    Solid text := by
  have hread := h [] ends_nil
  rw [List.append_nil] at hread
  cases text with
  | nil => cases hread
  | cons c s =>
    have hstart := startsNumber_of_readSigned hread
    refine ⟨c, s, rfl, ?_, ?_, ?_⟩
    · by_contra hblank
      rw [Bool.not_eq_false] at hblank
      simp only [isBlank, Bool.or_eq_true, beq_iff_eq] at hblank
      rcases hblank with ((rfl | rfl) | rfl) | rfl <;> exact absurd hstart (by decide)
    · rintro rfl
      exact absurd hstart (by decide)
    · rintro rfl
      exact absurd hstart (by decide)

theorem solid_digits (n : ℕ) : Solid (Layout.digits n) := (lexes_digits n).solid

theorem Rereads.solid {format : NumberFormat} {x y : Float32} (h : Rereads format x y) :
    Solid (format.write x) := by
  obtain ⟨_, _, _, hlexes, -⟩ := h
  exact hlexes.solid

theorem solid_bool (b : Bool) : Solid (Tree.booleanChars b) := by
  cases b
  · exact ⟨'f', ['a', 'l', 's', 'e'], rfl, by decide, by decide, by decide⟩
  · exact ⟨'t', ['r', 'u', 'e'], rfl, by decide, by decide, by decide⟩

/-! Words. -/

theorem readWord_append (word s : List Char) : readWord word (word ++ s) = .ok s := by
  induction word with
  | nil => rfl
  | cons c word ih => simpa [readWord] using ih

theorem reads_bool {format : NumberFormat} (b : Bool) :
    Reads (readBool format) (Tree.booleanChars b) b := by
  intro s rest _ hs
  cases b
  · simp only [readBool, hs, Tree.booleanChars, List.cons_append]
    rw [show 'a' :: 'l' :: 's' :: 'e' :: ([] ++ rest) = ['a', 'l', 's', 'e'] ++ rest from rfl,
      readWord_append]
    rfl
  · simp only [readBool, hs, Tree.booleanChars, List.cons_append]
    rw [show 'r' :: 'u' :: 'e' :: ([] ++ rest) = ['r', 'u', 'e'] ++ rest from rfl, readWord_append]
    rfl

/-- Characters that stand for themselves between quotes. -/
def Plain (cs : List Char) : Prop := ∀ c ∈ cs, c ≠ '"' ∧ c ≠ '\\' ∧ 0x20 ≤ c.toNat

theorem readCharsWith_append {cs : List Char} (codePoint : Reader Char) (hcs : Plain cs)
    (rest : List Char) :
    ∀ {fuel : ℕ}, cs.length < fuel → readCharsWith codePoint fuel (cs ++ '"' :: rest) =
      .ok (cs, rest) := by
  induction cs with
  | nil =>
    intro fuel hfuel
    obtain ⟨fuel, rfl⟩ := Nat.exists_eq_succ_of_ne_zero (Nat.ne_zero_of_lt hfuel)
    rfl
  | cons c cs ih =>
    intro fuel hfuel
    obtain ⟨fuel, rfl⟩ := Nat.exists_eq_succ_of_ne_zero (Nat.ne_zero_of_lt hfuel)
    obtain ⟨hquote, hslash, hvisible⟩ := hcs c (by simp)
    have htail := ih (fun b hb => hcs b (by simp [hb])) (show cs.length < fuel by simpa using hfuel)
    simp [readCharsWith, hslash, not_lt.2 hvisible, htail, bind, Except.bind, pure, Except.pure]

theorem readString_append {name : String} (hname : Plain name.toList) (rest : List Char) :
    readString (name.toList ++ '"' :: rest) = .ok (name, rest) := by
  have h := readCharsWith_append readCodePoint hname rest
    (show name.toList.length < (name.toList ++ '"' :: rest).length + 1 by simp)
  simp only [readString, h, bind, Except.bind, pure, Except.pure, String.ofList_toList]

theorem quotedName_append (name : String) (rest : List Char) :
    Tree.quotedName name ++ rest = '"' :: (name.toList ++ '"' :: rest) := by
  simp [Tree.quotedName]

theorem solid_quotedName (name : String) : Solid (Tree.quotedName name) :=
  ⟨'"', name.toList ++ ['"'], rfl, by decide, by decide, by decide⟩

/-- A plain variant is written as its name. -/
theorem reads_variant {β : Type} {format : NumberFormat} {variants : List (String × Variant β)}
    {name : String} {x : β} (hname : Plain name.toList) (hx : variants.lookup name = some (.plain x)) :
    Reads (readVariant format variants) (Tree.quotedName name) x := by
  intro s rest _ hs
  rw [quotedName_append] at hs
  simp only [readVariant, hs, readString_append hname, variantNamed, hx, bind, Except.bind, pure,
    Except.pure]

/-! Enclosed parts. -/

def following (gap : List Char) : List (List Char) → List Char
  | [] => []
  | text :: texts => ',' :: gap ++ text ++ following gap texts

/-- Parts between two marks, with a gap before each of them and another one at the end. -/
def enclosed (opening closing : Char) (gap last : List Char) : List (List Char) → List Char
  | [] => [opening, closing]
  | text :: texts => opening :: gap ++ text ++ following gap texts ++ last ++ [closing]

def memberChars (space : List Char) (name : String) (text : List Char) : List Char :=
  Tree.quotedName name ++ ':' :: space ++ text

theorem solid_list (gap last : List Char) (texts : List (List Char)) :
    Solid (enclosed '[' ']' gap last texts) := by
  cases texts <;> exact ⟨_, _, rfl, by decide, by decide, by decide⟩

theorem solid_object (gap last : List Char) (texts : List (List Char)) :
    Solid (enclosed '\x7b' '\x7d' gap last texts) := by
  cases texts <;> exact ⟨_, _, rfl, by decide, by decide, by decide⟩

theorem length_le_following (gap : List Char) (texts : List (List Char)) :
    texts.length ≤ (following gap texts).length := by
  induction texts with
  | nil => simp
  | cons text texts ih =>
    simp only [following, List.length_cons, List.length_append]
    omega

theorem ends_following {last rest : List Char} (gap : List Char) (texts : List (List Char))
    (h : Ends (last ++ rest)) : Ends (following gap texts ++ (last ++ rest)) := by
  cases texts with
  | nil => exact h
  | cons text texts => exact ends_comma _

namespace Tree

theorem prettyItems_eq (depth : ℕ) (items : List Tree) :
    prettyItems depth items = following (newLine depth) (items.map (prettyChars depth)) := by
  induction items with
  | nil => rfl
  | cons item items ih => rw [prettyItems, ih, List.map_cons, following]

theorem prettyMembers_eq (depth : ℕ) (members : List (String × Tree)) :
    prettyMembers depth members = following (newLine depth)
      (members.map fun m => memberChars [' '] m.1 (m.2.prettyChars depth)) := by
  induction members with
  | nil => rfl
  | cons m members ih =>
    obtain ⟨name, value⟩ := m
    simp [prettyMembers, ih, following, memberChars]

theorem prettyChars_list (depth : ℕ) (items : List Tree) :
    (list items).prettyChars depth =
      enclosed '[' ']' (newLine (depth + 1)) (newLine depth) (items.map (prettyChars (depth + 1))) := by
  cases items with
  | nil => rw [prettyChars, List.map_nil, enclosed]
  | cons item items => rw [prettyChars, prettyItems_eq, List.map_cons, enclosed]

theorem prettyChars_object (depth : ℕ) (members : List (String × Tree)) :
    (object members).prettyChars depth =
      enclosed '\x7b' '\x7d' (newLine (depth + 1)) (newLine depth)
        (members.map fun m => memberChars [' '] m.1 (m.2.prettyChars (depth + 1))) := by
  cases members with
  | nil => rw [prettyChars, List.map_nil, enclosed]
  | cons m members =>
    obtain ⟨name, value⟩ := m
    simp [prettyChars, prettyMembers_eq, enclosed, memberChars]

theorem compactItems_cons (item : Tree) (items : List Tree) :
    compactItems (item :: items) = item.compactChars ++ following [] (items.map compactChars) := by
  induction items generalizing item with
  | nil => simp [compactItems, following]
  | cons next items ih => simp [compactItems, ih, following]

theorem compactMembers_cons (m : String × Tree) (members : List (String × Tree)) :
    compactMembers (m :: members) = memberChars [] m.1 m.2.compactChars ++
      following [] (members.map fun m => memberChars [] m.1 m.2.compactChars) := by
  induction members generalizing m with
  | nil => simp [compactMembers, following, memberChars]
  | cons next members ih => simp [compactMembers, ih, following, memberChars]

theorem compactChars_list (items : List Tree) :
    (list items).compactChars = enclosed '[' ']' [] [] (items.map compactChars) := by
  cases items with
  | nil => simp [compactChars, compactItems, enclosed]
  | cons item items => simp [compactChars, compactItems_cons, enclosed]

theorem compactChars_object (members : List (String × Tree)) :
    (object members).compactChars =
      enclosed '\x7b' '\x7d' [] [] (members.map fun m => memberChars [] m.1 m.2.compactChars) := by
  cases members with
  | nil => simp [compactChars, compactMembers, enclosed]
  | cons m members => simp [compactChars, compactMembers_cons, enclosed]

end Tree

/-! Lists. -/

section Lists

variable {β : Type} {item : Reader β} {text : β → List Char} {written gap last s rest : List Char}

theorem nextItem_comma (hgap : Blank gap) (hsolid : Solid written) :
    nextItem false (',' :: (gap ++ (written ++ rest))) = .ok (some (written ++ rest)) := by
  have hdrop := (hgap.dropBlank_append (written ++ rest)).trans (hsolid.dropBlank rest)
  obtain ⟨c, cs, rfl, -, -, hbracket⟩ := hsolid
  rw [List.cons_append] at hdrop ⊢
  simp only [nextItem, dropBlank_cons (c := ',') rfl, Bool.false_eq_true, if_false, hdrop]
  split
  · rename_i heq
    cases heq
  · rename_i heq
    exact absurd (List.cons.inj heq).1 hbracket
  · rfl

theorem nextItem_first (hgap : Blank gap) (hsolid : Solid written) :
    nextItem true (gap ++ (written ++ rest)) = .ok (some (written ++ rest)) := by
  have hdrop := (hgap.dropBlank_append (written ++ rest)).trans (hsolid.dropBlank rest)
  obtain ⟨c, cs, rfl, -, hcomma, hbracket⟩ := hsolid
  rw [List.cons_append] at hdrop ⊢
  simp only [nextItem, hdrop]
  split
  · rename_i heq
    cases heq
  · rename_i heq
    exact absurd (List.cons.inj heq).1 hbracket
  · rename_i heq
    exact absurd (List.cons.inj heq).1 hcomma
  · rfl

theorem readItems_end (first : Bool) (fuel : ℕ) (hs : dropBlank s = ']' :: rest) :
    readItems item (fuel + 1) first s = .ok ([], s) := by
  simp only [readItems, nextItem, hs, bind, Except.bind, pure, Except.pure]

theorem endList_eq (hs : dropBlank s = ']' :: rest) : endList s = .ok rest := by
  simp only [endList, hs]

/-- The items after the first, up to the closing bracket. -/
theorem readItems_append (hgap : Blank gap) (hlast : Blank last) (rest : List Char) (xs : List β)
    (hreads : ∀ x ∈ xs, Reads item (text x) x) (hsolid : ∀ x ∈ xs, Solid (text x)) :
    ∀ {fuel : ℕ}, xs.length < fuel → readItems item fuel false
      (following gap (xs.map text) ++ (last ++ ']' :: rest)) = .ok (xs, last ++ ']' :: rest) := by
  induction xs with
  | nil =>
    intro fuel hfuel
    obtain ⟨fuel, rfl⟩ := Nat.exists_eq_succ_of_ne_zero (Nat.ne_zero_of_lt hfuel)
    exact readItems_end false fuel (hlast.dropBlank_cons (by decide) rest)
  | cons x xs ih =>
    intro fuel hfuel
    obtain ⟨fuel, rfl⟩ := Nat.exists_eq_succ_of_ne_zero (Nat.ne_zero_of_lt hfuel)
    have hx := (hreads x (by simp)).apply (hsolid x (by simp))
      (ends_following gap (xs.map text) (hlast.ends (ends_bracket rest)))
    have htail := ih (fun y hy => hreads y (by simp [hy])) (fun y hy => hsolid y (by simp [hy]))
      (show xs.length < fuel by simpa using hfuel)
    simp only [List.map_cons, following, List.cons_append, List.append_assoc, readItems,
      nextItem_comma hgap (hsolid x (by simp)), hx, htail, bind, Except.bind, pure, Except.pure]

/-- A list is read back if its items are. -/
theorem reads_list {format : NumberFormat} (hgap : Blank gap) (hlast : Blank last) {xs : List β}
    (hreads : ∀ x ∈ xs, Reads item (text x) x) (hsolid : ∀ x ∈ xs, Solid (text x)) :
    Reads (readList format item) (enclosed '[' ']' gap last (xs.map text)) xs := by
  intro s rest _ hs
  cases xs with
  | nil =>
    simp only [List.map_nil, enclosed, List.cons_append, List.nil_append] at hs
    have hdrop : dropBlank (']' :: rest) = ']' :: rest := dropBlank_cons (by decide) rest
    simp only [readList, hs, readItems_end true _ hdrop, endList_eq hdrop, bind, Except.bind, pure,
      Except.pure]
  | cons x xs =>
    simp only [List.map_cons, enclosed, List.cons_append, List.append_assoc, List.nil_append] at hs
    have hx := (hreads x (by simp)).apply (hsolid x (by simp))
      (ends_following gap (xs.map text) (hlast.ends (ends_bracket rest)))
    have hlength := length_le_following gap (xs.map text)
    rw [List.length_map] at hlength
    have hxs := readItems_append hgap hlast rest xs (fun y hy => hreads y (by simp [hy]))
      (fun y hy => hsolid y (by simp [hy]))
      (show xs.length < (gap ++ (text x ++ (following gap (xs.map text) ++
        (last ++ ']' :: rest)))).length by simp only [List.length_append, List.length_cons]; omega)
    have hend := endList_eq (hlast.dropBlank_cons (c := ']') (by decide) rest)
    simp only [readList, hs, readItems, nextItem_first hgap (hsolid x (by simp)), hx, hxs, hend, bind,
      Except.bind, pure, Except.pure]

end Lists

/-! Records. -/

namespace Schema

section Names

variable {name : String} {gap space text s rest : List Char}

theorem memberChars_append (space : List Char) (name : String) (text rest : List Char) :
    memberChars space name text ++ rest =
      '"' :: (name.toList ++ '"' :: (':' :: (space ++ (text ++ rest)))) := by
  simp [memberChars, quotedName_append]

theorem nextName_first (hgap : Blank gap) (hname : Plain name.toList) :
    nextName true (gap ++ (memberChars space name text ++ rest)) =
      .ok (some (name, ':' :: (space ++ (text ++ rest)))) := by
  have hdrop := hgap.dropBlank_cons (c := '"') (by decide)
    (name.toList ++ '"' :: (':' :: (space ++ (text ++ rest))))
  rw [memberChars_append]
  simp only [nextName, hdrop]
  change (do return some (← readString (name.toList ++ '"' :: (':' :: (space ++ (text ++ rest)))))) = _
  rw [readString_append hname]
  rfl

theorem nextName_comma (hgap : Blank gap) (hname : Plain name.toList) :
    nextName false (',' :: (gap ++ (memberChars space name text ++ rest))) =
      .ok (some (name, ':' :: (space ++ (text ++ rest)))) := by
  have hdrop := hgap.dropBlank_cons (c := '"') (by decide)
    (name.toList ++ '"' :: (':' :: (space ++ (text ++ rest))))
  rw [memberChars_append]
  simp only [nextName, dropBlank_cons (c := ',') rfl, hdrop, readString_append hname,
    Bool.false_eq_true, if_false, bind, Except.bind, pure, Except.pure]

theorem nextName_end (first : Bool) (hs : dropBlank s = '\x7d' :: rest) :
    nextName first s = .ok none := by
  simp only [nextName, hs]

theorem endObject_eq (hs : dropBlank s = '\x7d' :: rest) : endObject s = .ok rest := by
  simp only [endObject, hs]

end Names

variable {β : Type} {schema : Schema β} {text : schema.Field → List Char} {record : β}

/-- The names tell the fields apart, the texts of the fields are read as the fields of the record, and
the record is made of them. -/
structure Faithful (schema : Schema β) (text : schema.Field → List Char) (record : β) : Prop where
  ne_nil : schema.fields ≠ []
  complete : ∀ f, f ∈ schema.fields
  plain : ∀ f, Plain (schema.name f).toList
  distinct : (schema.fields.map schema.name).Nodup
  build_get : schema.build (fun f => .ok (schema.get record f)) = .ok record
  reads : ∀ f, Reads (schema.read f) (text f) (schema.get record f)
  solid : ∀ f, Solid (text f)

def recordChars (schema : Schema β) (gap last space : List Char) (text : schema.Field → List Char) :
    List Char :=
  enclosed '\x7b' '\x7d' gap last (schema.fields.map fun f => memberChars space (schema.name f) (text f))

theorem prettyChars_tree (schema : Schema β) (record : β) (depth : ℕ) :
    (schema.tree record).prettyChars depth =
      schema.recordChars (Tree.newLine (depth + 1)) (Tree.newLine depth) [' ']
        fun f => (schema.write f (schema.get record f)).prettyChars (depth + 1) := by
  rw [tree, Tree.prettyChars_object, List.map_map]
  rfl

theorem compactChars_tree (schema : Schema β) (record : β) :
    (schema.tree record).compactChars =
      schema.recordChars [] [] [] fun f => (schema.write f (schema.get record f)).compactChars := by
  rw [tree, Tree.compactChars_object, List.map_map]
  rfl

section Draft

variable (draft : schema.Draft) {f g : schema.Field}

@[simp] theorem put_self (f : schema.Field) (v : schema.Value f) :
    schema.put draft f v f = some v := by
  unfold put
  split
  · rfl
  · rename_i hne _
    exact absurd rfl hne

theorem put_of_ne (hne : f ≠ g) (v : schema.Value f) : schema.put draft f v g = draft g := by
  unfold put
  split
  · rename_i heq _
    exact absurd heq hne
  · rfl

def fill (schema : Schema β) (record : β) (draft : schema.Draft) (fields : List schema.Field) :
    schema.Draft :=
  fields.foldl (fun draft f => schema.put draft f (schema.get record f)) draft

theorem fill_of_notMem {fields : List schema.Field} (hf : f ∉ fields) :
    schema.fill record draft fields f = draft f := by
  induction fields generalizing draft with
  | nil => rfl
  | cons g fields ih =>
    rw [List.mem_cons, not_or] at hf
    exact (ih _ hf.2).trans (put_of_ne draft (Ne.symm hf.1) _)

theorem fill_of_mem {fields : List schema.Field} (hnodup : fields.Nodup) (hf : f ∈ fields) :
    schema.fill record draft fields f = some (schema.get record f) := by
  induction fields generalizing draft with
  | nil => cases hf
  | cons g fields ih =>
    obtain ⟨hg, hnodup⟩ := List.nodup_cons.1 hnodup
    rcases List.mem_cons.1 hf with rfl | hf
    · exact (fill_of_notMem _ hg).trans (put_self draft f _)
    · exact ih _ hnodup hf

end Draft

namespace Faithful

variable {draft : schema.Draft} {f : schema.Field} {first : Bool} {gap last space s rest : List Char}

theorem nodup (h : schema.Faithful text record) : schema.fields.Nodup := List.Nodup.of_map _ h.distinct

theorem field?_name (h : schema.Faithful text record) (f : schema.Field) :
    schema.field? (schema.name f) = some f := by
  have hsome : (schema.field? (schema.name f)).isSome :=
    List.find?_isSome.2 ⟨f, h.complete f, by simp⟩
  obtain ⟨g, hg⟩ := Option.isSome_iff_exists.1 hsome
  have hname : schema.name g = schema.name f := by simpa using List.find?_some hg
  rw [hg, List.inj_on_of_nodup_map h.distinct (h.complete g) (h.complete f) hname]

/-- One member is read and put into the draft. -/
theorem readMembers_step (h : schema.Faithful text record) (hspace : Blank space) {fuel : ℕ}
    (hfree : draft f = none) (hrest : Ends rest)
    (hs : nextName first s = .ok (some (schema.name f, ':' :: (space ++ (text f ++ rest))))) :
    schema.readMembers (fuel + 1) first draft s =
      schema.readMembers fuel false (schema.put draft f (schema.get record f)) rest := by
  have hcolon : readColon (':' :: (space ++ (text f ++ rest))) = .ok (space ++ (text f ++ rest)) := by
    simp only [readColon, dropBlank_cons (c := ':') rfl]
  have hread : schema.read f (space ++ (text f ++ rest)) = .ok (schema.get record f, rest) :=
    h.reads f _ rest hrest ((hspace.dropBlank_append _).trans ((h.solid f).dropBlank rest))
  simp only [readMembers, hs, h.field?_name f, hfree, hcolon, hread, Option.isSome_none,
    Bool.false_eq_true, if_false, bind, Except.bind]

/-- The members after the first, up to the closing brace. -/
theorem readMembers_append (h : schema.Faithful text record) (hgap : Blank gap) (hlast : Blank last)
    (hspace : Blank space) (rest : List Char) (fields : List schema.Field) :
    ∀ {draft : schema.Draft} {fuel : ℕ}, fields.Nodup → (∀ f ∈ fields, draft f = none) →
      fields.length < fuel → schema.readMembers fuel false draft
        (following gap (fields.map fun f => memberChars space (schema.name f) (text f)) ++
          (last ++ '\x7d' :: rest)) =
        .ok (schema.fill record draft fields, last ++ '\x7d' :: rest) := by
  induction fields with
  | nil =>
    intro draft fuel _ _ hfuel
    obtain ⟨fuel, rfl⟩ := Nat.exists_eq_succ_of_ne_zero (Nat.ne_zero_of_lt hfuel)
    have hend := nextName_end false (hlast.dropBlank_cons (c := '\x7d') (by decide) rest)
    simp only [List.map_nil, following, List.nil_append, readMembers, hend, bind, Except.bind, pure,
      Except.pure]
    rfl
  | cons f fields ih =>
    intro draft fuel hnodup hfree hfuel
    obtain ⟨fuel, rfl⟩ := Nat.exists_eq_succ_of_ne_zero (Nat.ne_zero_of_lt hfuel)
    obtain ⟨hf, hnodup⟩ := List.nodup_cons.1 hnodup
    simp only [List.map_cons, following, List.cons_append, List.append_assoc]
    rw [h.readMembers_step hspace (hfree f (by simp))
      (ends_following gap _ (hlast.ends (ends_brace rest))) (nextName_comma hgap (h.plain f))]
    refine ih hnodup (fun g hg => ?_) (by simpa using hfuel)
    rw [put_of_ne draft fun heq : f = g => hf (heq.symm ▸ hg)]
    exact hfree g (by simp [hg])

/-- With all fields read, the record is complete. -/
theorem finish_fill (h : schema.Faithful text record) (absent : schema.Field → Problem) :
    schema.finish (schema.fill record (fun _ => none) schema.fields) absent = .ok record := by
  rw [finish, ← h.build_get]
  congr 1
  funext f
  rw [fill_of_mem _ h.nodup (h.complete f)]

/-- A record is read from the texts of its fields. -/
theorem reads_record (h : schema.Faithful text record) (format : NumberFormat) (hgap : Blank gap)
    (hlast : Blank last) (hspace : Blank space) :
    Reads (schema.readRecord format) (schema.recordChars gap last space text) record := by
  intro s rest _ hs
  have hfinish := h.finish_fill fun f => .missingField (schema.name f)
  have hnodup := h.nodup
  rw [recordChars] at hs
  obtain ⟨f, fields, hfields⟩ := List.exists_cons_of_ne_nil h.ne_nil
  rw [hfields] at hs hfinish hnodup
  simp only [List.map_cons, enclosed, List.cons_append, List.append_assoc, List.nil_append] at hs
  obtain ⟨hf, hnodup⟩ := List.nodup_cons.1 hnodup
  have hlength := length_le_following gap
    (fields.map fun f => memberChars space (schema.name f) (text f))
  rw [List.length_map] at hlength
  simp only [readRecord, hs]
  rw [h.readMembers_step hspace rfl (ends_following gap _ (hlast.ends (ends_brace rest)))
    (nextName_first hgap (h.plain f)), h.readMembers_append hgap hlast hspace rest fields hnodup]
  · have hend := endObject_eq (hlast.dropBlank_cons (c := '\x7d') (by decide) rest)
    have hrecord : schema.finish
        (schema.fill record (schema.put (fun _ => none) f (schema.get record f)) fields)
        (fun f => .missingField (schema.name f)) = .ok record := hfinish
    simp only [hrecord, hend, bind, Except.bind, pure, Except.pure]
  · exact fun g hg => put_of_ne _ (fun heq : f = g => hf (heq.symm ▸ hg)) _
  · simp only [List.length_append, List.length_cons]
    omega

end Faithful

end Schema

/-- A whole text that is the form of a value is read as the value. -/
theorem parse_of_reads {β : Type} {reader : Reader β} {written : List Char} {x : β}
    (h : Reads reader written x) (hsolid : Solid written) :
    parse reader (String.ofList written) = .ok x := by
  have hread := h.apply hsolid ends_nil
  rw [List.append_nil] at hread
  simp only [parse, String.toList_ofList, hread, bind, Except.bind, pure, Except.pure]
  rfl

theorem Schema.solid_recordChars {β : Type} (schema : Schema β) (gap last space : List Char)
    (text : schema.Field → List Char) : Solid (schema.recordChars gap last space text) :=
  solid_object _ _ _

theorem Schema.Faithful.parse {β : Type} {schema : Schema β} {text : schema.Field → List Char}
    {record : β} (h : schema.Faithful text record) (format : NumberFormat) {gap last space : List Char}
    (hgap : Blank gap) (hlast : Blank last) (hspace : Blank space) :
    parse (schema.readRecord format) (String.ofList (schema.recordChars gap last space text)) =
      .ok record :=
  parse_of_reads (h.reads_record format hgap hlast hspace) (schema.solid_recordChars ..)

end NeuralFlow.Json
