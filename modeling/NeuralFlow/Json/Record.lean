import NeuralFlow.Json.Skip
import NeuralFlow.Json.Writer

/-!
Records, lists and variants in JSON text. A record is an object with named members or a list with
the fields in their declared order; a `Schema` gives the fields their names, readers, defaults and
written forms. The value is put together when the record has been read, so a missing field is found
at its end.
-/

namespace NeuralFlow.Json

/-! ## Lists -/

/-- Goes on to the next item of a list, or to its end, where the closing bracket stays. -/
def nextItem (first : Bool) (s : List Char) : Except Problem (Option (List Char)) :=
  match dropBlank s with
  | [] => .error .truncated
  | ']' :: _ => .ok none
  | ',' :: rest =>
    if first then .ok (some (',' :: rest))
    else match dropBlank rest with
      | [] => .error .truncated
      | ']' :: _ => .error .malformed
      | rest => .ok (some rest)
  | s => if first then .ok (some s) else .error .malformed

def endList (s : List Char) : Except Problem (List Char) :=
  match dropBlank s with
  | [] => .error .truncated
  | ']' :: s => .ok s
  | _ => .error .malformed

/-- The items of a list up to its closing bracket, which stays. -/
def readItems {β : Type} (item : Reader β) : Nat → Bool → Reader (List β)
  | 0, _, _ => .error .truncated
  | fuel + 1, first, s => do
    match ← nextItem first s with
    | none => return ([], s)
    | some s =>
      let (x, s) ← item s
      let (xs, s) ← readItems item fuel false s
      return (x :: xs, s)

def readList {β : Type} (format : NumberFormat) (item : Reader β) : Reader (List β) := fun s =>
  match dropBlank s with
  | [] => .error .truncated
  | '[' :: s => do
    let (xs, s) ← readItems item (s.length + 1) true s
    return (xs, ← endList s)
  | s => .error (mismatch format "a sequence" s)

/-! ## Records -/

/-- The fields of a record type `β`. -/
structure Schema (β : Type) where
  Field : Type
  decEq : DecidableEq Field
  Value : Field → Type
  fields : List Field
  name : Field → String
  read : (f : Field) → Reader (Value f)
  /-- What an absent field stands for, if it may be absent. -/
  fallback : (f : Field) → Option (Value f)
  /-- The words for a value of the type. -/
  title : String
  /-- Whether other fields are refused. They are skipped otherwise. -/
  closed : Bool
  /-- The record, from its fields in their declared order. -/
  build : ((f : Field) → Except Problem (Value f)) → Except Problem β
  get : β → (f : Field) → Value f
  write : (f : Field) → Value f → Tree

namespace Schema

variable {β : Type} (schema : Schema β)

/-- The fields read so far. -/
abbrev Draft : Type := (f : schema.Field) → Option (schema.Value f)

/-- The draft with one more field. -/
def put (draft : schema.Draft) (f : schema.Field) (v : schema.Value f) : schema.Draft := fun g =>
  match schema.decEq f g with
  | .isTrue h => some (h ▸ v)
  | .isFalse _ => draft g

/-- The record of a draft: absent fields take their default or are the given problem. -/
def finish (draft : schema.Draft) (absent : schema.Field → Problem) : Except Problem β :=
  schema.build fun f =>
    match draft f with
    | some v => .ok v
    | none =>
      match schema.fallback f with
      | some v => .ok v
      | none => .error (absent f)

def field? (name : String) : Option schema.Field := schema.fields.find? fun f => schema.name f = name

def index (f : schema.Field) : Nat :=
  schema.fields.findIdx fun g => match schema.decEq f g with
    | .isTrue _ => true
    | .isFalse _ => false

def listTitle : String :=
  let n := schema.fields.length
  s!"{schema.title} with {n} element" ++ if n = 1 then "" else "s"

/-- Goes on to the name of the next member of an object, or to its end, where the closing brace
stays. -/
def nextName (first : Bool) (s : List Char) : Except Problem (Option (String × List Char)) :=
  let quoted : List Char → Except Problem (Option (String × List Char))
    | '"' :: s => do return some (← readString s)
    | _ => .error .malformed
  match dropBlank s with
  | [] => .error .truncated
  | '\x7d' :: _ => .ok none
  | ',' :: s =>
    if first then .error .malformed
    else match dropBlank s with
      | [] => .error .truncated
      | s => quoted s
  | s => if first then quoted s else .error .malformed

/-- The members of an object up to its closing brace, which stays. -/
def readMembers : Nat → Bool → schema.Draft → Reader schema.Draft
  | 0, _, _, _ => .error .truncated
  | fuel + 1, first, draft, s => do
    match ← nextName first s with
    | none => return (draft, s)
    | some (name, s) =>
      match schema.field? name with
      | some f =>
        if (draft f).isSome then throw (.duplicateField name)
        let s ← readColon s
        let (v, s) ← schema.read f s
        readMembers fuel false (schema.put draft f v) s
      | none =>
        if schema.closed then
          throw (.unknownField name (schema.fields.map schema.name))
        let s ← readColon s
        let s ← skipValue s
        readMembers fuel false draft s

/-- The fields of the list form, as many as there are. -/
def readElements : List schema.Field → Bool → schema.Draft → Reader schema.Draft
  | [], _, draft, s => .ok (draft, s)
  | f :: fields, first, draft, s => do
    match ← nextItem first s with
    | none => return (draft, s)
    | some s =>
      let (v, s) ← schema.read f s
      readElements fields false (schema.put draft f v) s

def endObject (s : List Char) : Except Problem (List Char) :=
  match dropBlank s with
  | [] => .error .truncated
  | '\x7d' :: s => .ok s
  | _ => .error .malformed

/-- A record in either form. -/
def readRecord (format : NumberFormat) : Reader β := fun s =>
  match dropBlank s with
  | [] => .error .truncated
  | '[' :: s => do
    let (draft, s) ← schema.readElements schema.fields true (fun _ => none) s
    let record ← schema.finish draft fun f => .wrongLength (schema.index f) schema.listTitle
    return (record, ← endList s)
  | '\x7b' :: s => do
    let (draft, s) ← schema.readMembers (s.length + 1) true (fun _ => none) s
    let record ← schema.finish draft fun f => .missingField (schema.name f)
    return (record, ← endObject s)
  | s => .error (mismatch format schema.title s)

end Schema

namespace Schema

/-- A record as an object with all fields in their declared order. -/
def tree {β : Type} (schema : Schema β) (record : β) : Tree :=
  .object (schema.fields.map fun f => (schema.name f, schema.write f (schema.get record f)))

end Schema

/-! ## Variants -/

/-- A variant of an enumeration: a plain one, or one that carries a record. -/
inductive Variant (β : Type) where
  | plain (value : β)
  | carrying (record : Reader β)

def readNull (format : NumberFormat) : Reader Unit := fun s =>
  match dropBlank s with
  | 'n' :: s => do return ((), ← readWord ['u', 'l', 'l'] s)
  | s => .error (mismatch format "unit" s)

/-- The variant of a name. -/
def variantNamed {β : Type} (variants : List (String × Variant β)) (name : String) :
    Except Problem (Variant β) :=
  match variants.lookup name with
  | some variant => .ok variant
  | none => .error (.unknownVariant name (variants.map Prod.fst))

/-- A value of an enumeration: the name of a plain variant, or an object with the name as its only
member, which holds `null` or the record of the variant. -/
def readVariant {β : Type} (format : NumberFormat) (variants : List (String × Variant β)) :
    Reader β := fun s =>
  match dropBlank s with
  | [] => .error .truncated
  | '"' :: s => do
    let (name, s) ← readString s
    match ← variantNamed variants name with
    | .plain value => return (value, s)
    | .carrying _ => throw (.wrongType .bareVariant "struct variant")
  | '\x7b' :: s =>
    match dropBlank s with
    | [] => .error .truncated
    | '"' :: s => do
      let (name, s) ← readString s
      let variant ← variantNamed variants name
      let s ← readColon s
      match variant with
      | .plain value =>
        let (_, s) ← readNull format s
        return (value, ← Schema.endObject s)
      | .carrying record =>
        let (value, s) ← record s
        return (value, ← Schema.endObject s)
    | _ => .error .malformed
  | _ => .error .malformed

/-- The value of a whole text, after which only blanks may follow. -/
def parse {β : Type} (reader : Reader β) (text : String) : Except Problem β := do
  let (value, s) ← reader text.toList
  match dropBlank s with
  | [] => return value
  | _ => throw .malformed

end NeuralFlow.Json
