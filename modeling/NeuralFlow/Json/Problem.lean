import NeuralFlow.Decimal.Layout
import NeuralFlow.Text.Quoted

/-!
What can be wrong with a JSON text: it ends too early, it is no JSON, or it is JSON with the wrong
content. A text is read from left to right and the first problem met is the one reported.
-/

namespace NeuralFlow.Json

/-- What was met in the place of a wanted value. -/
inductive Found where
  | null
  | boolean (b : Bool)
  | integer (n : Int)
  | float (x : Float)
  | string (s : String)
  | list
  | object
  | bareVariant
deriving DecidableEq

/-- Why a text was refused. -/
inductive Problem where
  | truncated
  | malformed
  | wrongType (found : Found) (wanted : String)
  | outOfRange (n : Int) (wanted : String)
  | wrongLength (n : Nat) (wanted : String)
  | missingField (name : String)
  | duplicateField (name : String)
  | unknownField (name : String) (known : List String)
  | unknownVariant (name : String) (known : List String)
deriving DecidableEq

def Found.describe : Found → String
  | .null => "null"
  | .boolean b => s!"boolean `{b}`"
  | .integer n => s!"integer `{n}`"
  | .float x => s!"floating point `{Layout.jsonDoubleText x}`"
  | .string s => s!"string {Text.quoted s}"
  | .list => "sequence"
  | .object => "map"
  | .bareVariant => "unit variant"

/-- A list of names of which one was expected. -/
def oneOf (names : List String) : String :=
  match names.map fun name => s!"`{name}`" with
  | [] => "nothing"
  | [a] => a
  | [a, b] => s!"{a} or {b}"
  | many => "one of " ++ String.intercalate ", " many

namespace Problem

def message : Problem → String
  | .truncated => "the text ends inside a value"
  | .malformed => "the text is no JSON"
  | .wrongType found wanted => s!"invalid type: {found.describe}, expected {wanted}"
  | .outOfRange n wanted => s!"invalid value: {(Found.integer n).describe}, expected {wanted}"
  | .wrongLength n wanted => s!"invalid length {n}, expected {wanted}"
  | .missingField name => s!"missing field `{name}`"
  | .duplicateField name => s!"duplicate field `{name}`"
  | .unknownField name known => s!"unknown field `{name}`, expected {oneOf known}"
  | .unknownVariant name known => s!"unknown variant `{name}`, expected {oneOf known}"

end Problem

end NeuralFlow.Json
