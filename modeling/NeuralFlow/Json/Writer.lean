import NeuralFlow.Json.Number

/-!
Writing JSON text, on one line or indented.
-/

namespace NeuralFlow.Json

/-- A JSON value to be written. Words and names hold no character that needs an escape, and the text of a
number is given. -/
inductive Tree where
  | boolean (b : Bool)
  | number (text : List Char)
  | word (s : String)
  | list (items : List Tree)
  | object (members : List (String × Tree))

namespace Tree

def nat (n : Nat) : Tree := .number (Layout.digits n)

def single (format : NumberFormat) (x : Float32) : Tree := .number (format.write x)

def quotedName (s : String) : List Char := '"' :: s.toList ++ ['"']

def booleanChars : Bool → List Char
  | true => ['t', 'r', 'u', 'e']
  | false => ['f', 'a', 'l', 's', 'e']

mutual

/-- The characters of a value on one line, without blanks. -/
def compactChars : Tree → List Char
  | .boolean b => booleanChars b
  | .number text => text
  | .word s => quotedName s
  | .list items => '[' :: compactItems items ++ [']']
  | .object members => '\x7b' :: compactMembers members ++ ['\x7d']

def compactItems : List Tree → List Char
  | [] => []
  | [item] => item.compactChars
  | item :: items => item.compactChars ++ ',' :: compactItems items

def compactMembers : List (String × Tree) → List Char
  | [] => []
  | [(name, value)] => quotedName name ++ ':' :: value.compactChars
  | (name, value) :: members =>
    quotedName name ++ ':' :: value.compactChars ++ ',' :: compactMembers members

end

def newLine (depth : Nat) : List Char := '\n' :: List.replicate (2 * depth) ' '

mutual

/-- The characters of a value at a depth, with every item and member on a line of its own. -/
def prettyChars (depth : Nat) : Tree → List Char
  | .boolean b => booleanChars b
  | .number text => text
  | .word s => quotedName s
  | .list [] => ['[', ']']
  | .list (item :: items) =>
    '[' :: newLine (depth + 1) ++ item.prettyChars (depth + 1) ++ prettyItems (depth + 1) items ++
      newLine depth ++ [']']
  | .object [] => ['\x7b', '\x7d']
  | .object ((name, value) :: members) =>
    '\x7b' :: newLine (depth + 1) ++ quotedName name ++ ':' :: ' ' :: value.prettyChars (depth + 1)
      ++ prettyMembers (depth + 1) members ++ newLine depth ++ ['\x7d']

def prettyItems (depth : Nat) : List Tree → List Char
  | [] => []
  | item :: items => ',' :: newLine depth ++ item.prettyChars depth ++ prettyItems depth items

def prettyMembers (depth : Nat) : List (String × Tree) → List Char
  | [] => []
  | (name, value) :: members =>
    ',' :: newLine depth ++ quotedName name ++ ':' :: ' ' :: value.prettyChars depth ++
      prettyMembers depth members

end

def compact (t : Tree) : String := String.ofList t.compactChars

def pretty (t : Tree) : String := String.ofList (t.prettyChars 0)

end Tree

end NeuralFlow.Json
