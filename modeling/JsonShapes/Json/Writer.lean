import JsonShapes.Json.Basic
import JsonShapes.Text.Quoted

/-!
# Writing JSON

The compact text of a value has no blanks, the members in their order, and characters beyond ASCII
as they are. A value is determined by it, which is what makes the text usable as a key. The indented
text of a value has every item and member on a line of its own and is for people.
-/

namespace JsonShapes

/-- The text of a number. -/
def Number.write : Number → List Char
  | .int n => (toString n).toList
  | .float x => (Binary64.text x).toList

namespace Json

/-- The text of a string, with `rest` after it. -/
def writeString (rest : List Char) (s : String) : List Char :=
  (Quoted.quote s).toList ++ rest

/-! ### Compact text -/

mutual

/-- The text of a value, with `rest` after it. -/
def write (rest : List Char) : Json → List Char
  | .null => ['n', 'u', 'l', 'l'] ++ rest
  | .bool true => ['t', 'r', 'u', 'e'] ++ rest
  | .bool false => ['f', 'a', 'l', 's', 'e'] ++ rest
  | .number n => n.write ++ rest
  | .string s => writeString rest s
  | .array items => '[' :: writeItems rest items
  | .object members => '{' :: writeMembers rest members

/-- The items of an array with a comma between them, the bracket after them, and `rest`. -/
def writeItems (rest : List Char) : List Json → List Char
  | [] => ']' :: rest
  | [item] => item.write (']' :: rest)
  | item :: more => item.write (',' :: writeItems rest more)

/-- The members of an object with a comma between them, the brace after them, and `rest`. -/
def writeMembers (rest : List Char) : List (String × Json) → List Char
  | [] => '}' :: rest
  | [(name, value)] => writeString (':' :: value.write ('}' :: rest)) name
  | (name, value) :: more => writeString (':' :: value.write (',' :: writeMembers rest more)) name

end

/-- The compact text of a value. -/
def compact (value : Json) : String :=
  String.ofList (value.write [])

/-- The values in the order of their compact texts. -/
def sortedByText (values : List Json) : List Json :=
  ((values.map fun v ↦ (v.compact, v)).mergeSort fun a b ↦ a.1 ≤ b.1).map (·.2)

/-! ### Indented text -/

/-- The end of a line, the blanks that the next one begins with, and `rest`. -/
def breakLine (depth : Nat) (rest : List Char) : List Char :=
  '\n' :: List.replicate (2 * depth) ' ' ++ rest

mutual

/-- The indented text of a value that begins on a line of the given depth, with `rest` after it. -/
def writeIndented (depth : Nat) (rest : List Char) : Json → List Char
  | .array [] => '[' :: ']' :: rest
  | .object [] => '{' :: '}' :: rest
  | .array items => '[' :: writeIndentedItems (depth + 1) (breakLine depth (']' :: rest)) items
  | .object members =>
    '{' :: writeIndentedMembers (depth + 1) (breakLine depth ('}' :: rest)) members
  | value => value.write rest

/-- Items on lines of the given depth with a comma between them, and `rest`. -/
def writeIndentedItems (depth : Nat) (rest : List Char) : List Json → List Char
  | [] => rest
  | [item] => breakLine depth (item.writeIndented depth rest)
  | item :: more =>
    breakLine depth (item.writeIndented depth (',' :: writeIndentedItems depth rest more))

/-- Members on lines of the given depth with a comma between them, and `rest`. -/
def writeIndentedMembers (depth : Nat) (rest : List Char) : List (String × Json) → List Char
  | [] => rest
  | [(name, value)] =>
    breakLine depth (writeString (':' :: ' ' :: value.writeIndented depth rest) name)
  | (name, value) :: more =>
    let after := ',' :: writeIndentedMembers depth rest more
    breakLine depth (writeString (':' :: ' ' :: value.writeIndented depth after) name)

end

/-- The indented text of a value. -/
def indented (value : Json) : String :=
  String.ofList (value.writeIndented 0 [])

end Json

end JsonShapes
