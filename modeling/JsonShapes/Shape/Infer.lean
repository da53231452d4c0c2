import JsonShapes.Json.Basic
import JsonShapes.Shape.Join

/-!
# The shape of a value

The shape of a value before anything is declared. The shapes of the items of an array are joined, so
that a field which some items lack is optional and a conflict between items is resolved by the
policy.
-/

namespace JsonShapes.Shape

mutual

/-- The shape of a value. -/
def ofJson (policy : Policy) : Json → Shape
  | .null => .prim .null
  | .bool _ => .prim .boolean
  | .number _ => .prim .number
  | .string _ => .prim .string
  | .array items =>
    match joinAll policy (ofItems policy items) with
    | some element => .array element
    | none => .emptyArray
  | .object members => ofFields (ofMemberList policy members) []

/-- The shapes of the items of an array. -/
def ofItems (policy : Policy) : List Json → List Shape
  | [] => []
  | item :: rest => ofJson policy item :: ofItems policy rest

/-- The fields that the members of an object are. -/
def ofMemberList (policy : Policy) : List (String × Json) → List (Field Shape)
  | [] => []
  | (name, value) :: rest => ⟨name, false, ofJson policy value⟩ :: ofMemberList policy rest

end

end JsonShapes.Shape
