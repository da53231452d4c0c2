import JsonShapes.Json.Datum
import JsonShapes.Shape.Guarded

/-!
# The shape of data

The shape of data of which parts may be no JSON. There is none if any part is refused, and then it
is the first one that is, in the order of the document: inference goes on to the next item of an
array only when the shape of an item is joined to what is known of those before it, but it looks at
all items, even where the join is unknown and nothing that follows can change it.
-/

namespace JsonShapes

/-- Why data have no shape. -/
inductive Datum.Refusal where
  /-- A part is no JSON. -/
  | breach (b : Breach)
  /-- The shapes of two items cannot be put together. -/
  | fault (f : ShapeFault)

namespace Shape

mutual

/-- The shape of data, unless a part is refused. -/
def ofDatum? (policy : Policy) : Datum → Except Datum.Refusal Shape
  | .null => return .prim .null
  | .bool _ => return .prim .boolean
  | .number _ => return .prim .number
  | .string _ => return .prim .string
  | .array items => do
    match ← joinItems? policy none items with
    | some element => return .array element
    | none => return .emptyArray
  | .object members => return ofFields (← ofDatumMembers? policy members) []
  | .foreign kind => throw (.breach (.notJson kind))

/-- What is known of the items of an array after those that are left, each of which is joined to
what is known before the next one. -/
def joinItems? (policy : Policy) (known : Option Shape) :
    List Datum → Except Datum.Refusal (Option Shape)
  | [] => return known
  | item :: rest => do
    let s ← ofDatum? policy item
    match joinNext? policy known s with
    | .ok known => joinItems? policy known rest
    | .error fault => throw (.fault fault)

/-- The fields that the members of an object are. A name is looked at before its value. -/
def ofDatumMembers? (policy : Policy) :
    List (Datum.Name × Datum) → Except Datum.Refusal (List (Field Shape))
  | [] => return []
  | (.foreign kind, _) :: _ => throw (.breach (.nameNotText kind))
  | (.text name, value) :: rest => do
    let s ← ofDatum? policy value
    return ⟨name, false, s⟩ :: (← ofDatumMembers? policy rest)

end

end Shape

end JsonShapes
