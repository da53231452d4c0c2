import JsonShapes.Breach

/-!
# Data that may not be JSON

A tree of values some of whose parts may be no JSON, and some of whose members may have something
other than a text for a name. Such a tree is accepted as a whole or refused at its first offending
part, in the order of the document, the name of a member coming before its value.
-/

namespace JsonShapes

/-- The name of a member: a text, or something else of which the kind is known. -/
inductive Datum.Name where
  | text (s : String)
  | foreign (kind : String)

/-- A value of which parts may be no JSON. -/
inductive Datum where
  | null
  | bool (b : Bool)
  | number (n : Number)
  | string (s : String)
  | array (items : List Datum)
  | object (members : List (Datum.Name × Datum))
  | foreign (kind : String)

namespace Datum

instance : Inhabited Datum where
  default := .null

mutual

/-- A JSON value as a tree all parts of which are JSON. -/
def ofJson : Json → Datum
  | .null => .null
  | .bool b => .bool b
  | .number n => .number n
  | .string s => .string s
  | .array items => .array (ofItems items)
  | .object members => .object (ofMembers members)

/-- The items of an array as trees. -/
def ofItems : List Json → List Datum
  | [] => []
  | item :: rest => ofJson item :: ofItems rest

/-- The members of an object as trees with texts for names. -/
def ofMembers : List (String × Json) → List (Name × Datum)
  | [] => []
  | (name, value) :: rest => (.text name, ofJson value) :: ofMembers rest

end

mutual

/-- The JSON value that a tree is, if all of its parts are JSON. -/
def toJson : Datum → Except Breach Json
  | .null => return .null
  | .bool b => return .bool b
  | .number n => return .number n
  | .string s => return .string s
  | .array items => return .array (← itemsToJson items)
  | .object members => return .object (← membersToJson members)
  | .foreign kind => throw (.notJson kind)

/-- The items of an array as JSON values. -/
def itemsToJson : List Datum → Except Breach (List Json)
  | [] => return []
  | item :: rest => return (← item.toJson) :: (← itemsToJson rest)

/-- The members of an object with texts for names and JSON values. -/
def membersToJson : List (Name × Datum) → Except Breach (List (String × Json))
  | [] => return []
  | (.foreign kind, _) :: _ => throw (.nameNotText kind)
  | (.text name, value) :: rest => return (name, ← value.toJson) :: (← membersToJson rest)

end

end Datum

end JsonShapes
