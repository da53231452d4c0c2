import JsonShapes.Decimal.Binary64
import JsonShapes.Entries

/-!
# JSON values

A value as a document spells it. The members of an object keep their order and each name occurs
once; `Json.ofMembers` is the only way in which readers build an object. Whole numbers are kept
apart from numbers with a fraction or an exponent, since only the former have any size.
-/

namespace JsonShapes

/-- A number: a whole number, or a double-precision number. -/
inductive Number where
  | int (n : Int)
  | float (x : Float)

/-- A JSON value. -/
inductive Json where
  | null
  | bool (b : Bool)
  | number (n : Number)
  | string (s : String)
  | array (items : List Json)
  | object (members : List (String × Json))

namespace Json

instance : Inhabited Json where
  default := .null

/-- The object that a list of members spells: a repeated name keeps its first place and takes its
last value. -/
def ofMembers (members : List (String × Json)) : Json :=
  .object (Entries.ofList members)

/-- The value of a member, if the value is an object that has it. -/
def member? (value : Json) (name : String) : Option Json :=
  match value with
  | .object members => members.lookup name
  | _ => none

end Json

end JsonShapes
