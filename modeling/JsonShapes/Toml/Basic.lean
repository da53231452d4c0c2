import JsonShapes.Entries
import JsonShapes.Toml.Moment

/-!
# TOML values

What a configuration may hold at a key. The entries of a table keep the order of their keys, and
each key occurs once. `null` is spelled by no TOML text; it stands for a setting that was left out.
-/

namespace JsonShapes.Toml

/-- A value of a configuration. -/
inductive Value where
  | null
  | bool (b : Bool)
  | int (n : Int)
  | float (x : Float)
  | text (s : String)
  | date (d : Date)
  | time (t : Time)
  | moment (m : Moment)
  | list (items : List Value)
  | table (entries : List (String × Value))

/-- The entries of a table. -/
abbrev Table := List (String × Value)

namespace Value

instance : Inhabited Value where
  default := .null

/-- The entries of a value, if it is a table. -/
def table? : Value → Option Table
  | .table entries => some entries
  | _ => none

end Value

end JsonShapes.Toml
