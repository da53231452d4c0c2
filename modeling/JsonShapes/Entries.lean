/-!
# Ordered entries

A list of keys with a value each, in the order in which the keys first came. Giving a key that is
there a new value keeps its place, so whatever lists the entries shows them in the order of their
arrival. Values are looked up with `List.lookup`.
-/

namespace JsonShapes.Entries

variable {κ α : Type} [DecidableEq κ]

/-- Gives a key its value. A key that is already there keeps its place, and a new one comes last. -/
def set (key : κ) (value : α) : List (κ × α) → List (κ × α)
  | [] => [(key, value)]
  | (other, old) :: rest =>
    if other = key then (key, value) :: rest else (other, old) :: set key value rest

/-- Takes a key away, if it is there. -/
def remove (key : κ) (entries : List (κ × α)) : List (κ × α) :=
  entries.filter (·.1 ≠ key)

/-- The entries that a list of pairs leaves: of a repeated key the first place and the last value.
-/
def ofList (pairs : List (κ × α)) : List (κ × α) :=
  pairs.foldl (fun entries (key, value) ↦ set key value entries) []

example : ofList [("a", 1), ("b", 2), ("a", 3)] = [("a", 3), ("b", 2)] := by decide

end JsonShapes.Entries
