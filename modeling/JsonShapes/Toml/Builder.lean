import JsonShapes.Toml.Basic

/-!
# Building a table

A document builds its table statement by statement, and what a statement may still do depends on
what earlier ones said. A namespace that a header opened is closed to further headers of its name;
one that a dotted key ran through is closed from the next header on; the value of a key is frozen
with all that lies below it if it is an array or a table. A header of an array of tables starts over
with its namespace, since that means a new table from there on.
-/

namespace JsonShapes.Toml

/-- The names that lead from the root to a value. -/
abbrev Namespace := List String

/-- Applies a change to the table that a path leads to. Missing tables come to be on the way, an
array of tables stands for the last of them, and nothing else can be passed through. -/
def Table.alter (change : Table → Option Table) : Namespace → Table → Option Table
  | [], entries => change entries
  | name :: rest, entries =>
    match entries.lookup name with
    | none => do return Entries.set name (.table (← alter change rest [])) entries
    | some (.table inner) => do return Entries.set name (.table (← alter change rest inner)) entries
    | some (.list items) =>
      match items.getLast? with
      | some (.table inner) => do
        let last := Value.table (← alter change rest inner)
        return Entries.set name (.list (items.dropLast ++ [last])) entries
      | _ => none
    | some _ => none

/-- A table under construction. -/
structure Builder where
  /-- What the statements so far say. -/
  table : Table
  /-- The namespaces that no header may open. -/
  closed : List Namespace
  /-- The namespaces that will be closed when the next header comes. -/
  pending : List Namespace
  /-- The namespaces in which, and below which, nothing may change. -/
  frozen : List Namespace

namespace Builder

/-- The empty table. -/
def empty : Builder :=
  ⟨[], [], [], []⟩

/-- Whether a namespace is frozen, by itself or with one above it. -/
def isFrozen (b : Builder) (path : Namespace) : Bool :=
  b.frozen.any (·.isPrefixOf path)

/-- Closes the namespaces that wait for the next header. -/
def beginHeader (b : Builder) : Builder :=
  { b with closed := b.pending ++ b.closed, pending := [] }

/-- Opens a table. -/
def openTable (b : Builder) (path : Namespace) : Option Builder := do
  let b := b.beginHeader
  if b.closed.contains path || b.isFrozen path then none
  return { b with closed := path :: b.closed, table := ← Table.alter some path b.table }

/-- Adds a table to an array of tables. -/
def appendTable (b : Builder) (path : Namespace) : Option Builder := do
  let b := b.beginHeader
  if b.isFrozen path then none
  let last := path.getLastD ""
  let change (entries : Table) : Option Table :=
    match entries.lookup last with
    | none => some (Entries.set last (.list [.table []]) entries)
    | some (.list items) => some (Entries.set last (.list (items ++ [.table []])) entries)
    | some _ => none
  return { b with
    closed := path :: b.closed.filter (!path.isPrefixOf ·)
    frozen := b.frozen.filter (!path.isPrefixOf ·)
    table := ← Table.alter change path.dropLast b.table }

/-- Whether nothing may be added to a value. -/
def isContainer : Value → Bool
  | .list _ => true
  | .table _ => true
  | _ => false

/-- Gives a key, dotted or not, its value in the table that `header` opened. -/
def assign (b : Builder) (header key : Namespace) (value : Value) : Option Builder := do
  let passed := (List.range (key.length - 1)).map fun n ↦ header ++ key.take (n + 1)
  if passed.any b.closed.contains then none
  let parent := header ++ key.dropLast
  let last := key.getLastD ""
  if b.isFrozen parent then none
  let change (entries : Table) : Option Table :=
    if (entries.lookup last).isSome then none else some (Entries.set last value entries)
  return { b with
    table := ← Table.alter change parent b.table
    pending := passed ++ b.pending
    frozen := if isContainer value then (header ++ key) :: b.frozen else b.frozen }

end Builder

end JsonShapes.Toml
