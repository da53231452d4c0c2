import JsonShapes.Shape.Key

/-!
# The catalog

The catalog holds the shapes that have a name of their own. Each is declared once: an index takes
the key of a shape to its number, and declaring a shape again only adds the place where it was seen.
Numbers are given out from one in the order of declaration.

Every operation either succeeds or leaves the catalog as it was. `verify` checks the rules that the
operations keep; the stores are plain lists of entries, so a catalog that breaks them can be written
down, and `verify` says which one is broken.
-/

namespace JsonShapes

/-- A declared shape. -/
structure Declaration where
  /-- The number that references to the shape bear. -/
  id : Int
  /-- The shape itself. -/
  shape : Shape
  /-- The key of the shape. -/
  key : String
  /-- The labels of the places where the shape was seen, each once, in the order of discovery. -/
  places : List String

/-- Whether nothing is known of the items of a declared array. -/
def Declaration.isUnresolved (d : Declaration) : Bool :=
  match d.shape with
  | .emptyArray => true
  | _ => false

/-- The declared shapes, with an index by key. -/
structure Catalog where
  /-- The declarations by their slots, in the order of declaration. -/
  slots : List (Int × Declaration)
  /-- The number under which a key is declared. -/
  index : List (String × Int)
  /-- The number of the next declaration. -/
  nextId : Int

namespace Catalog

/-- The catalog without declarations. -/
def empty : Catalog :=
  ⟨[], [], 1⟩

/-- The declarations in their order. -/
def declarations (c : Catalog) : List Declaration :=
  c.slots.map (·.2)

/-- The number of declarations. -/
def size (c : Catalog) : Nat :=
  c.slots.length

/-- Whether a number has a declaration. -/
def contains (c : Catalog) (id : Int) : Bool :=
  (c.slots.lookup id).isSome

/-- The declaration of a number. -/
def get (c : Catalog) (id : Int) : Except Breach Declaration :=
  match c.slots.lookup id with
  | some d => return d
  | none => throw (.unknownDeclaration id)

/-- The number under which a key is declared, if it is. -/
def lookup (c : Catalog) (key : String) : Option Int :=
  c.index.lookup key

/-- The declared arrays of whose items nothing is known. -/
def unresolved (c : Catalog) : List Declaration :=
  c.declarations.filter (·.isUnresolved)

/-! ### Operations -/

/-- Declares a shape that is not declared yet and whose references all are, under the next number.
-/
def insert (c : Catalog) (shape : Shape) (place : String) : Except Breach (Int × Catalog) := do
  let key ← shape.key?
  if let some id := c.lookup key then throw (.alreadyDeclared key id)
  if let some id := shape.references.find? (!c.contains ·) then throw (.forwardReference key id)
  return (c.nextId,
    { slots := Entries.set c.nextId ⟨c.nextId, shape, key, [place]⟩ c.slots
      index := Entries.set key c.nextId c.index
      nextId := c.nextId + 1 })

/-- Adds a place to a declaration, unless the declaration has it. -/
def addPlace (c : Catalog) (id : Int) (place : String) : Except Breach Catalog := do
  let d ← c.get id
  if place ∈ d.places then return c
  return { c with slots := Entries.set id { d with places := d.places ++ [place] } c.slots }

/-- The number of a shape, declared if it was not: in either case the place is among its places. -/
def declare (c : Catalog) (shape : Shape) (place : String) : Except Breach (Int × Catalog) := do
  match c.lookup (← shape.key?) with
  | some id => return (id, ← c.addPlace id place)
  | none => c.insert shape place

/-! ### Checking -/

/-- Checks that each key of the index leads to a declaration that has it. -/
def verifyIndex (c : Catalog) : Except Breach Unit :=
  c.index.forM fun (key, id) ↦
    match c.slots.lookup id with
    | some d => if d.key = key then return else throw (.indexOutOfSync key id)
    | none => throw (.indexOutOfSync key id)

/-- Checks the slots from one on whose number has to be above `previous`: numbers increase and are
those of their declarations, each declaration is in the index, and no reference is dangling. -/
def verifySlots (c : Catalog) (previous : Int) : List (Int × Declaration) → Except Breach Unit
  | [] => return
  | (id, d) :: rest => do
    if id ≤ previous ∨ d.id ≠ id then throw (.idsNotIncreasing id)
    if c.lookup d.key ≠ some id then throw (.missingFromIndex id)
    if let some target := d.shape.references.find? (!c.contains ·) then
      throw (.danglingReference id target)
    verifySlots c id rest

/-- Checks that a catalog keeps the rules: index and declarations agree, numbers are positive and
increase, and every reference leads to a declaration. -/
def verify (c : Catalog) : Except Breach Unit := do
  c.verifyIndex
  c.verifySlots 0 c.slots

end Catalog

end JsonShapes
