import JsonShapes.Catalog.Basic
import JsonShapes.Pointer
import JsonShapes.Shape.Datum
import JsonShapes.Shape.Infer

/-!
# Hoisting

Hoisting replaces the parts of a shape that need a name by references to declarations: every object,
every array of which no item was seen, and every array whose items have such a reference for a
shape. It works from the bottom up, so a declaration refers to earlier ones only, and it declares
the fields of an object in the order in which they were discovered and the members of a union in the
order of their keys.

A document is added to a catalog by inferring the shape of its value and hoisting that. Data that
may not be JSON are converted likewise, if they have a shape at all.
-/

namespace JsonShapes

/-- A computation that extends a catalog. After a breach the catalog holds what was declared before
it. -/
abbrev Hoisting (α : Type) := ExceptT Breach (StateM Catalog) α

namespace Hoisting

/-- Declares a shape, and gives its number. -/
def declare (shape : Shape) (place : String) : Hoisting Int := fun catalog ↦
  match catalog.declare shape place with
  | .ok (id, extended) => (.ok id, extended)
  | .error breach => (.error breach, catalog)

/-- A shape that waits for the pointer to its position in order to be hoisted. -/
abbrev Deferred := String → Hoisting Shape

/-- Hoists the fields of the object at a position one after another. -/
def fields (pointer : String) : List (Field Deferred) → Hoisting (List (Field Shape))
  | [] => return []
  | f :: rest => do
    let content ← f.content (Pointer.extend pointer (.member f.name))
    return ⟨f.name, f.optional, content⟩ :: (← fields pointer rest)

/-- Hoists the members of the union at a position, in the order of their keys. -/
def members (pointer : String) (keyed : List (String × Deferred)) : Hoisting (List Shape) :=
  (keyed.mergeSort fun a b ↦ a.1 ≤ b.1).mapM fun (_, hoist) ↦ hoist pointer

end Hoisting

namespace Shape

mutual

/-- Hoists the shape at a position of a document. -/
def hoist (document : String) : Shape → Hoisting.Deferred
  | .object fs order, pointer => do
    let hoisted ← Hoisting.fields pointer (Field.inDiscoveryOrder order (hoistFields document fs))
    return .ref (← Hoisting.declare (ofFields hoisted order) (Pointer.label document pointer))
  | .emptyArray, pointer => do
    return .ref (← Hoisting.declare .emptyArray (Pointer.label document pointer))
  | .array e, pointer => do
    match ← e.hoist document (Pointer.extend pointer .item) with
    | .ref id =>
      return .ref (← Hoisting.declare (.array (.ref id)) (Pointer.label document pointer))
    | element => return .array element
  | .union ms, pointer => do
    liftM (ms.forM requireEncoding)
    return ofMembers (← Hoisting.members pointer (hoistMembers document ms))
  | s, _ => return s
termination_by structural s => s

/-- The fields of an object with their contents waiting to be hoisted. -/
def hoistFields (document : String) : List (Field Shape) → List (Field Hoisting.Deferred)
  | [] => []
  | ⟨name, optional, s⟩ :: fs => ⟨name, optional, s.hoist document⟩ :: hoistFields document fs
termination_by structural fs => fs

/-- The members of a union with their keys, waiting to be hoisted. -/
def hoistMembers (document : String) : List Shape → List (String × Hoisting.Deferred)
  | [] => []
  | m :: ms => (m.key, m.hoist document) :: hoistMembers document ms
termination_by structural ms => ms

end

end Shape

namespace Hoisting

/-- Adds the value of a document to the catalog: its shape, hoisted. -/
def addValue (policy : Policy) (document : String) (value : Json) : Hoisting Shape :=
  (Shape.ofJson policy value).hoist document ""

/-- Adds data to the catalog: their shape, hoisted. Nothing is declared before all of them have a
shape. -/
def convert (policy : Policy) (document : String) (data : Datum) :
    ExceptT Datum.Refusal (StateM Catalog) Shape := do
  let s ← liftM (Shape.ofDatum? policy data)
  (s.hoist document "").adapt .breach

/-- The number of the shape of a document, which gets a declaration of its own if it is not a
reference to one. -/
def declareRoot (shape : Shape) (document : String) : Hoisting Int :=
  match shape with
  | .ref id => return id
  | shape => declare shape document

/-- Adds a document, and gives the number of the declaration that stands for its value. -/
def addDocument (policy : Policy) (document : String) (value : Json) : Hoisting Int := do
  declareRoot (← addValue policy document value) document

end Hoisting

end JsonShapes
