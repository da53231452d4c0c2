import JsonShapes.Shape.Basic

/-!
# Joining shapes

Two observations of the same position are joined into one shape. Arrays join their elements and
objects their fields; a field that one of the two objects lacks becomes optional. What cannot be
joined that way is a conflict, which a policy resolves: keep every alternative in a union, or give
up and know nothing.

A union holds at most one object and at most one array, as those join among themselves. So joining
two unions joins the objects of both and the arrays of both, and one of the operands of such a join
may itself be the outcome of a join. The recursion is therefore not on the shapes. One layer is
`joinLayer`, which leaves the parts below to a function it is given; `join` iterates it as often as
the deeper operand has layers, and a join never has more layers than that.
-/

namespace JsonShapes

/-- How a conflict between two observations is resolved. -/
inductive Policy where
  /-- Every alternative is kept. -/
  | union
  /-- The position is given up as unknown. -/
  | unknown
deriving DecidableEq, Repr

/-- All policies, in the order in which they are listed to a user. -/
def Policy.all : List Policy := [.union, .unknown]

/-- The word for a policy. -/
def Policy.name : Policy → String
  | .union => "union"
  | .unknown => "unknown"

/-- Combines the items of a list from the left, if it has any. -/
def reduce? {α : Type} (f : α → α → α) : List α → Option α
  | [] => none
  | a :: l => some (l.foldl f a)

namespace Shape

variable (part : Shape → Shape → Shape)

/-- The fields of the join of two objects, for the names given. -/
def joinFields (names : List String) (fs gs : List (Field Shape)) : List (Field Shape) :=
  names.filterMap fun name ↦
    match Field.get? fs name, Field.get? gs name with
    | some f, some g => some ⟨name, f.optional || g.optional, part f.content g.content⟩
    | some f, none => some { f with optional := true }
    | none, some g => some { g with optional := true }
    | none, none => none

/-- The join of two objects; names that only the second has come after those of the first. Anything
but two objects stays as the first is. -/
def joinObjects : Shape → Shape → Shape
  | .object fs order, .object gs order' =>
    let names := order ++ order'.filter (· ∉ order)
    ofFields (joinFields part names fs gs) names
  | left, _ => left

/-- The join of two arrays: an array of which no item was seen adds nothing. Anything but two arrays
stays as the first is. -/
def joinArrays (left right : Shape) : Shape :=
  if left.same right then left
  else match left, right with
    | .emptyArray, .array f => .array f
    | .array e, .array f => .array (part e f)
    | left, _ => left

/-- Whether a shape is an object. -/
def isObject : Shape → Bool
  | .object .. => true
  | _ => false

/-- Whether a shape is an array, its items known or not. -/
def isArray : Shape → Bool
  | .emptyArray => true
  | .array _ => true
  | _ => false

/-- The shape with the given alternatives: the objects become one, the arrays become one, and the
others are kept. A single alternative stands for itself. -/
def joinAlternatives (members : List Shape) : Shape :=
  let others := distinct (members.filter fun m ↦ !m.isObject && !m.isArray)
  let object? := reduce? (joinObjects part) (members.filter isObject)
  let array? := reduce? (joinArrays part) (members.filter isArray)
  match others ++ object?.toList ++ array?.toList with
  | [only] => only
  | all => .union all

/-- One layer of a join, with `part` joining what lies below. -/
def joinLayer (policy : Policy) (left right : Shape) : Shape :=
  if left.same right then left
  else match left, right with
    | .prim .unknown, _ => unknown
    | _, .prim .unknown => unknown
    | .emptyArray, .array f => .array f
    | .array e, .emptyArray => .array e
    | .array e, .array f => .array (part e f)
    | .object fs order, .object gs order' =>
      joinObjects part (.object fs order) (.object gs order')
    | left, right =>
      match policy with
      | .unknown => unknown
      | .union => joinAlternatives part (left.alternatives ++ right.alternatives)

/-- The join of two shapes of at most the given depth. -/
def joinWithin (policy : Policy) : Nat → Shape → Shape → Shape
  | 0 => joinLayer (fun left _ ↦ left) policy
  | depth + 1 => joinLayer (joinWithin policy depth) policy

/-- The join of two shapes. -/
def join (policy : Policy) (left right : Shape) : Shape :=
  joinWithin policy (max left.depth right.depth) left right

/-- The join of a list of shapes, from the left, if there are any. -/
def joinAll (policy : Policy) (shapes : List Shape) : Option Shape :=
  reduce? (join policy) shapes

end Shape

end JsonShapes
