import JsonShapes.Shape.Join

/-!
# Guarded joins

Inferred shapes can always be joined. Shapes of any other origin may be ill-formed in two ways that
a join does not get past: the order of an object may name a field that the object does not have, and
something that can change may have to become a member of a union. The joins here make the same
shapes as those that are not guarded, but are refused where one of the two is met. A fault that a
join does not come across, because the two sides are equal or the position is given up before, does
not matter.
-/

namespace JsonShapes

/-- Why shapes cannot be put together. -/
inductive ShapeFault where
  /-- A field that neither of two objects has is named in the order of one of them. -/
  | missingField (name : String)
  /-- Something that can change would become a member of a union, or a part of one. -/
  | changingMember (kind : String)
deriving DecidableEq, Repr

namespace Shape

/-- What keeps a shape from being a member of a union, if anything does. -/
def memberFault? (s : Shape) : Option ShapeFault :=
  (s.foreigns.find? (·.nature = .changing)).map (.changingMember ·.kind)

/-- The union of a list of shapes, unless one of them cannot be a member. -/
def ofMembers? (members : List Shape) : Except ShapeFault Shape :=
  match members.findSome? memberFault? with
  | some fault => throw fault
  | none => return ofMembers members

/-! ### One layer -/

variable (part : Shape → Shape → Shape) (partFault? : Shape → Shape → Option ShapeFault)

/-- The fault at a name in the join of the fields of two objects. -/
def fieldFault? (fs gs : List (Field Shape)) (name : String) : Option ShapeFault :=
  match Field.get? fs name, Field.get? gs name with
  | some f, some g => partFault? f.content g.content
  | none, none => some (.missingField name)
  | _, _ => none

/-- The first fault in the join of two objects. -/
def objectsFault? : Shape → Shape → Option ShapeFault
  | .object fs order, .object gs order' =>
    (order ++ order'.filter (· ∉ order)).findSome? (fieldFault? partFault? fs gs)
  | _, _ => none

/-- The fault in the join of two arrays. -/
def arraysFault? (left right : Shape) : Option ShapeFault :=
  if left.same right then none
  else match left, right with
    | .array e, .array f => partFault? e f
    | _, _ => none

/-- The first fault in the union of alternatives, of which the objects met so far make one object
and the arrays met so far one array. Those two become members last. -/
def alternativesFault? (object? array? : Option Shape) : List Shape → Option ShapeFault
  | [] => (object?.toList ++ array?.toList).findSome? memberFault?
  | m :: ms =>
    if m.isObject then
      match object? with
      | none => alternativesFault? (some m) array? ms
      | some known =>
        match objectsFault? partFault? known m with
        | some fault => some fault
        | none => alternativesFault? (some (joinObjects part known m)) array? ms
    else if m.isArray then
      match array? with
      | none => alternativesFault? object? (some m) ms
      | some known =>
        match arraysFault? partFault? known m with
        | some fault => some fault
        | none => alternativesFault? object? (some (joinArrays part known m)) ms
    else
      match m.memberFault? with
      | some fault => some fault
      | none => alternativesFault? object? array? ms

/-- The first fault in one layer of a join, with `part` joining what lies below and `partFault?`
finding the faults there. -/
def joinLayerFault? (policy : Policy) (left right : Shape) : Option ShapeFault :=
  if left.same right then none
  else match left, right with
    | .prim .unknown, _ => none
    | _, .prim .unknown => none
    | .emptyArray, .array _ => none
    | .array _, .emptyArray => none
    | .array e, .array f => partFault? e f
    | .object fs order, .object gs order' =>
      objectsFault? partFault? (.object fs order) (.object gs order')
    | left, right =>
      match policy with
      | .unknown => none
      | .union =>
        alternativesFault? part partFault? none none (left.alternatives ++ right.alternatives)

/-- The first fault in the join of two shapes of at most the given depth. -/
def joinFaultWithin? (policy : Policy) : Nat → Shape → Shape → Option ShapeFault
  | 0 => joinLayerFault? (fun left _ ↦ left) (fun _ _ ↦ none) policy
  | depth + 1 => joinLayerFault? (joinWithin policy depth) (joinFaultWithin? policy depth) policy

/-! ### Whole joins -/

/-- The first fault in the join of two shapes. -/
def joinFault? (policy : Policy) (left right : Shape) : Option ShapeFault :=
  joinFaultWithin? policy (max left.depth right.depth) left right

/-- The join of two shapes, unless there is a fault in it. -/
def join? (policy : Policy) (left right : Shape) : Except ShapeFault Shape :=
  match joinFault? policy left right with
  | some fault => throw fault
  | none => return join policy left right

/-- Whether a shape is the absence of one. -/
def isNothing : Shape → Bool
  | .foreign thing => thing.nature = .nothing
  | _ => false

/-- A shape as an observation: the absence of a shape is none. -/
def observed? (s : Shape) : Option Shape :=
  if s.isNothing then none else some s

/-- What is known after one more shape. -/
def joinNext? (policy : Policy) (known : Option Shape) (s : Shape) :
    Except ShapeFault (Option Shape) :=
  match known with
  | none => return s.observed?
  | some left => return (← left.join? policy s).observed?

/-- The join of a list of shapes, from the left, unless there is a fault in it. As long as only the
absence of shapes is seen, nothing is known. -/
def joinAll? (policy : Policy) (shapes : List Shape) : Except ShapeFault (Option Shape) :=
  shapes.foldlM (joinNext? policy) none

end Shape

end JsonShapes
