/-!
# Shapes of JSON values

A shape says what is known of the values seen at one position. The tree is raw: nothing in the type
keeps an object from having a field twice or a union from lying inside a union, and what is
well-formed is a predicate beside it.

Two things are recorded that are no part of what a shape means. An object keeps its fields sorted by
name and, apart from that, the `order` in which their names were first seen. A union is a set, kept
as a list of its members. `Shape.same` is equality without either.

Beside JSON shapes there are parts that are none, `Foreign`. A caller may put anything in the place
of a shape, and operations refuse what they find there, some at once and some when they come to it.
No part of this kind is ever inferred.
-/

namespace JsonShapes

/-- The shapes that have no parts: the four kinds of plain value, and `unknown`, which says nothing.
-/
inductive Primitive where
  | null
  | boolean
  | number
  | string
  | unknown
deriving DecidableEq, Repr

/-- The name of a primitive shape. -/
def Primitive.name : Primitive → String
  | .null => "null"
  | .boolean => "boolean"
  | .number => "number"
  | .string => "string"
  | .unknown => "unknown"

/-- A named part of an object, which some of the objects seen may lack. -/
structure Field (σ : Type) where
  /-- The name of the field. -/
  name : String
  /-- Whether some object lacks the field. -/
  optional : Bool
  /-- What is known of the values of the field. -/
  content : σ
deriving Repr

/-- How something that is no shape behaves in the place of one. -/
inductive Nature where
  /-- It is the absence of anything. -/
  | nothing
  /-- It stays what it is. -/
  | fixed
  /-- It can change, and so cannot be held as a member of a set. -/
  | changing
deriving DecidableEq, Repr

/-- Something that is no shape, of which only this is known. -/
structure Foreign where
  /-- The name of its kind. -/
  kind : String
  /-- How it behaves in the place of a shape. -/
  nature : Nature
deriving DecidableEq, Repr

/-- What is known of the values at one position. -/
inductive Shape where
  /-- A plain value of one kind, or anything at all. -/
  | prim (p : Primitive)
  /-- An array of which no item was ever seen. -/
  | emptyArray
  /-- An array whose items have the shape `element`. -/
  | array (element : Shape)
  /-- An object with these fields, first seen in this order. -/
  | object (fields : List (Field Shape)) (order : List String)
  /-- A value of one of the members. -/
  | union (members : List Shape)
  /-- A value of the shape declared under a number. -/
  | ref (id : Int)
  /-- Something that is no shape. -/
  | foreign (thing : Foreign)
deriving Repr

namespace Shape

instance : Inhabited Shape where
  default := .prim .unknown

/-- The shape that says nothing. -/
abbrev unknown : Shape := .prim .unknown

/-! ### Equality -/

mutual

/-- Whether two shapes mean the same: the order in which fields were seen does not count, and unions
are compared as sets. -/
def same : Shape → Shape → Bool
  | .prim p, .prim q => p == q
  | .emptyArray, .emptyArray => true
  | .array e, .array f => e.same f
  | .object fs _, .object gs _ => sameFields fs gs
  | .union ms, .union ns => allIn ms ns && ns.all (anySame ms)
  | .ref i, .ref j => i == j
  | .foreign k, .foreign l => k == l
  | _, _ => false
termination_by structural s => s

/-- Whether two lists of fields agree in names, optional marks and the meaning of the contents. -/
def sameFields : List (Field Shape) → List (Field Shape) → Bool
  | [], [] => true
  | ⟨m, o, s⟩ :: fs, ⟨n, p, t⟩ :: gs => m == n && o == p && s.same t && sameFields fs gs
  | _, _ => false
termination_by structural fs => fs

/-- Whether each member of the first list means the same as one of the second. -/
def allIn : List Shape → List Shape → Bool
  | [], _ => true
  | m :: ms, ns => ns.any (fun n ↦ m.same n) && allIn ms ns
termination_by structural ms => ms

/-- Whether a shape means the same as one of a list. -/
def anySame : List Shape → Shape → Bool
  | [], _ => false
  | m :: ms, n => m.same n || anySame ms n
termination_by structural ms => ms

end

instance : BEq Shape where
  beq := same

/-! ### Building shapes -/

/-- The list without those that mean the same as an earlier one. -/
def distinct (members : List Shape) : List Shape :=
  members.foldl (fun kept m ↦ if anySame kept m then kept else kept ++ [m]) []

/-- The union of a list of shapes. Of members that mean the same the first is kept. -/
def ofMembers (members : List Shape) : Shape :=
  .union (distinct members)

/-- The object with these fields. The order in which the names were seen is `order` unless it is
empty, and otherwise that of the fields as given. -/
def ofFields (fields : List (Field Shape)) (order : List String) : Shape :=
  .object (fields.mergeSort fun f g ↦ f.name ≤ g.name)
    (if order.isEmpty then fields.map (·.name) else order)

/-- The members of a union; any other shape is its own only member. -/
def alternatives : Shape → List Shape
  | .union members => members
  | s => [s]

/-! ### Taking shapes apart -/

mutual

/-- How deep arrays and objects are nested; unions do not count. -/
def depth : Shape → Nat
  | .array e => e.depth + 1
  | .object fs _ => depthOfFields fs + 1
  | .union ms => depthOfAll ms
  | _ => 0

/-- The greatest depth in a list. -/
def depthOfAll : List Shape → Nat
  | [] => 0
  | m :: ms => max m.depth (depthOfAll ms)

/-- The greatest depth of the content of a field. -/
def depthOfFields : List (Field Shape) → Nat
  | [] => 0
  | ⟨_, _, s⟩ :: fs => max s.depth (depthOfFields fs)

end

mutual

/-- The numbers of the declarations that a shape refers to, each as often as it does. -/
def references : Shape → List Int
  | .ref id => [id]
  | .array e => e.references
  | .union ms => referencesOfAll ms
  | .object fs _ => referencesOfFields fs
  | _ => []

/-- The references in a list of shapes. -/
def referencesOfAll : List Shape → List Int
  | [] => []
  | m :: ms => m.references ++ referencesOfAll ms

/-- The references in the contents of fields. -/
def referencesOfFields : List (Field Shape) → List Int
  | [] => []
  | ⟨_, _, s⟩ :: fs => s.references ++ referencesOfFields fs

end

mutual

/-- The parts of a shape that are no shapes themselves. -/
def foreigns : Shape → List Foreign
  | .foreign thing => [thing]
  | .array e => e.foreigns
  | .union ms => foreignsOfAll ms
  | .object fs _ => foreignsOfFields fs
  | _ => []

/-- The parts of a list of shapes that are no shapes. -/
def foreignsOfAll : List Shape → List Foreign
  | [] => []
  | m :: ms => m.foreigns ++ foreignsOfAll ms

/-- The parts of the contents of fields that are no shapes. -/
def foreignsOfFields : List (Field Shape) → List Foreign
  | [] => []
  | ⟨_, _, s⟩ :: fs => s.foreigns ++ foreignsOfFields fs

end

/-- The kind of the first part that is no shape, if there is one. -/
def foreignKind? (s : Shape) : Option String :=
  s.foreigns.head?.map (·.kind)

end Shape

/-! ### Fields -/

namespace Field

variable {σ : Type}

/-- The field of a name, if there is one; the first if there are several. -/
def get? (fields : List (Field σ)) (name : String) : Option (Field σ) :=
  fields.find? (·.name = name)

/-- The fields in the order in which their names were first seen, then those whose name `order` does
not have. A name that several fields share stands for the last of them. -/
def inDiscoveryOrder (order : List String) (fields : List (Field σ)) : List (Field σ) :=
  order.filterMap (get? fields.reverse) ++ fields.filter fun f ↦ f.name ∉ order

end Field

end JsonShapes
