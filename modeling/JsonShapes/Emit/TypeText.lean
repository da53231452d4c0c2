import JsonShapes.Breach
import JsonShapes.Emit.Style

/-!
# The text of a shape

A shape is written as a type expression: `number[]`, `{ a: number; b?: (string | null)[] }`, or the
alias of a declaration. The members of a union are written in an order that depends on nothing but
the union. References, objects and unions come first, then arrays, and the primitive shapes last. In
the first group a reference has its number, and an object or a union the number zero: they stand
before references to declarations with positive numbers, and among each other by their texts. Arrays
stand by their texts as well.
-/

namespace JsonShapes

/-- Where a member of a union is written: by group, then by number, then by text. Lower ranks come
first. -/
structure Rank where
  group : Nat
  number : Int
  text : String

/-- Whether a rank comes before another or is the same. -/
def Rank.le (a b : Rank) : Bool :=
  a.group < b.group || (a.group == b.group &&
    (a.number < b.number || (a.number == b.number && a.text ≤ b.text)))

/-- The place of a primitive shape among its like. -/
def Primitive.rank : Primitive → Int
  | .boolean => 0
  | .number => 1
  | .string => 2
  | .unknown => 3
  | .null => 4

namespace Shape

/-- The rank of a member of a union whose text is given. -/
def rank (m : Shape) (text : String) : Rank :=
  match m with
  | .prim p => ⟨2, p.rank, ""⟩
  | .array _ => ⟨1, 0, text⟩
  | .emptyArray => ⟨1, 0, text⟩
  | .ref id => ⟨0, id, ""⟩
  | _ => ⟨0, 0, text⟩

/-- Whether a shape is a union. -/
def isUnion : Shape → Bool
  | .union _ => true
  | _ => false

mutual

/-- The text of a shape. Something that is no shape has none. -/
def text (style : Style) : Shape → String
  | .prim p => p.name
  | .ref id => style.aliasOf id
  | .emptyArray => Primitive.unknown.name ++ "[]"
  | .array e => if e.isUnion then "(" ++ e.text style ++ ")[]" else e.text style ++ "[]"
  | .union ms =>
    " | ".intercalate (((rankedTexts style ms).mergeSort fun a b ↦ a.1.le b.1).map (·.2))
  | .object fs _ =>
    match fieldTexts style fs with
    | [] => braced ""
    | texts => braced (" " ++ "; ".intercalate texts ++ " ")
  | .foreign _ => ""

/-- The texts of the members of a union with their ranks. -/
def rankedTexts (style : Style) : List Shape → List (Rank × String)
  | [] => []
  | m :: ms =>
    let text := m.text style
    (m.rank text, text) :: rankedTexts style ms

/-- The texts of fields. -/
def fieldTexts (style : Style) : List (Field Shape) → List String
  | [] => []
  | ⟨name, optional, s⟩ :: fs =>
    (Identifier.property name ++ (if optional then "?: " else ": ") ++ s.text style)
      :: fieldTexts style fs

end

/-- The text of a shape, unless a part of it is no shape. -/
def text? (style : Style) (s : Shape) : Except Breach String :=
  match s.foreignKind? with
  | some kind => throw (.noText kind)
  | none => return s.text style

end Shape

end JsonShapes
