import JsonShapes.Breach
import JsonShapes.Digest.Sha256
import JsonShapes.Json.Writer
import JsonShapes.Text.Utf8

/-!
# The key of a shape

A shape is encoded as a JSON value in which nothing depends on what its meaning leaves open: fields
come by name and the members of a union by the text of their encodings. The compact text of the
encoding is the key under which a shape is declared, so two shapes have the same key exactly if they
mean the same.
-/

namespace JsonShapes.Shape

mutual

/-- The encoding of a shape. -/
def encoding : Shape → Json
  | .prim p => .string p.name
  | .emptyArray => .array [.string "array", .null]
  | .array e => .array [.string "array", e.encoding]
  | .ref id => .array [.string "ref", .number (.int id)]
  | .union ms => .array [.string "union", .array (Json.sortedByText (encodings ms))]
  | .object fs _ =>
    .array [.string "object", .array (((encodedFields fs).mergeSort
      fun f g ↦ f.name ≤ g.name).map fun f ↦ .array [.string f.name, .bool f.optional, f.content])]
  | .foreign thing => .array [.string "foreign", .string thing.kind]

/-- The encodings of a list of shapes. -/
def encodings : List Shape → List Json
  | [] => []
  | m :: ms => m.encoding :: encodings ms

/-- The fields with their contents encoded. -/
def encodedFields : List (Field Shape) → List (Field Json)
  | [] => []
  | ⟨name, optional, s⟩ :: fs => ⟨name, optional, s.encoding⟩ :: encodedFields fs

end

/-- The text under which a shape is declared. -/
def key (s : Shape) : String :=
  s.encoding.compact

/-- A shape once it is certain that it has an encoding: no part of it is anything but a shape. -/
def requireEncoding (s : Shape) : Except Breach Unit :=
  match s.foreignKind? with
  | some kind => throw (.noEncoding kind)
  | none => return

/-- The key of a shape, unless a part of it is no shape. -/
def key? (s : Shape) : Except Breach String := do
  s.requireEncoding
  return s.key

/-- The digest of the key of a shape, in hexadecimal digits. -/
def digest (s : Shape) : String :=
  Sha256.hexDigest (Utf8.encode s.key)

end JsonShapes.Shape
