import JsonShapes.Proofs.Catalog.Hoisting

/-!
# The parts that hoisting declares

Which parts of a shape hoisting declares, in which order and under which labels, hangs on the shape
alone (`Shape.namedParts`): the parts of a part come before it, fields in the order of discovery and
members of a union in the order of their keys. Once it is known which number stands for which part,
the rest of hoisting is substitution: `Shape.standIn` is what it leaves in the place of a shape, and
`Shape.body` is what it declares for a part.

None of this runs against a catalog, so the order of declarations can be read off and compared
before anything is declared; that hoisting follows it is shown in its own module.
-/

namespace JsonShapes.Shape

variable {document : String}

mutual

/-- The parts of the shape at a pointer that hoisting declares, each with the label of its own
position, in the order in which it declares them. -/
def namedParts (document : String) : Shape → String → List (Shape × String)
  | .object fs order, pointer =>
    ((Field.inDiscoveryOrder order (namedPartsOfFields document fs)).flatMap fun f ↦
      f.content (Pointer.extend pointer (.member f.name))) ++
        [(.object fs order, Pointer.label document pointer)]
  | .emptyArray, pointer => [(.emptyArray, Pointer.label document pointer)]
  | .array e, pointer =>
    e.namedParts document (Pointer.extend pointer .item) ++
      if e.isNamed then [(.array e, Pointer.label document pointer)] else []
  | .union ms, pointer =>
    ((namedPartsOfMembers document ms).mergeSort fun a b ↦ a.1 ≤ b.1).flatMap fun m ↦ m.2 pointer
  | _, _ => []
termination_by structural s => s

/-- The fields of an object with the named parts of their contents, which wait for a pointer. -/
def namedPartsOfFields (document : String) :
    List (Field Shape) → List (Field (String → List (Shape × String)))
  | [] => []
  | ⟨name, optional, s⟩ :: fs =>
    ⟨name, optional, s.namedParts document⟩ :: namedPartsOfFields document fs
termination_by structural fs => fs

/-- The members of a union with their keys and named parts, which wait for a pointer. -/
def namedPartsOfMembers (document : String) :
    List Shape → List (String × (String → List (Shape × String)))
  | [] => []
  | m :: ms => (m.key, m.namedParts document) :: namedPartsOfMembers document ms
termination_by structural ms => ms

end

mutual

/-- What hoisting leaves in the place of a shape, with the number that stands for each part. -/
def standIn (number : Shape → Int) : Shape → Shape
  | .object fs order => .ref (number (.object fs order))
  | .emptyArray => .ref (number .emptyArray)
  | .array e => if e.isNamed then .ref (number (.array e)) else .array (e.standIn number)
  | .union ms =>
    ofMembers (((standInMembers number ms).mergeSort fun a b ↦ a.1 ≤ b.1).map (·.2))
  | s => s

/-- The members of a union with their keys and what hoisting leaves in their place. -/
def standInMembers (number : Shape → Int) : List Shape → List (String × Shape)
  | [] => []
  | m :: ms => (m.key, m.standIn number) :: standInMembers number ms

end

/-- The field with what hoisting leaves in the place of its content. -/
def standInField (number : Shape → Int) (f : Field Shape) : Field Shape :=
  { f with content := f.content.standIn number }

/-- What hoisting declares for a part: the part with its own parts replaced. -/
def body (number : Shape → Int) : Shape → Shape
  | .object fs order =>
    ofFields ((Field.inDiscoveryOrder order fs).map (standInField number)) order
  | .array e => .array (e.standIn number)
  | s => s

/-! ### Case by case -/

/-- The parts of an object come before the object, field by field in the order of discovery. -/
theorem namedParts_object (fs : List (Field Shape)) (order : List String) (pointer : String) :
    (object fs order).namedParts document pointer =
      ((Field.inDiscoveryOrder order fs).flatMap fun f ↦
        f.content.namedParts document (Pointer.extend pointer (.member f.name))) ++
          [(.object fs order, Pointer.label document pointer)] := by
  let waiting (f : Field Shape) : Field (String → List (Shape × String)) :=
    ⟨f.name, f.optional, f.content.namedParts document⟩
  have hfields : namedPartsOfFields document fs = fs.map waiting := by
    induction fs with
    | nil => rfl
    | cons f fs ih => rw [namedPartsOfFields, ih, List.map_cons]
  have hname : ∀ f, (waiting f).name = f.name := fun f ↦ rfl
  rw [namedParts, hfields, Field.inDiscoveryOrder_map hname, List.flatMap_map]

/-- The parts of a union are those of its members, in the order of their keys. -/
theorem namedParts_union (ms : List Shape) (pointer : String) :
    (union ms).namedParts document pointer =
      (byKey ms).flatMap fun m ↦ m.namedParts document pointer := by
  have hmembers : namedPartsOfMembers document ms =
      ms.map fun m ↦ (m.key, m.namedParts document) := by
    induction ms with
    | nil => rfl
    | cons m ms ih => rw [namedPartsOfMembers, ih, List.map_cons]
  rw [namedParts, hmembers, mergeSort_byKey, List.flatMap_map]

/-- In the place of a union stands the union of what stands in the places of its members. -/
theorem standIn_union (number : Shape → Int) (ms : List Shape) :
    (union ms).standIn number = ofMembers ((byKey ms).map (standIn number)) := by
  have hmembers : standInMembers number ms = ms.map fun m ↦ (m.key, m.standIn number) := by
    induction ms with
    | nil => rfl
    | cons m ms ih => rw [standInMembers, ih, List.map_cons]
  rw [standIn, hmembers, mergeSort_byKey, List.map_map]
  rfl

/-- An array is declared if its element leaves a reference. -/
theorem isNamed_iff_standIn {number : Shape → Int} {s : Shape} (h : s.references = []) :
    s.isNamed = true ↔ ∃ id, s.standIn number = .ref id := by
  cases s with
  | array e => cases he : e.isNamed <;> simp [isNamed, standIn, he]
  | union ms => simp [isNamed, standIn_union, ofMembers]
  | ref id => exact absurd h (List.cons_ne_nil _ _)
  | _ => simp [isNamed, standIn]

/-- Fields before the object that has them, and by discovery: here `b` before `a`. -/
example : (object [⟨"a", false, .emptyArray⟩, ⟨"b", true, .array .emptyArray⟩]
    ["b", "a"]).namedParts "d" "" =
      [(.emptyArray, "d#/b/*"), (.array .emptyArray, "d#/b"), (.emptyArray, "d#/a"),
        (.object [⟨"a", false, .emptyArray⟩, ⟨"b", true, .array .emptyArray⟩] ["b", "a"],
          "d")] := by
  rfl

end JsonShapes.Shape
