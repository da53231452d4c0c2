import JsonShapes.Pointer
import JsonShapes.Proofs.Shape.Equality
import Mathlib.Data.Set.Lattice

/-!
# What hoisting is to note of a shape

Hoisting gives some parts of a shape a declaration of their own (`Shape.isNamed`) and notes with
each the label of its position. `Shape.occurrences` collects these notes for a shape at a pointer
without any regard to a catalog: a note pairs the part with the label. A part stands there for all
shapes that mean the same, so that shapes which mean the same have the same notes
(`occurrences_eq_of_same`), in whatever order their fields were seen and their members are listed.

## Notes and paths

The label of a position is a text, and two positions may have the same. Where that matters,
positions are paths (`NamedAt`): a note is a part at the end of a path together with the label of
this path (`occurs_iff`). The root is noted as well, whatever it is, as every document has a
declaration that its stub passes on (`documentNotes`).

Elements of arrays are where the cases part. An array of a part with a declaration of its own gets
one too; an array of something else gets none, and then only what lies below its items may have one.
-/

namespace JsonShapes.Shape

/-- Whether hoisting gives a shape a declaration of its own and puts a reference in its place. -/
def isNamed : Shape → Bool
  | .object .. => true
  | .emptyArray => true
  | .array e => e.isNamed
  | _ => false

/-- Whether a part gets a declaration is a matter of its meaning. -/
theorem isNamed_of_same {s t : Shape} (h : s.same t = true) : s.isNamed = t.isNamed := by
  induction s generalizing t with
  | array e ih =>
    cases same_cases h with
    | array hef => simpa only [isNamed] using ih hef
  | _ =>
    cases same_cases h
    rfl

/-- The note that a shape was seen at a place, for whichever shape that means the same. -/
def note (s : Shape) (place : String) : Set (Shape × String) :=
  {o | s.same o.1 = true ∧ o.2 = place}

theorem note_eq_of_same {s t : Shape} (h : s.same t = true) (place : String) :
    s.note place = t.note place := by
  ext o
  exact and_congr_left fun _ ↦ ⟨same_trans (same_symm h), same_trans h⟩

/-- The shape at a pointer has a part that gets a declaration with this note. -/
inductive Occurs (document : String) (o : Shape × String) : Shape → String → Prop
  /-- The shape is one that gets a declaration, and is noted where it is. -/
  | self {s : Shape} {pointer : String} (named : s.isNamed = true)
      (noted : o ∈ s.note (Pointer.label document pointer)) : Occurs document o s pointer
  /-- It occurs in an array if it does in the element. -/
  | item {e : Shape} {pointer : String} (h : Occurs document o e (Pointer.extend pointer .item)) :
      Occurs document o (.array e) pointer
  /-- It occurs in an object if it does in the content of a field. -/
  | member {fs : List (Field Shape)} {f : Field Shape} (order : List String) {pointer : String}
      (hf : f ∈ fs) (h : Occurs document o f.content (Pointer.extend pointer (.member f.name))) :
      Occurs document o (.object fs order) pointer
  /-- It occurs in a union if it does in a member, which is at the position of the union. -/
  | alternative {ms : List Shape} {m : Shape} {pointer : String} (hm : m ∈ ms)
      (h : Occurs document o m pointer) : Occurs document o (.union ms) pointer

/-- The notes to be made when the shape at a pointer is hoisted. -/
def occurrences (document : String) (s : Shape) (pointer : String) : Set (Shape × String) :=
  {o | Occurs document o s pointer}

/-- The notes to be made for a document of which this is the shape: a shape that hoisting does not
name is declared for the document all the same. -/
def documentNotes (document : String) (s : Shape) : Set (Shape × String) :=
  s.occurrences document "" ∪ if s.isNamed then ∅ else s.note document

variable {document : String}

/-! ### Notes, case by case -/

/-- Nothing is noted of primitive shapes. -/
theorem occurrences_prim (p : Primitive) (pointer : String) :
    (prim p).occurrences document pointer = ∅ := by
  refine Set.eq_empty_of_forall_notMem fun o ho ↦ ?_
  cases ho with
  | self named => exact nomatch named

/-- An array of which no item was seen is noted where it stands. -/
theorem occurrences_emptyArray (pointer : String) :
    emptyArray.occurrences document pointer =
      emptyArray.note (Pointer.label document pointer) := by
  ext o
  refine ⟨fun ho ↦ ?_, .self rfl⟩
  cases ho with
  | self _ hnote => exact hnote

/-- An array whose element gets a declaration is noted after the element. -/
theorem occurrences_array {e : Shape} (named : e.isNamed = true) (pointer : String) :
    (array e).occurrences document pointer =
      e.occurrences document (Pointer.extend pointer .item) ∪
        (array e).note (Pointer.label document pointer) := by
  ext o
  refine ⟨fun ho ↦ ?_, ?_⟩
  · cases ho with
    | self _ hnote => exact .inr hnote
    | item h => exact .inl h
  · rintro (h | hnote)
    · exact .item h
    · exact .self named hnote

/-- Any other array passes on what is noted of its element. -/
theorem occurrences_array_of_nameless {e : Shape} (nameless : e.isNamed = false)
    (pointer : String) : (array e).occurrences document pointer =
      e.occurrences document (Pointer.extend pointer .item) := by
  ext o
  refine ⟨fun ho ↦ ?_, .item⟩
  cases ho with
  | self named => exact absurd named (Bool.eq_false_iff.1 nameless)
  | item h => exact h

/-- An object is noted after the contents of its fields, which stand one step further, each below
its own name. -/
theorem occurrences_object (fs : List (Field Shape)) (order : List String) (pointer : String) :
    (object fs order).occurrences document pointer =
      (⋃ f ∈ fs, f.content.occurrences document (Pointer.extend pointer (.member f.name))) ∪
        (object fs order).note (Pointer.label document pointer) := by
  ext o
  rw [Set.mem_union, Set.mem_iUnion₂]
  refine ⟨fun ho ↦ ?_, ?_⟩
  · cases ho with
    | self _ hnote => exact .inr hnote
    | member _ hf h => exact .inl ⟨_, hf, h⟩
  · rintro (⟨f, hf, h⟩ | hnote)
    · exact .member order hf h
    · exact .self rfl hnote

/-- The members of a union stand where the union does. -/
theorem occurrences_union (ms : List Shape) (pointer : String) :
    (union ms).occurrences document pointer = ⋃ m ∈ ms, m.occurrences document pointer := by
  ext o
  rw [Set.mem_iUnion₂]
  refine ⟨fun ho ↦ ?_, ?_⟩
  · cases ho with
    | self named => exact nomatch named
    | alternative hm h => exact ⟨_, hm, h⟩
  · rintro ⟨m, hm, h⟩
    exact .alternative hm h

/-! ### Notes are of the meaning -/

/-- Equal shapes have the same notes, one direction. -/
theorem Occurs.of_same {o : Shape × String} {s t : Shape} {pointer : String}
    (ho : Occurs document o s pointer) (h : s.same t = true) : Occurs document o t pointer := by
  induction ho generalizing t with
  | self named hnote =>
    exact .self (isNamed_of_same h ▸ named) (note_eq_of_same h _ ▸ hnote)
  | item _ ih =>
    cases same_cases h with
    | array hef => exact .item (ih hef)
  | member _ hf _ ih =>
    cases same_cases h with
    | object halike =>
      obtain ⟨g, hg, hfg⟩ := exists_of_forall₂_left halike hf
      exact .member _ hg (hfg.name ▸ ih hfg.content)
  | alternative hm _ ih =>
    cases same_cases h with
    | union hl _ =>
      obtain ⟨n, hn, hmn⟩ := hl _ hm
      exact .alternative hn (ih hmn)

/-- Shapes that mean the same have the same notes. -/
theorem occurrences_eq_of_same {s t : Shape} (h : s.same t = true) (pointer : String) :
    s.occurrences document pointer = t.occurrences document pointer :=
  Set.ext fun _ ↦ ⟨fun ho ↦ ho.of_same h, fun ho ↦ ho.of_same (same_symm h)⟩

/-- Documents with equal shapes have the same notes. -/
theorem documentNotes_eq_of_same {s t : Shape} (h : s.same t = true) :
    s.documentNotes document = t.documentNotes document := by
  rw [documentNotes, documentNotes, occurrences_eq_of_same h, isNamed_of_same h, note_eq_of_same h]

/-! ### Notes and paths -/

/-- At the end of the path the shape has a part that hoisting names and that means the same as the
first shape. -/
inductive NamedAt (part : Shape) : Shape → List Step → Prop
  | self {s : Shape} (named : s.isNamed = true) (same : s.same part = true) : NamedAt part s []
  | item {e : Shape} {path : List Step} (h : NamedAt part e path) :
      NamedAt part (.array e) (.item :: path)
  | member {fs : List (Field Shape)} {f : Field Shape} {path : List Step} (order : List String)
      (hf : f ∈ fs) (h : NamedAt part f.content path) :
      NamedAt part (.object fs order) (.member f.name :: path)
  | alternative {ms : List Shape} {m : Shape} {path : List Step} (hm : m ∈ ms)
      (h : NamedAt part m path) : NamedAt part (.union ms) path

/-- A part occurs with the label of the path to it. -/
theorem occurs_iff {o : Shape × String} {s : Shape} {pointer : String} :
    Occurs document o s pointer ↔ ∃ path, o.1.NamedAt s path ∧
      o.2 = Pointer.label document (path.foldl Pointer.extend pointer) := by
  constructor
  · intro h
    induction h with
    | self named hnote => exact ⟨[], .self named hnote.1, hnote.2⟩
    | item _ ih =>
      obtain ⟨path, hpath, hplace⟩ := ih
      exact ⟨.item :: path, .item hpath, hplace⟩
    | @member fs f order pointer hf _ ih =>
      obtain ⟨path, hpath, hplace⟩ := ih
      exact ⟨.member f.name :: path, .member order hf hpath, hplace⟩
    | alternative hm _ ih =>
      obtain ⟨path, hpath, hplace⟩ := ih
      exact ⟨path, .alternative hm hpath, hplace⟩
  · rintro ⟨path, hpath, hplace⟩
    induction hpath generalizing pointer with
    | self named hsame => exact .self named ⟨hsame, hplace⟩
    | item _ ih => exact .item (ih hplace)
    | member order hf _ ih => exact .member order hf (ih hplace)
    | alternative hm _ ih => exact .alternative hm (ih hplace)

/-- At the end of the path, a document of the second shape has something that is declared and means
the same as the first: a part that hoisting names, or the shape itself, which is declared for the
document whatever it is. -/
def SeenAt (part s : Shape) (path : List Step) : Prop :=
  part.NamedAt s path ∨ path = [] ∧ s.isNamed = false ∧ s.same part = true

/-- What is declared for a document is noted with the label of the path to it. -/
theorem mem_documentNotes_iff {o : Shape × String} {s : Shape} : o ∈ s.documentNotes document ↔
    ∃ path, o.1.SeenAt s path ∧ o.2 = Pointer.label document (Pointer.ofPath path) := by
  have hroot : o ∈ (if s.isNamed then ∅ else s.note document) ↔
      s.isNamed = false ∧ s.same o.1 = true ∧ o.2 = document := by
    cases s.isNamed with
    | true => simp
    | false => simp [note]
  rw [documentNotes, Set.mem_union, hroot]
  show Occurs document o s "" ∨ _ ↔ _
  rw [occurs_iff]
  constructor
  · rintro (⟨path, hpath, hplace⟩ | ⟨hnamed, hsame, hplace⟩)
    · exact ⟨path, .inl hpath, hplace⟩
    · exact ⟨[], .inr ⟨rfl, hnamed, hsame⟩, hplace⟩
  · rintro ⟨path, hpath | ⟨rfl, hnamed, hsame⟩, hplace⟩
    · exact .inl ⟨path, hpath, hplace⟩
    · exact .inr ⟨hnamed, hsame, hplace⟩

end JsonShapes.Shape
